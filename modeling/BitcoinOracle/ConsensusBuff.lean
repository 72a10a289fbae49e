import BitcoinOracle.ClarityData

/-! # Consensus serialization

`to-consensus-buff?` for the value types events are built of: each value is its
type byte followed by its contents, with lengths and integers big-endian, and a
tuple lists its entries in the lexicographic order of their names.
-/
namespace Clarity

/-- A `uint`: type byte `0x01` and sixteen bytes. -/
def serializeUint (n : Uint) : Bytes := 0x01 :: bytesBe 16 n.val

/-- A buffer: type byte `0x02`, its length, its bytes. -/
def serializeBuff {n : Nat} (b : Buff n) : Bytes :=
  0x02 :: (bytesBe 4 b.bytes.length ++ b.bytes)

/-- The UTF-8 encoding of a string. -/
def utf8 (cs : List Char) : Bytes := cs.flatMap String.utf8EncodeChar

/-- A `string-utf8`: type byte `0x0e`, the length of its encoding, its encoding. -/
def serializeStringUtf8 {n : Nat} (s : StringUtf8 n) : Bytes :=
  0x0e :: (bytesBe 4 (utf8 s.chars).length ++ utf8 s.chars)

/-- One entry of a tuple: the length of its name, its name, its value. -/
def serializeEntry (name : List Char) (value : Bytes) : Bytes :=
  UInt8.ofNat name.length :: (utf8 name ++ value)

/-- A tuple, its entries already in order: type byte `0x0c`, their number, the
entries. -/
def serializeTuple (entries : List (List Char × Bytes)) : Bytes :=
  0x0c :: (bytesBe 4 entries.length ++ entries.flatMap fun e => serializeEntry e.1 e.2)

end Clarity
