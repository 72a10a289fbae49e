import BitcoinOracle.TransactionParsers

/-! # Serializing and parsing

What is serialized within the limits of the contract parses back to what it was.  The
other way round the parsers are laxer than Bitcoin: a length may be written wider than
it needs to be, and nothing checks that it is not.  What they accept is a serialization
of their answer up to the widths of its lengths, hence the serialization itself as soon
as it is as short.
-/
namespace BitcoinOracle.ClarityBitcoin
open Clarity Encoding

theorem Buff.addressable (tx : Buff 8192) : Addressable tx.bytes :=
  Nat.lt_of_le_of_lt tx.length_le (by decide)

theorem addressable_of_le {tx : Bytes} (h : tx.length ≤ 8192) : Addressable tx :=
  Nat.lt_of_le_of_lt h (by decide)

theorem LegacyTx.Fits.parse {t : LegacyTx} (h : t.Fits) (hlen : t.serialize.length ≤ 8192) :
    parseTx t.serialize = .ok t :=
  (parseTx_eq_ok_iff (addressable_of_le hlen)).mpr h.encodes

theorem WitnessTx.Fits.parse {t : WitnessTx} (h : t.Fits) (hlen : t.serialize.length ≤ 8192) :
    parseWtx t.serialize = .ok t :=
  (parseWtx_eq_ok_iff (addressable_of_le hlen)).mpr h.encodes

/-- **Parsing undoes serialization**, with and without witnesses. -/
theorem parse_serialize :
    (∀ t : LegacyTx, t.Fits → t.serialize.length ≤ 8192 → parseTx t.serialize = .ok t) ∧
      ∀ t : WitnessTx, t.Fits → t.serialize.length ≤ 8192 → parseWtx t.serialize = .ok t :=
  ⟨fun _ h hlen => h.parse hlen, fun _ h hlen => h.parse hlen⟩

/-- An input with a signature script of 253 bytes, whose length takes three. -/
def scriptedIn : TxIn := ⟨List.replicate 32 9, 7, List.replicate 253 81, 2 ^ 32 - 1⟩

def scriptedTx : LegacyTx := ⟨2, [scriptedIn], [⟨546, [81]⟩], 0⟩

/-- Two inputs, and a witness for the second only. -/
def partlyWitnessedTx : WitnessTx :=
  ⟨2, 0, 1, [scriptedIn, scriptedIn], [⟨546, [81]⟩], [[], [[1, 2], []]], 0⟩

theorem parse_serialize_scripted : parseTx scriptedTx.serialize = .ok scriptedTx ∧
    parseWtx partlyWitnessedTx.serialize = .ok partlyWitnessedTx :=
  ⟨parse_serialize.1 scriptedTx (by decide +kernel) (by decide +kernel),
    parse_serialize.2 partlyWitnessedTx (by decide +kernel) (by decide +kernel)⟩

/-! ## What else is accepted -/

/-- No inputs, no outputs, and their numbers written in three bytes. -/
def widePadding : Buff 8192 :=
  ⟨[1, 0, 0, 0, 253, 0, 0, 253, 0, 0, 0, 0, 0, 0], by decide⟩

def widePaddingSegwit : Buff 8192 :=
  ⟨[1, 0, 0, 0, 0, 1, 253, 0, 0, 253, 0, 0, 0, 0, 0, 0], by decide⟩

/-- The numbers of inputs and outputs need not be written in their shortest form. -/
theorem parse_not_canonical :
    (∃ t, parseTx widePadding.bytes = .ok t ∧ t.serialize ≠ widePadding.bytes ∧
      parseTx t.serialize = .ok t) ∧
    ∃ t, parseWtx widePaddingSegwit.bytes = .ok t ∧ t.serialize ≠ widePaddingSegwit.bytes ∧
      parseWtx t.serialize = .ok t :=
  ⟨⟨⟨1, [], [], 0⟩, by decide +kernel⟩, ⟨1, 0, 1, [], [], [], 0⟩, by decide +kernel⟩

/-- **What parses is a serialization up to the widths of its lengths.**  It is the
serialization of the answer as soon as it is as short, so the parsers are injective on
the buffers that waste nothing. -/
theorem parse_encodes (b : Buff 8192) :
    (∀ t, parseTx b.bytes = .ok t → t.Encodes b.bytes ∧ t.serialize.length ≤ b.bytes.length ∧
      (b.bytes.length = t.serialize.length → b.bytes = t.serialize ∧ ∀ b' : Buff 8192,
        parseTx b'.bytes = .ok t → b'.bytes.length = t.serialize.length → b' = b)) ∧
    ∀ t, parseWtx b.bytes = .ok t → t.Encodes b.bytes ∧ t.serialize.length ≤ b.bytes.length ∧
      (b.bytes.length = t.serialize.length → b.bytes = t.serialize ∧ ∀ b' : Buff 8192,
        parseWtx b'.bytes = .ok t → b'.bytes.length = t.serialize.length → b' = b) := by
  constructor
  · intro t ht
    have shortest : ∀ b : Buff 8192, parseTx b.bytes = .ok t → _ := fun b hb =>
      legacyTx_shortest t _ ((parseTx_eq_ok_iff (Buff.addressable b)).mp hb)
    refine ⟨(parseTx_eq_ok_iff (Buff.addressable b)).mp ht, (shortest b ht).1, fun hlen => ?_⟩
    have heq := (shortest b ht).2 hlen
    exact ⟨heq, fun b' hb' hlen' => Buff.ext (((shortest b' hb').2 hlen').trans heq.symm)⟩
  · intro t ht
    have shortest : ∀ b : Buff 8192, parseWtx b.bytes = .ok t → _ := fun b hb =>
      witnessTx_shortest t _ ((parseWtx_eq_ok_iff (Buff.addressable b)).mp hb)
    refine ⟨(parseWtx_eq_ok_iff (Buff.addressable b)).mp ht, (shortest b ht).1, fun hlen => ?_⟩
    have heq := (shortest b ht).2 hlen
    exact ⟨heq, fun b' hb' hlen' => Buff.ext (((shortest b' hb').2 hlen').trans heq.symm)⟩

theorem parse_encodes_widePadding : LegacyTx.Encodes ⟨1, [], [], 0⟩ widePadding.bytes ∧
    WitnessTx.Encodes ⟨1, 0, 1, [], [], [], 0⟩ widePaddingSegwit.bytes :=
  ⟨((parse_encodes widePadding).1 _ (by decide +kernel)).1,
    ((parse_encodes widePaddingSegwit).2 _ (by decide +kernel)).1⟩

end BitcoinOracle.ClarityBitcoin
