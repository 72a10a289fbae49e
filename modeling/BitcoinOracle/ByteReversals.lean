import BitcoinOracle.HeaderSync
import BitcoinOracle.HonestProof
import BitcoinOracle.MirrorSwaps

/-! # Three ways to reverse bytes

Bitcoin shows hashes with their bytes reversed.  `calculateBlockHash` reverses one into a
buffer of its own, from both ends until the two indices meet or pass each other;
`reverseBuffer` swaps in place, as long as the lower index is below half the length; the
contract swaps in place too, from the middle outwards in its indices.

All three are the reversal of the list (`byte_reversals_agree`), the middle byte of an odd
length included: the first loop writes it twice, the second swaps it with itself.  So the
hash in a row of `indexer.blocks` is the one the contract compares with the burn chain.
-/
namespace BitcoinOracle
open Clarity

namespace ByteReversals

/-! ## Buffers of JavaScript -/

/-- `buffer[k]`, as it is stored again: outside of the buffer it is undefined, and that is
stored as zero. -/
def byteAt (buffer : Bytes) (k : Int) : UInt8 := if 0 ≤ k then buffer.getD k.toNat 0 else 0

/-- `buffer[k] = byte`: outside of the buffer it does nothing. -/
def setByte (buffer : Bytes) (k : Int) (byte : UInt8) : Bytes :=
  if 0 ≤ k then buffer.set k.toNat byte else buffer

@[simp] theorem length_setByte (buffer : Bytes) (k : Int) (byte : UInt8) :
    (setByte buffer k byte).length = buffer.length := by
  unfold setByte
  split
  · exact List.length_set
  · rfl

theorem setByte_natCast (buffer : Bytes) (k : Nat) (byte : UInt8) :
    setByte buffer k byte = buffer.set k byte := by
  rw [setByte, if_pos (Int.natCast_nonneg k), Int.toNat_natCast]

theorem getElem?_byteAt {buffer : Bytes} {k : Nat} (h : k < buffer.length) :
    buffer[k]? = some (byteAt buffer k) := by
  rw [byteAt, if_pos (Int.natCast_nonneg k), Int.toNat_natCast, List.getD_eq_getElem?_getD,
    List.getElem?_eq_getElem h, Option.getD_some]

/-! ## The loops -/

/-- The loop of `reverse`. -/
def reverseLoop (src : Bytes) (i j : Int) (buffer : Bytes) : Bytes :=
  if i ≤ j then
    reverseLoop src (i + 1) (j - 1) (setByte (setByte buffer i (byteAt src j)) j (byteAt src i))
  else buffer
termination_by (j + 1 - i).toNat

def reverse (src : Bytes) : Bytes :=
  reverseLoop src 0 (src.length - 1) (List.replicate src.length 0)

def calculateBlockHash (P : Primitives) (blockHeader : Bytes) : Bytes :=
  let step1 := P.sha256 blockHeader
  let step2 := P.sha256 step1
  reverse step2

/-- The loop of `reverseBuffer`.  Half the length is not rounded. -/
def reverseBufferLoop (buffer : Bytes) (i j : Int) : Bytes :=
  if 2 * i < buffer.length then
    let tmp := byteAt buffer i
    reverseBufferLoop (setByte (setByte buffer i (byteAt buffer j)) j tmp) (i + 1) (j - 1)
  else buffer
termination_by (buffer.length - i).toNat
decreasing_by
  rw [length_setByte, length_setByte]
  omega

/-- What is returned, and what is left in the argument. -/
def reverseBuffer (buffer : Bytes) : Bytes × Bytes :=
  if buffer.length < 1 then (buffer, buffer)
  else
    let reversed := reverseBufferLoop buffer 0 (buffer.length - 1)
    (reversed, reversed)

/-! ## They reverse -/

/-- From any turn on, the loop completes the reversal. -/
theorem reverseLoop_eq {src buffer : Bytes} {k : Nat} {i j : Int} (h : Mirrored src k buffer)
    (hi : i = k) (hj : j = src.length - 1 - k) : reverseLoop src i j buffer = src.reverse := by
  rw [reverseLoop]
  by_cases hk : 2 * k < src.length
  · have hmirror : j = (src.length - 1 - k : Nat) := by omega
    have hnext := h.set hk (getElem?_byteAt (by omega)) (getElem?_byteAt (by omega))
    rw [← setByte_natCast, ← setByte_natCast, ← hi, ← hmirror] at hnext
    rw [if_pos (by omega)]
    exact reverseLoop_eq hnext (by omega) (by omega)
  · rw [if_neg (by omega)]
    exact h.eq_reverse (by omega)
termination_by src.length - k

theorem reverse_eq (src : Bytes) : reverse src = src.reverse :=
  reverseLoop_eq (mirrored_zero List.length_replicate) rfl (by omega)

theorem calculateBlockHash_eq (P : Primitives) (blockHeader : Bytes) :
    calculateBlockHash P blockHeader = HeaderSync.calculateBlockHash P blockHeader :=
  reverse_eq _

/-- The bytes that are swapped have not been touched before. -/
theorem reverseBufferLoop_eq {src buffer : Bytes} {k : Nat} {i j : Int}
    (h : MirroredInPlace src k buffer) (hi : i = k) (hj : j = src.length - 1 - k) :
    reverseBufferLoop buffer i j = src.reverse := by
  have hlen := h.length
  rw [reverseBufferLoop]
  by_cases hk : 2 * k < src.length
  · have hmirror : j = (src.length - 1 - k : Nat) := by omega
    have hnext := h.set hk (getElem?_byteAt (by omega)) (getElem?_byteAt (by omega))
    rw [← setByte_natCast, ← setByte_natCast, ← hi, ← hmirror] at hnext
    rw [if_pos (by omega)]
    exact reverseBufferLoop_eq hnext (by omega) (by omega)
  · rw [if_neg (by omega)]
    exact h.eq_reverse (by omega)
termination_by src.length - k

theorem reverseBuffer_eq (buffer : Bytes) :
    reverseBuffer buffer = (buffer.reverse, buffer.reverse) := by
  unfold reverseBuffer
  by_cases hempty : buffer.length < 1
  · rw [if_pos hempty, List.length_eq_zero_iff.mp (Nat.lt_one_iff.mp hempty)]
    rfl
  · have hloop : reverseBufferLoop buffer 0 (buffer.length - 1) = buffer.reverse :=
      reverseBufferLoop_eq (mirroredInPlace_zero buffer) rfl (by omega)
    rw [if_neg hempty, hloop]

/-- The loop that the validator's proofs are built with. -/
theorem validator_reverseBuffer (buffer : Bytes) :
    Validator.reverseBuffer buffer = (reverseBuffer buffer).1 := by
  rw [Validator.reverseBuffer_eq, reverseBuffer_eq]

example : reverse [1, 2, 3, 4, 5] = [5, 4, 3, 2, 1] ∧
    reverseBuffer [1, 2, 3, 4, 5] = ([5, 4, 3, 2, 1], [5, 4, 3, 2, 1]) := by
  decide +kernel

/-! ## The hash of a stored header -/

section Stored
variable {P : Primitives} {genesis : Int} {s : HeaderSync.State}

/-- Every row holds the hash of its header. -/
def HashesStored (P : Primitives) (s : HeaderSync.State) : Prop :=
  ∀ row ∈ s.blocks, row.blockHash = calculateBlockHash P row.header

theorem HashesStored.next (h : HashesStored P s) (a : HeaderSync.Action) :
    HashesStored P (s.next P genesis a) := by
  rcases HeaderSync.table_next P genesis s a with
    ⟨hblocks, -⟩ | ⟨height, header, blocks, hinserted, hblocks, -⟩
  · intro row hrow
    rw [hblocks] at hrow
    exact h row hrow
  · intro row hrow
    rw [hblocks] at hrow
    -- a conflict updates `canonical` and nothing else
    exact HeaderSync.forall_upsertBlock (HeaderSync.inserted_eq_some.mp hinserted).2
      (calculateBlockHash_eq P header).symm (fun _ hrow => hrow) h row hrow

theorem hashesStored_run (view : HeaderSync.View) (actions : List HeaderSync.Action) :
    HashesStored P ((HeaderSync.machine P genesis).run (HeaderSync.start view) actions) :=
  (HeaderSync.machine P genesis).run_of_step (HashesStored P) (fun _ a h => h.next a)
    (fun _ hrow => absurd hrow List.not_mem_nil) actions

end Stored

theorem verifyBlockHeader_eq (P : Primitives) (env : Env) (mock : ClarityBitcoin.MockHeaders)
    (header : Bytes) (height : Uint) :
    ClarityBitcoin.verifyBlockHeader P env mock header height =
      .ok ((ClarityBitcoin.getBcHHash env mock height).any fun bhh =>
        bhh.bytes = calculateBlockHash P header) := by
  rw [calculateBlockHash_eq, HeaderSync.calculateBlockHash, ClarityBitcoin.verifyBlockHeader,
    ClarityBitcoin.reverseBuff32_eq (ClarityBitcoin.sha256d_length P header)]
  cases ClarityBitcoin.getBcHHash env mock height with
  | none => rfl
  | some bhh => rfl

/-- **All byte reversals agree.**  On 32 bytes the contract reverses like the other two,
and twice is not at all; the other two reverse a buffer of any length.  So in whatever
state the header sync is, verifying the header of a row compares the hash in the row. -/
theorem byte_reversals_agree (P : Primitives) (env : Env) (mock : ClarityBitcoin.MockHeaders)
    (genesis : Int) (view : HeaderSync.View) (actions : List HeaderSync.Action) (buffer : Bytes)
    {b : Bytes} (hb : b.length = 32) :
    ClarityBitcoin.reverseBuff32 b = .ok b.reverse ∧
      (ClarityBitcoin.reverseBuff32 b >>= ClarityBitcoin.reverseBuff32) = .ok b ∧
      ClarityBitcoin.reverseBuff32 b = .ok (reverse b) ∧
      ClarityBitcoin.reverseBuff32 b = .ok (reverseBuffer b).1 ∧
      reverse buffer = buffer.reverse ∧
      reverseBuffer buffer = (buffer.reverse, buffer.reverse) ∧
      (∀ header height, ClarityBitcoin.verifyBlockHeader P env mock header height =
        .ok ((ClarityBitcoin.getBcHHash env mock height).any fun bhh =>
          bhh.bytes = calculateBlockHash P header)) ∧
      ∀ row ∈ ((HeaderSync.machine P genesis).run (HeaderSync.start view) actions).blocks,
        row.blockHash = calculateBlockHash P row.header := by
  have hreverse := ClarityBitcoin.reverseBuff32_eq hb
  refine ⟨hreverse, ?_, ?_, ?_, reverse_eq buffer, reverseBuffer_eq buffer,
    verifyBlockHeader_eq P env mock, hashesStored_run view actions⟩
  · rw [hreverse, Result.ok_bind,
      ClarityBitcoin.reverseBuff32_eq (List.length_reverse.trans hb), List.reverse_reverse]
  · rw [reverse_eq, hreverse]
  · rw [reverseBuffer_eq, hreverse]

section Sample
open Sample

/-- The number one in 32 bytes, and the table after the reorganisation. -/
theorem byte_reversals_agree_reorganised :
    ClarityBitcoin.reverseBuff32 (bytesBe 32 1) = .ok (bytesBe 32 1).reverse ∧
      ClarityBitcoin.reverseBuff32 (bytesBe 32 1) = .ok (reverse (bytesBe 32 1)) ∧
      ∀ row ∈ reorganised.blocks,
        row.blockHash = calculateBlockHash headerPrimitives row.header := by
  obtain ⟨hreverse, -, hcopied, -, -, -, -, hrows⟩ := byte_reversals_agree headerPrimitives testnet
    .empty 1 shortChain [.start, .getMissingBlocks, .readHeights, .insertBlock 0, .insertBlock 0,
      .insertBlock 0, .complete, .interval, .reorganise longChain, .getMissingBlocks, .readHeights,
      .insertBlock 0, .insertBlock 0, .complete] [] (show (bytesBe 32 1).length = 32 from rfl)
  exact ⟨hreverse, hcopied, hrows⟩

end Sample

end ByteReversals
end BitcoinOracle
