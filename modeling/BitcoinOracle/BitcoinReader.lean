import BitcoinOracle.ClarityData
import BitcoinOracle.MirrorSwaps

/-! # Reading Bitcoin transactions

The parsing half of `clarity-bitcoin-v1-05`: a cursor over a buffer, the readers
for integers, varints and slices, and the folds over inputs, outputs and
witnesses.  Every reader answers with what it read and the cursor after it, with
an error code where the source says so, and aborts where the source uses
`unwrap-panic` or overflows.
-/
namespace BitcoinOracle.ClarityBitcoin
open Clarity

def errOutOfBounds : Nat := 1001
def errTooManyTxins : Nat := 1002
def errTooManyTxouts : Nat := 1003
def errVarsliceTooLong : Nat := 1004
def errProofTooShort : Nat := 1006
def errLeftoverData : Nat := 1010
def errNotSegwitTransaction : Nat := 1011

/-- `{ txbuff, index }`. -/
structure Ctx where
  txbuff : Bytes
  index : Nat

/-- What a reader read, and the cursor after it. -/
structure Parsed (α : Type) where
  value : α
  ctx : Ctx

/-- The common body of `read-uint8`, `read-uint16`, `read-uint32` and
`read-uint64`. -/
def readUintLe (width : Nat) (ctx : Ctx) : Result (Parsed Nat) := do
  let stop ← add ctx.index width
  let window ← .unwrap (slice ctx.txbuff ctx.index stop) errOutOfBounds
  let digits ← .unwrapPanic (asMaxLen window width)
  let next ← add width ctx.index
  pure ⟨buffToUintLe digits, ⟨ctx.txbuff, next⟩⟩

def readUint8 : Ctx → Result (Parsed Nat) := readUintLe 1
def readUint16 : Ctx → Result (Parsed Nat) := readUintLe 2
def readUint32 : Ctx → Result (Parsed Nat) := readUintLe 4
def readUint64 : Ctx → Result (Parsed Nat) := readUintLe 8

def readVarint (ctx : Ctx) : Result (Parsed Nat) := do
  let first ← .unwrap (elementAt ctx.txbuff ctx.index) errOutOfBounds
  let byte := buffToUintLe [first]
  let next ← add 1 ctx.index
  if byte ≤ 252 then
    -- the byte is the varint
    pure ⟨byte, ⟨ctx.txbuff, next⟩⟩
  else if byte = 253 then
    readUint16 ⟨ctx.txbuff, next⟩
  else if byte = 254 then
    readUint32 ⟨ctx.txbuff, next⟩
  else
    readUint64 ⟨ctx.txbuff, next⟩

def readVarslice (oldCtx : Ctx) : Result (Parsed Bytes) := do
  let parsed ← readVarint oldCtx
  let sliceStart := parsed.ctx.index
  let targetIndex ← add sliceStart parsed.value
  let txbuff := parsed.ctx.txbuff
  let varslice ← .unwrap (slice txbuff sliceStart targetIndex) errOutOfBounds
  pure ⟨varslice, ⟨txbuff, targetIndex⟩⟩

/-- One swap of `reverse-buff32`: the elements at `targetIndex` and
`31 - targetIndex` change places. -/
def innerReverse (targetIndex : Nat) (hashInput : Bytes) : Result Bytes := do
  let mirror ← sub 31 targetIndex
  let far ← .unwrapPanic (elementAt hashInput mirror)
  let once ← .unwrapPanic (replaceAt hashInput targetIndex far)
  let near ← .unwrapPanic (elementAt hashInput targetIndex)
  .unwrapPanic (replaceAt once mirror near)

def reverseBuff32 (input : Bytes) : Result Bytes :=
  [31, 30, 29, 28, 27, 26, 25, 24, 23, 22, 21, 20, 19, 18, 17, 16].foldlM
    (fun hashInput targetIndex => innerReverse targetIndex hashInput) input

def readHashslice (oldCtx : Ctx) : Result (Parsed Bytes) := do
  let sliceStart := oldCtx.index
  let targetIndex ← add 32 sliceStart
  let txbuff := oldCtx.txbuff
  let window ← .unwrap (slice txbuff sliceStart targetIndex) errOutOfBounds
  let hashLe ← .unwrapPanic (asMaxLen window 32)
  let hashslice ← reverseBuff32 hashLe
  pure ⟨hashslice, ⟨txbuff, targetIndex⟩⟩

/-! ## Inputs, outputs and witnesses -/

structure TxIn where
  outpointHash : Bytes
  outpointIndex : Nat
  scriptSig : Bytes
  sequence : Nat
  deriving DecidableEq

structure TxOut where
  value : Nat
  scriptPubKey : Bytes
  deriving DecidableEq

/-- The accumulator of `read-txins`. -/
structure TxInsState where
  ctx : Ctx
  remaining : Nat
  txins : List TxIn

/-- The accumulator of `read-txouts`. -/
structure TxOutsState where
  ctx : Ctx
  txouts : List TxOut

/-- The accumulator of the fold over the elements of one witness. -/
structure ElementsState where
  ctx : Ctx
  elements : List Bytes

/-- The accumulator of `read-witnesses`. -/
structure WitnessesState where
  ctx : Ctx
  witnesses : List (List Bytes)

/-- The literal list of 62 `true`s the folds are sliced from. -/
def sixtyTwo : List Bool := List.replicate 62 true

def readNextTxin (_ignored : Bool) (stateRes : Except Nat TxInsState) : Result TxInsState :=
  match stateRes with
  | .ok state =>
      if 0 < state.remaining then do
        let parsedHash ← readHashslice state.ctx
        let parsedIndex ← readUint32 parsedHash.ctx
        let parsedScriptSig ← readVarslice parsedIndex.ctx
        let parsedSequence ← readUint32 parsedScriptSig.ctx
        let remaining ← sub state.remaining 1
        let scriptSig ← .unwrap (asMaxLen parsedScriptSig.value 256) errVarsliceTooLong
        let txins ← .unwrap (asMaxLen (state.txins ++
          [⟨parsedHash.value, parsedIndex.value, scriptSig, parsedSequence.value⟩]) 62)
          errTooManyTxins
        pure ⟨parsedSequence.ctx, remaining, txins⟩
      else
        .ok state
  | .error error => .err error

def readTxins (ctx : Ctx) : Result TxInsState := do
  let parsedNumTxins ← readVarint ctx
  let numTxins := parsedNumTxins.value
  if 62 < numTxins then
    .err errTooManyTxins
  else do
    let turns ← .unwrapPanic (slice sixtyTwo 0 numTxins)
    .fold readNextTxin turns (.ok ⟨parsedNumTxins.ctx, numTxins, []⟩)

def readNextTxout (_ignored : Bool) (stateRes : Except Nat TxOutsState) : Result TxOutsState :=
  match stateRes with
  | .ok state => do
      let parsedValue ← readUint64 state.ctx
      let parsedScript ← readVarslice parsedValue.ctx
      let scriptPubKey ← .unwrap (asMaxLen parsedScript.value 128) errVarsliceTooLong
      let txouts ← .unwrap (asMaxLen (state.txouts ++ [⟨parsedValue.value, scriptPubKey⟩]) 62)
        errTooManyTxouts
      pure ⟨parsedScript.ctx, txouts⟩
  | .error error => .err error

def readTxouts (ctx : Ctx) : Result TxOutsState := do
  let parsedNumTxouts ← readVarint ctx
  let numTxouts := parsedNumTxouts.value
  if 62 < numTxouts then
    .err errTooManyTxouts
  else do
    let turns ← .unwrapPanic (slice sixtyTwo 0 numTxouts)
    .fold readNextTxout turns (.ok ⟨parsedNumTxouts.ctx, []⟩)

def readNextElement (_ignored : Bool) (stateRes : Except Nat ElementsState) :
    Result ElementsState :=
  match stateRes with
  | .ok state => do
      let parsedScript ← readVarslice state.ctx
      let element ← .unwrap (asMaxLen parsedScript.value 256) errVarsliceTooLong
      let elements ← .unwrap (asMaxLen (state.elements ++ [element]) 62) errTooManyTxouts
      pure ⟨parsedScript.ctx, elements⟩
  | .error error => .err error

def readNextWitness (_ignored : Bool) (stateRes : Except Nat WitnessesState) :
    Result WitnessesState :=
  match stateRes with
  | .ok state => do
      let parsedNumItems ← readVarint state.ctx
      if 0 < parsedNumItems.value then do
        -- the slice is `none`, and the call aborts, when there are more than 62 items
        let turns ← .unwrapPanic (slice sixtyTwo 0 parsedNumItems.value)
        let parsedElements ← .fold readNextElement turns (.ok ⟨parsedNumItems.ctx, []⟩)
        let witnesses ← .unwrapPanic (asMaxLen (state.witnesses ++ [parsedElements.elements]) 62)
        pure ⟨parsedElements.ctx, witnesses⟩
      else do
        let witnesses ← .unwrapPanic (asMaxLen (state.witnesses ++ [[]]) 62)
        pure ⟨parsedNumItems.ctx, witnesses⟩
  | .error _ => .err 1

def readWitnesses (ctx : Ctx) (numTxins : Nat) : Result WitnessesState := do
  let turns ← .unwrapPanic (slice sixtyTwo 0 numTxins)
  .fold readNextWitness turns (.ok ⟨ctx, []⟩)

/-! ## Transactions -/

/-- Whether the fifth byte of the buffer is zero, the marker of a segwit
transaction. -/
def isSegwitTx (tx : Bytes) : Result Bool := do
  let parsedVersion ← readUint32 ⟨tx, 0⟩
  let parsedSegwitMarker ← readUint8 parsedVersion.ctx
  pure (decide (parsedSegwitMarker.value = 0))

structure WitnessTx where
  version : Nat
  segwitMarker : Nat
  segwitVersion : Nat
  ins : List TxIn
  outs : List TxOut
  witnesses : List (List Bytes)
  locktime : Nat
  deriving DecidableEq

structure LegacyTx where
  version : Nat
  ins : List TxIn
  outs : List TxOut
  locktime : Nat
  deriving DecidableEq

def parseWtx (tx : Bytes) : Result WitnessTx := do
  let parsedVersion ← readUint32 ⟨tx, 0⟩
  let parsedSegwitMarker ← readUint8 parsedVersion.ctx
  let parsedSegwitVersion ← readUint8 parsedSegwitMarker.ctx
  let parsedTxins ← readTxins parsedSegwitVersion.ctx
  let parsedTxouts ← readTxouts parsedTxins.ctx
  let parsedWitnesses ← readWitnesses parsedTxouts.ctx parsedTxins.txins.length
  let parsedLocktime ← readUint32 parsedWitnesses.ctx
  Result.asserts (parsedSegwitMarker.value = 0 ∧ parsedSegwitVersion.value = 1)
    errNotSegwitTransaction
  Result.asserts (tx.length = parsedLocktime.ctx.index) errLeftoverData
  pure ⟨parsedVersion.value, parsedSegwitMarker.value, parsedSegwitVersion.value,
    parsedTxins.txins, parsedTxouts.txouts, parsedWitnesses.witnesses, parsedLocktime.value⟩

def parseTx (tx : Bytes) : Result LegacyTx := do
  let parsedVersion ← readUint32 ⟨tx, 0⟩
  let parsedTxins ← readTxins parsedVersion.ctx
  let parsedTxouts ← readTxouts parsedTxins.ctx
  let parsedLocktime ← readUint32 parsedTxouts.ctx
  Result.asserts (tx.length = parsedLocktime.ctx.index) errLeftoverData
  pure ⟨parsedVersion.value, parsedTxins.txins, parsedTxouts.txouts, parsedLocktime.value⟩

/-- `dropped-tx` of `get-reversed-segwit-txid`: the bytes of a segwit transaction
without marker, flag and witnesses. -/
def droppedTx (tx : Bytes) : Result Bytes := do
  let parsedVersion ← .expect (readUint32 ⟨tx, 0⟩)
  let parsedSegwitMarker ← .expect (readUint8 parsedVersion.ctx)
  let parsedSegwitVersion ← .expect (readUint8 parsedSegwitMarker.ctx)
  let parsedTxins ← .expect (readTxins parsedSegwitVersion.ctx)
  let parsedTxouts ← .expect (readTxouts parsedTxins.ctx)
  let parsedWitnesses ← .expect (readWitnesses parsedTxouts.ctx parsedTxins.txins.length)
  -- read only to check that the lock time is there
  let _parsedLocktime ← .expect (readUint32 parsedWitnesses.ctx)
  let version ← .unwrapPanic (slice tx 0 parsedVersion.ctx.index)
  let body ← .unwrapPanic (slice tx parsedSegwitVersion.ctx.index parsedTxouts.ctx.index)
  let rest ← .unwrapPanic (slice tx parsedWitnesses.ctx.index tx.length)
  pure (version ++ (body ++ rest))

/-! ## What the readers read -/

theorem readUintLe_eq {width i : Nat} {buff window : Bytes}
    (hw : slice buff i (i + width) = some window) (hi : i + width < 2 ^ 128) :
    readUintLe width ⟨buff, i⟩ = .ok ⟨buffToUintLe window, ⟨buff, i + width⟩⟩ := by
  have hlen : window.length ≤ width := by
    rw [slice_length hw]
    omega
  have hi' : width + i < 2 ^ 128 := by omega
  simp only [readUintLe, add_of_lt hi, add_of_lt hi', hw, asMaxLen_of_le hlen, Result.unwrap,
    Result.unwrapPanic, Result.ok_bind, Result.pure_def, Nat.add_comm width i]

/-- `b` after the first `k` swaps: its `k` outermost elements on either side have
changed places. -/
structure Swapped (b : Bytes) (k : Nat) (l : Bytes) : Prop where
  length : l.length = 32
  outer : ∀ i < 32, i < k ∨ 31 - k < i → l[i]? = b[31 - i]?
  inner : ∀ i < 32, ¬ (i < k ∨ 31 - k < i) → l[i]? = b[i]?

theorem innerReverse_eq {l : Bytes} {t : Nat} {near far : UInt8} (ht : t ≤ 31)
    (hlen : l.length = 32) (hnear : l[t]? = some near) (hfar : l[31 - t]? = some far) :
    innerReverse t l = .ok ((l.set t far).set (31 - t) near) := by
  have ht32 : t < l.length := by omega
  have hm32 : 31 - t < (l.set t far).length := by
    rw [List.length_set]
    omega
  simp only [innerReverse, sub, if_pos ht, elementAt, hfar, hnear, replaceAt, if_pos ht32,
    if_pos hm32, Result.ok_bind, Result.unwrapPanic_some]

theorem swapped_iff {b l : Bytes} {k : Nat} (hb : b.length = 32) :
    Swapped b k l ↔ MirroredInPlace b k l := by
  constructor
  · intro h
    refine ⟨⟨h.length.trans hb.symm, fun i hi hout => ?_⟩, fun i hi hin => ?_⟩
    · rw [h.outer i (by omega) (by omega), hb]
    · exact h.inner i (by omega) (by omega)
  · intro h
    refine ⟨h.length.trans hb, fun i hi hout => ?_, fun i hi hin => ?_⟩
    · rw [h.outer i (by omega) (by omega), hb]
    · exact h.inner i (by omega) (by omega)

theorem Swapped.step {b l : Bytes} {k : Nat} (hb : b.length = 32) (h : Swapped b k l)
    (hk : k < 16) : ∃ l', innerReverse (31 - k) l = .ok l' ∧ Swapped b (k + 1) l' := by
  have hlen := h.length
  have hmirror : 31 - (31 - k) = k := by omega
  obtain ⟨near, hnear⟩ : ∃ near, l[k]? = some near := ⟨_, List.getElem?_eq_getElem (by omega)⟩
  obtain ⟨far, hfar⟩ : ∃ far, l[31 - k]? = some far :=
    ⟨_, List.getElem?_eq_getElem (by omega)⟩
  have hstep := ((swapped_iff hb).mp h).set (by omega) hnear (by rw [hb]; exact hfar)
  rw [hb] at hstep
  -- the target is the far position, so it is written first
  refine ⟨_, innerReverse_eq (by omega) hlen hfar (by rw [hmirror]; exact hnear), ?_⟩
  rw [hmirror, List.set_comm _ _ (by omega)]
  exact (swapped_iff hb).mpr hstep

theorem Swapped.fold {b : Bytes} (h : b.length = 32) {n : Nat} (hn : n ≤ 16) :
    ∃ l, ((List.range n).map (31 - ·)).foldlM
      (fun hashInput targetIndex => innerReverse targetIndex hashInput) b = Result.ok l ∧
      Swapped b n l := by
  induction n with
  | zero => exact ⟨b, rfl, (swapped_iff h).mpr (mirroredInPlace_zero b)⟩
  | succ n ih =>
      obtain ⟨l, hl, hs⟩ := ih (by omega)
      obtain ⟨l', hl', hs'⟩ := hs.step h (by omega)
      refine ⟨l', ?_, hs'⟩
      rw [List.range_succ, List.map_append, List.map_singleton, List.foldlM_append, hl,
        Result.ok_bind, List.foldlM_cons, hl', Result.ok_bind, List.foldlM_nil, Result.pure_def]

/-- **The sixteen swaps reverse a buffer of the full 32 bytes.** -/
theorem reverseBuff32_eq {b : Bytes} (h : b.length = 32) : reverseBuff32 b = .ok b.reverse := by
  obtain ⟨l, hl, hs⟩ := Swapped.fold h (Nat.le_refl 16)
  rw [reverseBuff32, show [31, 30, 29, 28, 27, 26, 25, 24, 23, 22, 21, 20, 19, 18, 17, 16] =
    (List.range 16).map (31 - ·) from rfl, hl, ((swapped_iff h).mp hs).eq_reverse (by omega)]

theorem readHashslice_eq {i : Nat} {buff window : Bytes}
    (hw : slice buff i (32 + i) = some window) (hi : 32 + i < 2 ^ 128) :
    readHashslice ⟨buff, i⟩ = .ok ⟨window.reverse, ⟨buff, 32 + i⟩⟩ := by
  have hlen : window.length = 32 := by
    rw [slice_length hw]
    omega
  simp only [readHashslice, add_of_lt hi, hw, asMaxLen_of_le (le_of_eq hlen), Result.unwrap,
    Result.unwrapPanic, Result.ok_bind, Result.pure_def, reverseBuff32_eq hlen]

end BitcoinOracle.ClarityBitcoin
