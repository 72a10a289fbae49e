import BitcoinOracle.BufferFolds
import BitcoinOracle.TransactionRoundTrip

/-! # The helper that builds transactions

`concat-tx` of `clarity-bitcoin-helper` writes a transaction from its parts, every list
and every script behind its length.  It takes the length from a table of bytes, where
the parser reads a `CompactSize`: from 253 on one byte no longer is the length, and from
256 on there is no entry.  Nothing pads a field that is shorter than its type.

So what it writes parses back exactly if all fields are full and no signature script is
longer than 252 bytes (`concatTx_parses_iff`).  That nothing else does follows from the
lengths: what it writes is never longer than the canonical form, and what parses is
never shorter.
-/
namespace BitcoinOracle
namespace TransactionHelper

open Clarity Encoding ClarityBitcoin
open Clarity.Result (unwrapPanic)

/-! ## The contract -/

structure Input where
  hash : Buff 32
  index : Buff 4
  scriptSig : Buff 256
  sequence : Buff 4

structure Output where
  value : Buff 8
  scriptPubKey : Buff 128

/-- The argument of `concat-tx`. -/
structure Tx where
  version : Buff 4
  ins : List Input
  outs : List Output
  locktime : Buff 4
  ins_length_le : ins.length ≤ 8
  outs_length_le : outs.length ≤ 8

/-- `BUFF_TO_BYTE`. -/
def buffToByte : List Bytes := (List.range 256).map fun n => [UInt8.ofNat n]

def concatVar (buffer : Bytes) : Result Bytes := do
  let length ← unwrapPanic (elementAt buffToByte buffer.length)
  pure (length ++ buffer)

def concatIn (i : Input) (result : Bytes) : Result Bytes := do
  let script ← concatVar i.scriptSig.bytes
  unwrapPanic (asMaxLen
    (result ++ i.hash.bytes ++ i.index.bytes ++ script ++ i.sequence.bytes) 1024)

def concatIns (ins : List Input) : Result Bytes := do
  let length ← unwrapPanic (elementAt buffToByte ins.length)
  let body ← ins.foldlM (fun result i => concatIn i result) []
  unwrapPanic (asMaxLen (length ++ body) 1024)

def concatOut (out : Output) (result : Bytes) : Result Bytes := do
  let script ← concatVar out.scriptPubKey.bytes
  unwrapPanic (asMaxLen (result ++ out.value.bytes ++ script) 1024)

def concatOuts (outs : List Output) : Result Bytes := do
  let length ← unwrapPanic (elementAt buffToByte outs.length)
  let body ← outs.foldlM (fun result out => concatOut out result) []
  unwrapPanic (asMaxLen (length ++ body) 1024)

def concatTx (tx : Tx) : Result Bytes := do
  let ins ← concatIns tx.ins
  let outs ← concatOuts tx.outs
  unwrapPanic (asMaxLen (tx.version.bytes ++ ins ++ outs ++ tx.locktime.bytes) 1024)

/-! ## The transaction it is about -/

/-- The answer of the parser shows the hash of an outpoint byte-reversed. -/
def Input.txIn (i : Input) : TxIn :=
  ⟨i.hash.bytes.reverse, buffToUintLe i.index.bytes, i.scriptSig.bytes,
    buffToUintLe i.sequence.bytes⟩

def Output.txOut (o : Output) : TxOut := ⟨buffToUintLe o.value.bytes, o.scriptPubKey.bytes⟩

def Tx.legacyTx (tx : Tx) : LegacyTx :=
  ⟨buffToUintLe tx.version.bytes, tx.ins.map Input.txIn, tx.outs.map Output.txOut,
    buffToUintLe tx.locktime.bytes⟩

structure Input.Full (i : Input) : Prop where
  hash : i.hash.bytes.length = 32
  index : i.index.bytes.length = 4
  sequence : i.sequence.bytes.length = 4

/-- Every field of a fixed width has that width. -/
structure Tx.Full (tx : Tx) : Prop where
  version : tx.version.bytes.length = 4
  ins : ∀ i ∈ tx.ins, i.Full
  outs : ∀ o ∈ tx.outs, o.value.bytes.length = 8
  locktime : tx.locktime.bytes.length = 4

/-! ## What it writes -/

def rawVar (buffer : Bytes) : Bytes := UInt8.ofNat buffer.length :: buffer

def Input.raw (i : Input) : Bytes :=
  i.hash.bytes ++ (i.index.bytes ++ (rawVar i.scriptSig.bytes ++ i.sequence.bytes))

def Output.raw (o : Output) : Bytes := o.value.bytes ++ rawVar o.scriptPubKey.bytes

def rawList {α : Type} (f : α → Bytes) (xs : List α) : Bytes :=
  UInt8.ofNat xs.length :: xs.flatMap f

def Tx.raw (tx : Tx) : Bytes :=
  tx.version.bytes ++ (rawList Input.raw tx.ins ++
    (rawList Output.raw tx.outs ++ tx.locktime.bytes))

theorem elementAt_buffToByte {n : Nat} {b : Bytes} :
    elementAt buffToByte n = some b ↔ n < 256 ∧ b = [UInt8.ofNat n] := by
  by_cases h : n < 256
  · simp [elementAt, buffToByte, h, eq_comm]
  · simp [elementAt, buffToByte, h]

theorem concatVar_eq_ok_iff {buffer b : Bytes} :
    concatVar buffer = .ok b ↔ buffer.length < 256 ∧ b = rawVar buffer := by
  simp only [concatVar, Result.bind_eq_ok, Result.unwrapPanic_eq_ok, elementAt_buffToByte,
    Result.pure_def, Result.ok.injEq]
  constructor
  · rintro ⟨_, ⟨h, rfl⟩, rfl⟩
    exact ⟨h, rfl⟩
  · rintro ⟨h, rfl⟩
    exact ⟨_, ⟨h, rfl⟩, rfl⟩

section
variable {α : Type} {f : α → Result Bytes} {p : α → Prop} {g : α → Bytes}

/-- A list behind its length, written by a fold that concatenates. -/
theorem concatList_eq_ok_iff (hf : ∀ x c, f x = .ok c ↔ p x ∧ c = g x) (xs : List α) {b : Bytes} :
    (do
      let length ← unwrapPanic (elementAt buffToByte xs.length)
      let body ← xs.foldlM (fun result x => do
        let c ← f x
        unwrapPanic (asMaxLen (result ++ c) 1024)) []
      unwrapPanic (asMaxLen (length ++ body) 1024)) = .ok b ↔
      xs.length < 256 ∧ (∀ x ∈ xs, p x) ∧ b = rawList g xs ∧ b.length ≤ 1024 := by
  have hfold (body : Bytes) :=
    foldlM_concat hf xs (a := []) (b := body) (Nat.zero_le 1024)
  simp only [Result.bind_eq_ok, Result.unwrapPanic_eq_ok, elementAt_buffToByte, asMaxLen_eq_some,
    List.nil_append] at hfold ⊢
  simp only [hfold]
  constructor
  · rintro ⟨_, ⟨hlength, rfl⟩, _, ⟨hp, rfl, -⟩, hroom, rfl⟩
    exact ⟨hlength, hp, rfl, hroom⟩
  · rintro ⟨hlength, hp, rfl, hroom⟩
    refine ⟨_, ⟨hlength, rfl⟩, _, ⟨hp, rfl, ?_⟩, hroom, rfl⟩
    rw [rawList, List.length_cons] at hroom
    omega

end

theorem concatIns_eq_ok_iff {ins : List Input} {b : Bytes} :
    concatIns ins = .ok b ↔ ins.length < 256 ∧
      (∀ i ∈ ins, i.scriptSig.bytes.length < 256) ∧ b = rawList Input.raw ins ∧
        b.length ≤ 1024 := by
  let piece (i : Input) : Result Bytes := do
    let script ← concatVar i.scriptSig.bytes
    pure (i.hash.bytes ++ (i.index.bytes ++ (script ++ i.sequence.bytes)))
  have hpiece : ∀ i c, piece i = .ok c ↔ i.scriptSig.bytes.length < 256 ∧ c = i.raw := by
    intro i c
    simp only [piece, Result.bind_eq_ok, concatVar_eq_ok_iff, Result.pure_def, Result.ok.injEq]
    constructor
    · rintro ⟨_, ⟨h, rfl⟩, rfl⟩
      exact ⟨h, rfl⟩
    · rintro ⟨h, rfl⟩
      exact ⟨_, ⟨h, rfl⟩, rfl⟩
  rw [← concatList_eq_ok_iff hpiece]
  simp only [concatIns, concatIn, piece, bind_assoc, pure_bind, List.append_assoc]

theorem concatOuts_eq_ok_iff {outs : List Output} {b : Bytes} :
    concatOuts outs = .ok b ↔ outs.length < 256 ∧ b = rawList Output.raw outs ∧
      b.length ≤ 1024 := by
  let piece (o : Output) : Result Bytes := do
    let script ← concatVar o.scriptPubKey.bytes
    pure (o.value.bytes ++ script)
  have hpiece : ∀ o c, piece o = .ok c ↔ True ∧ c = o.raw := by
    intro o c
    have hshort : o.scriptPubKey.bytes.length < 256 :=
      Nat.lt_of_le_of_lt o.scriptPubKey.length_le (by decide)
    simp only [piece, Result.bind_eq_ok, concatVar_eq_ok_iff, Result.pure_def, Result.ok.injEq]
    constructor
    · rintro ⟨_, ⟨-, rfl⟩, rfl⟩
      exact ⟨trivial, rfl⟩
    · rintro ⟨-, rfl⟩
      exact ⟨_, ⟨hshort, rfl⟩, rfl⟩
  have hlist := concatList_eq_ok_iff hpiece outs (b := b)
  simp only [implies_true, true_and] at hlist
  rw [← hlist]
  simp only [concatOuts, concatOut, piece, bind_assoc, pure_bind, List.append_assoc]

/-- **When `concat-tx` answers, and with what.** -/
theorem concatTx_eq_ok_iff {tx : Tx} {b : Bytes} :
    concatTx tx = .ok b ↔
      (∀ i ∈ tx.ins, i.scriptSig.bytes.length < 256) ∧ b = tx.raw ∧ b.length ≤ 1024 := by
  have hins := tx.ins_length_le
  have houts := tx.outs_length_le
  simp only [concatTx, Result.bind_eq_ok, concatIns_eq_ok_iff, concatOuts_eq_ok_iff,
    Result.unwrapPanic_eq_ok, asMaxLen_eq_some]
  constructor
  · rintro ⟨_, ⟨-, hscripts, rfl, -⟩, _, ⟨-, rfl, -⟩, hroom, rfl⟩
    exact ⟨hscripts, by simp only [Tx.raw, List.append_assoc], hroom⟩
  · rintro ⟨hscripts, rfl, hroom⟩
    have hlength := hroom
    simp only [Tx.raw, List.length_append] at hlength
    refine ⟨_, ⟨by omega, hscripts, rfl, by omega⟩, _, ⟨by omega, rfl, by omega⟩, ?_, ?_⟩
    · simpa only [Tx.raw, List.append_assoc] using hroom
    · simp only [Tx.raw, List.append_assoc]

/-! ## The canonical form -/

theorem compactSize_of_le {n : Nat} (h : n ≤ 252) : compactSize n = [UInt8.ofNat n] := if_pos h

/-- One byte is enough up to 252, and no length takes less. -/
theorem length_compactSize (n : Nat) :
    1 ≤ (compactSize n).length ∧ ((compactSize n).length = 1 → n ≤ 252) := by
  unfold compactSize
  split
  · next h => exact ⟨Nat.le_refl 1, fun _ => h⟩
  split
  · simp
  split <;> simp

theorem Input.length_raw (i : Input) : i.raw.length ≤ i.txIn.serialize.length ∧
    (i.raw.length = i.txIn.serialize.length → i.index.bytes.length = 4 ∧
      i.sequence.bytes.length = 4 ∧ i.scriptSig.bytes.length ≤ 252) := by
  have hindex := i.index.length_le
  have hsequence := i.sequence.length_le
  obtain ⟨hone, hshort⟩ := length_compactSize i.scriptSig.bytes.length
  simp only [Input.raw, rawVar, TxIn.serialize, Input.txIn, serializeVarslice,
    List.length_append, List.length_cons, List.length_reverse, bytesLe_length]
  exact ⟨by omega, fun heq => ⟨by omega, by omega, hshort (by omega)⟩⟩

theorem Output.length_raw (o : Output) : o.raw.length ≤ o.txOut.serialize.length ∧
    (o.raw.length = o.txOut.serialize.length → o.value.bytes.length = 8) := by
  have hvalue := o.value.length_le
  obtain ⟨hone, -⟩ := length_compactSize o.scriptPubKey.bytes.length
  simp only [Output.raw, rawVar, TxOut.serialize, Output.txOut, serializeVarslice,
    List.length_append, List.length_cons, bytesLe_length]
  exact ⟨by omega, fun heq => by omega⟩

theorem length_serializeList {α β : Type} {f : β → Bytes} {h : α → β} {xs : List α} :
    (serializeList f (xs.map h)).length =
      (compactSize xs.length).length + (xs.flatMap fun x => f (h x)).length := by
  rw [serializeList, List.length_append, List.length_map, List.flatMap_map]

/-- **What is written is never longer than the canonical form**, and only if every field
is full and every script short is it as long. -/
theorem length_raw (tx : Tx) : tx.raw.length ≤ tx.legacyTx.serialize.length ∧
    (tx.raw.length = tx.legacyTx.serialize.length → tx.version.bytes.length = 4 ∧
      (∀ i ∈ tx.ins, i.index.bytes.length = 4 ∧ i.sequence.bytes.length = 4 ∧
        i.scriptSig.bytes.length ≤ 252) ∧
      (∀ o ∈ tx.outs, o.value.bytes.length = 8) ∧ tx.locktime.bytes.length = 4) := by
  have hversion := tx.version.length_le
  have hlocktime := tx.locktime.length_le
  obtain ⟨hinsNumber, -⟩ := length_compactSize tx.ins.length
  obtain ⟨houtsNumber, -⟩ := length_compactSize tx.outs.length
  obtain ⟨hins, hinsEq⟩ := length_flatMap_le tx.ins fun i _ => i.length_raw.1
  obtain ⟨houts, houtsEq⟩ := length_flatMap_le tx.outs fun o _ => o.length_raw.1
  simp only [Tx.raw, rawList, LegacyTx.serialize, Tx.legacyTx, length_serializeList,
    List.length_append, List.length_cons, bytesLe_length]
  refine ⟨by omega, fun heq => ⟨by omega, fun i hi => ?_, fun o ho => ?_, by omega⟩⟩
  · exact i.length_raw.2 (hinsEq (by omega) i hi)
  · exact o.length_raw.2 (houtsEq (by omega) o ho)

/-! ## Full fields and short scripts -/

/-- A full field is the string of its number. -/
theorem bytesLe_of_length {n : Nat} {bs : Bytes} (h : bs.length = n) :
    bytesLe n (buffToUintLe bs) = bs := by
  rw [← h, bytesLe_buffToUintLe]

theorem buffToUintLe_lt_of_length {n : Nat} {bs : Bytes} (h : bs.length = n) :
    buffToUintLe bs < 256 ^ n := h ▸ buffToUintLe_lt bs

theorem serializeVarslice_of_le {s : Bytes} (h : s.length ≤ 252) :
    serializeVarslice s = rawVar s := by
  rw [serializeVarslice, compactSize_of_le h]
  rfl

theorem Input.Full.serialize {i : Input} (h : i.Full) (hscript : i.scriptSig.bytes.length ≤ 252) :
    i.txIn.serialize = i.raw := by
  simp only [TxIn.serialize, Input.txIn, Input.raw, List.reverse_reverse,
    bytesLe_of_length h.index, bytesLe_of_length h.sequence, serializeVarslice_of_le hscript]

theorem Input.Full.fits {i : Input} (h : i.Full) : i.txIn.Fits where
  hash := by simpa [Input.txIn] using h.hash
  index := buffToUintLe_lt_of_length h.index
  script := i.scriptSig.length_le
  sequence := buffToUintLe_lt_of_length h.sequence

theorem Output.serialize_of_full {o : Output} (h : o.value.bytes.length = 8) :
    o.txOut.serialize = o.raw := by
  have hscript : o.scriptPubKey.bytes.length ≤ 252 :=
    Nat.le_trans o.scriptPubKey.length_le (by decide)
  simp only [TxOut.serialize, Output.txOut, Output.raw, bytesLe_of_length h,
    serializeVarslice_of_le hscript]

theorem Output.fits_of_full {o : Output} (h : o.value.bytes.length = 8) : o.txOut.Fits where
  value := buffToUintLe_lt_of_length h
  script := o.scriptPubKey.length_le

theorem serializeList_map {α β : Type} {f : β → Bytes} {g : α → Bytes} {h : α → β} {xs : List α}
    (hlength : xs.length ≤ 8) (heq : ∀ x ∈ xs, f (h x) = g x) :
    serializeList f (xs.map h) = rawList g xs := by
  rw [serializeList, List.length_map, compactSize_of_le (by omega), List.flatMap_map,
    List.flatMap_congr heq]
  rfl

theorem Tx.Full.fits {tx : Tx} (h : tx.Full) : tx.legacyTx.Fits where
  version := buffToUintLe_lt_of_length h.version
  ins_length := by
    have := tx.ins_length_le
    simp only [Tx.legacyTx, List.length_map]
    omega
  ins := by
    simp only [Tx.legacyTx, List.forall_mem_map]
    exact fun i hi => (h.ins i hi).fits
  outs_length := by
    have := tx.outs_length_le
    simp only [Tx.legacyTx, List.length_map]
    omega
  outs := by
    simp only [Tx.legacyTx, List.forall_mem_map]
    exact fun o ho => Output.fits_of_full (h.outs o ho)
  locktime := buffToUintLe_lt_of_length h.locktime

theorem Tx.Full.serialize {tx : Tx} (h : tx.Full)
    (hscripts : ∀ i ∈ tx.ins, i.scriptSig.bytes.length ≤ 252) :
    tx.legacyTx.serialize = tx.raw := by
  simp only [LegacyTx.serialize, Tx.legacyTx, Tx.raw, bytesLe_of_length h.version,
    bytesLe_of_length h.locktime,
    serializeList_map tx.ins_length_le fun i hi => (h.ins i hi).serialize (hscripts i hi),
    serializeList_map tx.outs_length_le fun o ho => Output.serialize_of_full (h.outs o ho)]

/-- **What `concat-tx` writes parses back** exactly if every field is full and no
signature script is longer than 252 bytes. -/
theorem concatTx_parses_iff (tx : Tx) (hroom : tx.legacyTx.serialize.length ≤ 1024) :
    (∃ b, concatTx tx = .ok b ∧ parseTx b = .ok tx.legacyTx) ↔
      tx.Full ∧ ∀ i ∈ tx.ins, i.scriptSig.bytes.length ≤ 252 := by
  constructor
  · rintro ⟨b, hb, hparse⟩
    obtain ⟨-, rfl, hlength⟩ := concatTx_eq_ok_iff.mp hb
    have hencodes := (parseTx_eq_ok_iff (addressable_of_le (by omega))).mp hparse
    -- what parses is no shorter than the canonical form, what is written no longer
    have hshortest := (legacyTx_shortest _ _ hencodes).1
    obtain ⟨hle, hfull⟩ := length_raw tx
    obtain ⟨hversion, hins, houts, hlocktime⟩ := hfull (Nat.le_antisymm hle hshortest)
    refine ⟨⟨hversion, fun i hi => ⟨?_, (hins i hi).1, (hins i hi).2.1⟩, houts, hlocktime⟩,
      fun i hi => (hins i hi).2.2⟩
    have hfits := hencodes.1.ins i.txIn (List.mem_map_of_mem hi)
    simpa [Input.txIn] using hfits.hash
  · rintro ⟨hfull, hscripts⟩
    have hraw := hfull.serialize hscripts
    refine ⟨tx.raw, concatTx_eq_ok_iff.mpr ⟨fun i hi => ?_, rfl, hraw ▸ hroom⟩, ?_⟩
    · exact Nat.lt_of_le_of_lt (hscripts i hi) (by decide)
    · rw [← hraw]
      exact hfull.fits.parse (by omega)

/-! ## Scripts around the limit -/

theorem length_replicate_script {n : Nat} (h : n ≤ 256) :
    (List.replicate n (81 : UInt8)).length ≤ 256 := by
  rwa [List.length_replicate]

/-- An input whose script has `n` bytes. -/
def scripted (n : Nat) (h : n ≤ 256) : Input :=
  ⟨⟨List.replicate 32 9, Nat.le_refl 32⟩, ⟨[7, 0, 0, 0], Nat.le_refl 4⟩,
    ⟨List.replicate n 81, length_replicate_script h⟩, ⟨[255, 255, 255, 255], Nat.le_refl 4⟩⟩

def paying : Output :=
  ⟨⟨[34, 2, 0, 0, 0, 0, 0, 0], Nat.le_refl 8⟩, ⟨[81], Nat.le_add_left 1 127⟩⟩

def scriptedHelperTx (n : Nat) (h : n ≤ 256) : Tx where
  version := ⟨[2, 0, 0, 0], Nat.le_refl 4⟩
  ins := [scripted n h]
  outs := [paying]
  locktime := ⟨[0, 0, 0, 0], Nat.le_refl 4⟩
  ins_length_le := Nat.le_add_left 1 7
  outs_length_le := Nat.le_add_left 1 7

theorem full_scripted (n : Nat) (h : n ≤ 256) : (scriptedHelperTx n h).Full where
  version := rfl
  ins := List.forall_mem_singleton.mpr ⟨rfl, rfl, rfl⟩
  outs := List.forall_mem_singleton.mpr rfl
  locktime := rfl

theorem length_scripted (n : Nat) (h : n ≤ 256) :
    ∀ i ∈ (scriptedHelperTx n h).ins, i.scriptSig.bytes.length ≤ n := by
  simp [scriptedHelperTx, scripted]

theorem le_252 : 252 ≤ 256 := by decide

theorem le_253 : 253 ≤ 256 := by decide

theorem concatTx_parses_iff_252 : (scriptedHelperTx 252 le_252).legacyTx.serialize.length ≤ 1024 ∧
    ∃ b, concatTx (scriptedHelperTx 252 le_252) = .ok b ∧
      parseTx b = .ok (scriptedHelperTx 252 le_252).legacyTx :=
  have hroom : (scriptedHelperTx 252 le_252).legacyTx.serialize.length ≤ 1024 := by decide +kernel
  ⟨hroom, (concatTx_parses_iff _ hroom).mpr
    ⟨full_scripted 252 le_252, length_scripted 252 le_252⟩⟩

/-- With 253 bytes the length is read as a marker, with 256 there is none. -/
theorem not_parses_253 :
    (scriptedHelperTx 253 le_253).legacyTx.serialize.length ≤ 1024 ∧
      concatTx (scriptedHelperTx 253 le_253) = .ok (scriptedHelperTx 253 le_253).raw ∧
      parseTx (scriptedHelperTx 253 le_253).raw ≠ .ok (scriptedHelperTx 253 le_253).legacyTx ∧
      (scriptedHelperTx 256 (Nat.le_refl 256)).legacyTx.serialize.length ≤ 1024 ∧
      concatTx (scriptedHelperTx 256 (Nat.le_refl 256)) = .abort .unwrapFailure := by
  decide +kernel

end TransactionHelper
end BitcoinOracle
