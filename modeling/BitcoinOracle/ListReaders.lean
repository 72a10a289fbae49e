import BitcoinOracle.TransactionReaders

/-! # Readers of lists

The folds over inputs, outputs and witnesses are exact for the encoding of what they
read.  Too many inputs or outputs are an error; a witness that announces more than 62
items (`Overfull`) aborts, the only abort there is in a reader.
-/
namespace BitcoinOracle.ClarityBitcoin
open Clarity Encoding

/-! ## Counted lists -/

/-- The turns of a fold over at most 62 elements. -/
theorem slice_sixtyTwo {n : Nat} (h : n ≤ 62) : slice sixtyTwo 0 n = some (.replicate n true) := by
  rw [slice_eq_some]
  refine ⟨Nat.zero_le n, by rwa [sixtyTwo, List.length_replicate], ?_⟩
  rw [sixtyTwo, List.take_replicate, List.drop_zero, Nat.min_eq_left h]

theorem slice_sixtyTwo_eq_none {n : Nat} (h : 62 < n) : slice sixtyTwo 0 n = none := by
  rw [slice, if_neg]
  rw [sixtyTwo, List.length_replicate]
  omega

/-- A list of at most 62 elements after their number. -/
def EncodesShort {α : Type} (E : α → Bytes → Prop) (xs : List α) (b : Bytes) : Prop :=
  xs.length ≤ 62 ∧ EncodesList E xs b

section CountedList
variable {α σ : Type} {f : Bool → Except Nat σ → Result σ} {M : Nat → List α → Ctx → σ}
  {E : α → Bytes → Prop}

/-- The common end of `read-txins` and `read-txouts`: the bound on the number of
elements, and the fold.  `M count acc` is the accumulator after the elements `acc`. -/
def countedTail (f : Bool → Except Nat σ → Result σ) (M : Nat → List α → Ctx → σ) (code : Nat)
    (parsedNum : Parsed Nat) : Result σ :=
  if 62 < parsedNum.value then
    .err code
  else do
    let turns ← .unwrapPanic (slice sixtyTwo 0 parsedNum.value)
    .fold f turns (.ok (M parsedNum.value [] parsedNum.ctx))

theorem countedTail_eq (code n : Nat) : (fun ctx => countedTail f M code ⟨n, ctx⟩) = fun ctx =>
    if 62 < n then .err code else .fold f (.replicate n true) (.ok (M n [] ctx)) := by
  funext ctx
  unfold countedTail
  dsimp only
  by_cases hn : 62 < n
  · rw [if_pos hn, if_pos hn]
  · rw [if_neg hn, if_neg hn, slice_sixtyTwo (Nat.le_of_not_lt hn)]
    rfl

variable (herr : ∀ x e, ∃ e', f x (.error e) = .err e')
  (hstep : ∀ count ≤ 62, ∀ x acc, acc.length < count →
    Reads (fun a ctx => M count (acc ++ [a]) ctx) E fun ctx => f x (.ok (M count acc ctx)))
include herr hstep

/-- A fold over as many turns as there are elements. -/
theorem turns_reads {n : Nat} (hn : n ≤ 62) :
    Reads (fun as ctx => M as.length as ctx) (fun as b => as.length = n ∧ Seq E as b)
      fun ctx => .fold f (.replicate n true) (.ok (M n [] ctx)) := by
  have hfold := Reads.fold herr (hstep n hn) (.replicate n true) []
    (by rw [List.length_nil, List.length_replicate, Nat.zero_add])
  rw [List.length_replicate] at hfold
  refine hfold.of_mk fun as b ctx has => ?_
  rw [List.nil_append, has.1]

theorem counted_reads (code : Nat) :
    Reads (fun as ctx => M as.length as ctx) (EncodesShort E)
      fun ctx => readVarint ctx >>= countedTail f M code := by
  have htail : ∀ n, Reads (fun as ctx => M as.length as ctx)
      (fun as b => n ≤ 62 ∧ as.length = n ∧ Seq E as b)
      fun ctx => countedTail f M code ⟨n, ctx⟩ := by
    intro n
    rw [countedTail_eq]
    by_cases hn : 62 < n
    · simp only [if_pos hn]
      refine (Reads.err _).of_iff fun as b => ⟨False.elim, ?_⟩
      rintro ⟨hle, -⟩
      omega
    · have hle := Nat.le_of_not_lt hn
      simp only [if_neg hn, hle, true_and]
      exact turns_reads herr hstep hle
  refine (Reads.bind readVarint_reads fun n _ _ => htail n).of_iff fun as b => ⟨?_, ?_⟩
  · rintro ⟨_, p, body, hp, ⟨hle, rfl, hbody⟩, rfl⟩
    exact ⟨hle, p, body, hp, hbody, rfl⟩
  · rintro ⟨hle, p, body, hp, hbody, rfl⟩
    exact ⟨_, p, body, hp, ⟨hle, rfl, hbody⟩, rfl⟩

theorem counted_total (code : Nat)
    (htotal : ∀ count ≤ 62, ∀ x acc, acc.length < count → Total fun ctx => f x (.ok (M count acc ctx))) :
    Total fun ctx => readVarint ctx >>= countedTail f M code := by
  refine Total.bind readVarint_total readVarint_reads fun n _ _ => ?_
  rw [countedTail_eq]
  by_cases hn : 62 < n
  · simp only [if_pos hn]
    exact .err _
  · have hle := Nat.le_of_not_lt hn
    simp only [if_neg hn]
    exact Total.fold herr (hstep n hle) (htotal n hle) _ _
      (by rw [List.length_nil, List.length_replicate, Nat.zero_add])

end CountedList

/-! ## Inputs -/

/-- `read-next-txin` behind the last field it reads. -/
def txinTail (remaining : Nat) (txins : List TxIn) (h : Bytes) (n : Nat) (s : Bytes) (q : Nat)
    (ctx : Ctx) : Result TxInsState := do
  let remaining ← sub remaining 1
  let scriptSig ← .unwrap (asMaxLen s 256) errVarsliceTooLong
  let txins ← .unwrap (asMaxLen (txins ++ [⟨h, n, scriptSig, q⟩]) 62) errTooManyTxins
  pure ⟨ctx, remaining, txins⟩

/-- The accumulator of `read-txins` after the inputs `as` of `count`. -/
def txinsState (count : Nat) (as : List TxIn) (ctx : Ctx) : TxInsState :=
  ⟨ctx, count - as.length, as⟩

theorem readNextTxin_eq {count : Nat} {x : Bool} {as : List TxIn} (hlen : as.length < count) :
    (fun ctx => readNextTxin x (.ok (txinsState count as ctx))) = fun ctx =>
      readHashslice ctx >>= fun hash => readUint32 hash.ctx >>= fun index =>
        readVarslice index.ctx >>= fun script => readUint32 script.ctx >>= fun sequence =>
          txinTail (count - as.length) as hash.value index.value script.value sequence.value
            sequence.ctx := by
  funext ctx
  exact if_pos (Nat.sub_pos_of_lt hlen)

theorem txinTail_eq {count : Nat} {as : List TxIn} {h : Bytes} {n : Nat} {s : Bytes} {q : Nat}
    (hcount : count ≤ 62) (hlen : as.length < count) :
    txinTail (count - as.length) as h n s q = fun ctx =>
      if s.length ≤ 256 then .ok (txinsState count (as ++ [⟨h, n, s, q⟩]) ctx)
      else .err errVarsliceTooLong := by
  have hremaining : sub (count - as.length) 1 = .ok (count - (as.length + 1)) := by
    rw [sub, if_pos (by omega)]
    congr 1
  have hroom : ∀ i : TxIn, (as ++ [i]).length ≤ 62 := fun i => by
    rw [List.length_append, List.length_singleton]
    omega
  funext ctx
  unfold txinTail txinsState
  rw [hremaining, Result.ok_bind]
  by_cases hs : s.length ≤ 256
  · rw [if_pos hs, asMaxLen_of_le hs]
    simp only [Result.unwrap, Result.ok_bind, asMaxLen_of_le (hroom _), List.length_append,
      List.length_singleton, Result.pure_def]
  · rw [if_neg hs, asMaxLen, if_neg hs]
    rfl

section Step
variable (count : Nat) (hcount : count ≤ 62) (x : Bool) (as : List TxIn) (hlen : as.length < count)
include hcount hlen

theorem readNextTxin_reads : Reads (fun i ctx => txinsState count (as ++ [i]) ctx) TxIn.Encodes
    fun ctx => readNextTxin x (.ok (txinsState count as ctx)) := by
  have hbind : Reads (fun i ctx => txinsState count (as ++ [i]) ctx)
      (Then (fun h b => h.length = 32 ∧ b = h.reverse) fun h =>
        Then (fun n b => n < 2 ^ 32 ∧ b = bytesLe 4 n) fun n =>
          Then EncodesVarslice fun s => Then (fun q b => q < 2 ^ 32 ∧ b = bytesLe 4 q) fun q =>
            fun i b => s.length ≤ 256 ∧ i = ⟨h, n, s, q⟩ ∧ b = [])
      fun ctx => readNextTxin x (.ok (txinsState count as ctx)) := by
    rw [readNextTxin_eq hlen]
    refine Reads.bind readHashslice_reads fun h _ _ => ?_
    dsimp only
    refine Reads.bind readUint32_reads fun n _ _ => ?_
    dsimp only
    refine Reads.bind readVarslice_reads fun s _ _ => ?_
    dsimp only
    refine Reads.bind readUint32_reads fun q _ _ => ?_
    show Reads _ _ (txinTail (count - as.length) as h n s q)
    rw [txinTail_eq hcount hlen]
    exact .guarded (⟨h, n, s, q⟩ : TxIn) _
  refine hbind.of_iff fun i b => ⟨?_, ?_⟩
  · rintro ⟨h, _, _, ⟨hh, rfl⟩, ⟨n, _, _, ⟨hn, rfl⟩, ⟨s, script, _, hscript,
      ⟨q, _, _, ⟨hq, rfl⟩, ⟨hs, rfl, rfl⟩, rfl⟩, rfl⟩, rfl⟩, rfl⟩
    exact ⟨⟨hh, hn, hs, hq⟩, script, hscript, by rw [List.append_nil]⟩
  · rintro ⟨hfits, script, hscript, rfl⟩
    exact ⟨_, _, _, ⟨hfits.hash, rfl⟩, ⟨_, _, _, ⟨hfits.index, rfl⟩, ⟨_, _, _, hscript,
      ⟨_, _, _, ⟨hfits.sequence, rfl⟩, ⟨hfits.script, rfl, rfl⟩, rfl⟩, rfl⟩, rfl⟩,
      by rw [List.append_nil]⟩

theorem readNextTxin_total : Total fun ctx => readNextTxin x (.ok (txinsState count as ctx)) := by
  rw [readNextTxin_eq hlen]
  refine Total.bind readHashslice_total readHashslice_reads fun h _ _ => ?_
  dsimp only
  refine Total.bind readUint32_total readUint32_reads fun n _ _ => ?_
  dsimp only
  refine Total.bind readVarslice_total readVarslice_reads fun s _ _ => ?_
  dsimp only
  refine Total.bind readUint32_total readUint32_reads fun q _ _ => ?_
  show Total (txinTail (count - as.length) as h n s q)
  rw [txinTail_eq hcount hlen]
  exact .guarded _ _

end Step

theorem readNextTxin_error (x : Bool) (e : Nat) : ∃ e', readNextTxin x (.error e) = .err e' :=
  ⟨e, rfl⟩

theorem readTxins_reads : Reads (fun ins ctx => ⟨ctx, 0, ins⟩) (EncodesShort TxIn.Encodes)
    readTxins := by
  have h := counted_reads readNextTxin_error readNextTxin_reads errTooManyTxins
  refine h.of_mk fun ins b ctx _ => ?_
  rw [txinsState, Nat.sub_self]

theorem readTxins_total : Total readTxins :=
  counted_total readNextTxin_error readNextTxin_reads errTooManyTxins readNextTxin_total

/-! ## Outputs -/

/-- `read-next-txout` behind the last field it reads. -/
def txoutTail (txouts : List TxOut) (v : Nat) (s : Bytes) (ctx : Ctx) : Result TxOutsState := do
  let scriptPubKey ← .unwrap (asMaxLen s 128) errVarsliceTooLong
  let txouts ← .unwrap (asMaxLen (txouts ++ [⟨v, scriptPubKey⟩]) 62) errTooManyTxouts
  pure ⟨ctx, txouts⟩

/-- The accumulator of `read-txouts` after the outputs `as`. -/
def txoutsState (_count : Nat) (as : List TxOut) (ctx : Ctx) : TxOutsState := ⟨ctx, as⟩

theorem readNextTxout_eq {count : Nat} {x : Bool} {as : List TxOut} :
    (fun ctx => readNextTxout x (.ok (txoutsState count as ctx))) = fun ctx =>
      readUint64 ctx >>= fun value => readVarslice value.ctx >>= fun script =>
        txoutTail as value.value script.value script.ctx := rfl

theorem txoutTail_eq {count : Nat} {as : List TxOut} {v : Nat} {s : Bytes} (hlen : as.length < 62) :
    txoutTail as v s = fun ctx =>
      if s.length ≤ 128 then .ok (txoutsState count (as ++ [⟨v, s⟩]) ctx)
      else .err errVarsliceTooLong := by
  have hroom : ∀ o : TxOut, (as ++ [o]).length ≤ 62 := fun o => by
    rw [List.length_append, List.length_singleton]
    omega
  funext ctx
  unfold txoutTail txoutsState
  by_cases hs : s.length ≤ 128
  · rw [if_pos hs, asMaxLen_of_le hs]
    simp only [Result.unwrap, Result.ok_bind, asMaxLen_of_le (hroom _), Result.pure_def]
  · rw [if_neg hs, asMaxLen, if_neg hs]
    rfl

section Step
variable (count : Nat) (hcount : count ≤ 62) (x : Bool) (as : List TxOut) (hlen : as.length < count)
include hcount hlen

theorem readNextTxout_reads : Reads (fun o ctx => txoutsState count (as ++ [o]) ctx) TxOut.Encodes
    fun ctx => readNextTxout x (.ok (txoutsState count as ctx)) := by
  have hbind : Reads (fun o ctx => txoutsState count (as ++ [o]) ctx)
      (Then (fun v b => v < 2 ^ 64 ∧ b = bytesLe 8 v) fun v => Then EncodesVarslice fun s o b =>
        s.length ≤ 128 ∧ o = ⟨v, s⟩ ∧ b = [])
      fun ctx => readNextTxout x (.ok (txoutsState count as ctx)) := by
    rw [readNextTxout_eq]
    refine Reads.bind readUint64_reads fun v _ _ => ?_
    dsimp only
    refine Reads.bind readVarslice_reads fun s _ _ => ?_
    show Reads _ _ (txoutTail as v s)
    rw [txoutTail_eq (Nat.lt_of_lt_of_le hlen hcount)]
    exact .guarded (⟨v, s⟩ : TxOut) _
  refine hbind.of_iff fun o b => ⟨?_, ?_⟩
  · rintro ⟨v, _, _, ⟨hv, rfl⟩, ⟨s, script, _, hscript, ⟨hs, rfl, rfl⟩, rfl⟩, rfl⟩
    exact ⟨⟨hv, hs⟩, script, hscript, by rw [List.append_nil]⟩
  · rintro ⟨hfits, script, hscript, rfl⟩
    exact ⟨_, _, _, ⟨hfits.value, rfl⟩, ⟨_, _, _, hscript, ⟨hfits.script, rfl, rfl⟩, rfl⟩,
      by rw [List.append_nil]⟩

theorem readNextTxout_total : Total fun ctx => readNextTxout x (.ok (txoutsState count as ctx)) := by
  rw [readNextTxout_eq]
  refine Total.bind readUint64_total readUint64_reads fun v _ _ => ?_
  dsimp only
  refine Total.bind readVarslice_total readVarslice_reads fun s _ _ => ?_
  show Total (txoutTail as v s)
  rw [@txoutTail_eq count _ _ _ (Nat.lt_of_lt_of_le hlen hcount)]
  exact .guarded _ _

end Step

theorem readNextTxout_error (x : Bool) (e : Nat) : ∃ e', readNextTxout x (.error e) = .err e' :=
  ⟨e, rfl⟩

theorem readTxouts_reads : Reads (fun outs ctx => ⟨ctx, outs⟩) (EncodesShort TxOut.Encodes)
    readTxouts :=
  counted_reads readNextTxout_error readNextTxout_reads errTooManyTxouts

theorem readTxouts_total : Total readTxouts :=
  counted_total readNextTxout_error readNextTxout_reads errTooManyTxouts readNextTxout_total

/-! ## Witnesses -/

/-- A length that announces more than 62 items. -/
def Overfull (b : Bytes) : Prop := ∃ n, 62 < n ∧ CompactSize n b

/-- `read-next-element` behind the string it reads. -/
def elementTail (elements : List Bytes) (s : Bytes) (ctx : Ctx) : Result ElementsState := do
  let element ← .unwrap (asMaxLen s 256) errVarsliceTooLong
  let elements ← .unwrap (asMaxLen (elements ++ [element]) 62) errTooManyTxouts
  pure ⟨ctx, elements⟩

/-- The accumulator of a witness after the items `as`. -/
def elementsState (_count : Nat) (as : List Bytes) (ctx : Ctx) : ElementsState := ⟨ctx, as⟩

theorem readNextElement_eq {count : Nat} {x : Bool} {as : List Bytes} :
    (fun ctx => readNextElement x (.ok (elementsState count as ctx))) = fun ctx =>
      readVarslice ctx >>= fun script => elementTail as script.value script.ctx := rfl

theorem elementTail_eq {count : Nat} {as : List Bytes} {s : Bytes} (hlen : as.length < 62) :
    elementTail as s = fun ctx =>
      if s.length ≤ 256 then .ok (elementsState count (as ++ [s]) ctx)
      else .err errVarsliceTooLong := by
  have hroom : (as ++ [s]).length ≤ 62 := by
    rw [List.length_append, List.length_singleton]
    omega
  funext ctx
  unfold elementTail elementsState
  by_cases hs : s.length ≤ 256
  · rw [if_pos hs, asMaxLen_of_le hs]
    simp only [Result.unwrap, Result.ok_bind, asMaxLen_of_le hroom, Result.pure_def]
  · rw [if_neg hs, asMaxLen, if_neg hs]
    rfl

section Step
variable (count : Nat) (hcount : count ≤ 62) (x : Bool) (as : List Bytes) (hlen : as.length < count)
include hcount hlen

theorem readNextElement_reads : Reads (fun s ctx => elementsState count (as ++ [s]) ctx) EncodesItem
    fun ctx => readNextElement x (.ok (elementsState count as ctx)) := by
  have hbind : Reads (fun s ctx => elementsState count (as ++ [s]) ctx)
      (Then EncodesVarslice fun s item b => s.length ≤ 256 ∧ item = s ∧ b = [])
      fun ctx => readNextElement x (.ok (elementsState count as ctx)) := by
    rw [readNextElement_eq]
    refine Reads.bind readVarslice_reads fun s _ _ => ?_
    show Reads _ _ (elementTail as s)
    rw [elementTail_eq (Nat.lt_of_lt_of_le hlen hcount)]
    exact .guarded s _
  refine hbind.of_iff fun item b => ⟨?_, ?_⟩
  · rintro ⟨s, script, _, hscript, ⟨hs, rfl, rfl⟩, rfl⟩
    exact ⟨hs, by rwa [List.append_nil]⟩
  · rintro ⟨hs, hscript⟩
    exact ⟨_, _, _, hscript, ⟨hs, rfl, rfl⟩, (List.append_nil b).symm⟩

theorem readNextElement_total :
    Total fun ctx => readNextElement x (.ok (elementsState count as ctx)) := by
  rw [readNextElement_eq]
  refine Total.bind readVarslice_total readVarslice_reads fun s _ _ => ?_
  show Total (elementTail as s)
  rw [@elementTail_eq count _ _ (Nat.lt_of_lt_of_le hlen hcount)]
  exact .guarded _ _

end Step

theorem readNextElement_error (x : Bool) (e : Nat) : ∃ e', readNextElement x (.error e) = .err e' :=
  ⟨e, rfl⟩

/-- `read-next-witness` behind the number of items. -/
def witnessTail (witnesses : List (List Bytes)) (parsedNumItems : Parsed Nat) :
    Result WitnessesState :=
  if 0 < parsedNumItems.value then do
    let turns ← .unwrapPanic (slice sixtyTwo 0 parsedNumItems.value)
    let parsedElements ← .fold readNextElement turns (.ok ⟨parsedNumItems.ctx, []⟩)
    let witnesses ← .unwrapPanic (asMaxLen (witnesses ++ [parsedElements.elements]) 62)
    pure ⟨parsedElements.ctx, witnesses⟩
  else do
    let witnesses ← .unwrapPanic (asMaxLen (witnesses ++ [[]]) 62)
    pure ⟨parsedNumItems.ctx, witnesses⟩

/-- The accumulator of `read-witnesses` after the witnesses `ws`. -/
def witnessesState (ws : List (List Bytes)) (ctx : Ctx) : WitnessesState := ⟨ctx, ws⟩

theorem readNextWitness_eq {x : Bool} {ws : List (List Bytes)} :
    (fun ctx => readNextWitness x (.ok (witnessesState ws ctx))) = fun ctx =>
      readVarint ctx >>= witnessTail ws := rfl

/-- No witness, or one without items, is read by a fold without turns. -/
theorem witnessTail_eq {ws : List (List Bytes)} {n : Nat} (hlen : ws.length < 62) :
    (fun ctx => witnessTail ws ⟨n, ctx⟩) = fun ctx =>
      if 62 < n then .abort .unwrapFailure
      else .fold readNextElement (.replicate n true) (.ok (elementsState n [] ctx)) >>= fun state =>
        .ok (witnessesState (ws ++ [state.elements]) state.ctx) := by
  have hroom : ∀ w : List Bytes, (ws ++ [w]).length ≤ 62 := fun w => by
    rw [List.length_append, List.length_singleton]
    omega
  funext ctx
  unfold witnessTail
  dsimp only
  simp only [asMaxLen_of_le (hroom _), Result.unwrapPanic_some, Result.ok_bind, Result.pure_def]
  by_cases hn : 62 < n
  · rw [if_pos hn, if_pos (by omega), slice_sixtyTwo_eq_none hn]
    rfl
  · rw [if_neg hn, slice_sixtyTwo (Nat.le_of_not_lt hn)]
    by_cases hpos : 0 < n
    · rw [if_pos hpos]
      rfl
    · rw [if_neg hpos, Nat.eq_zero_of_not_pos hpos]
      rfl

section Step
variable (x : Bool) (ws : List (List Bytes)) (hlen : ws.length < 62)
include hlen

theorem readNextWitness_reads : Reads (fun w ctx => witnessesState (ws ++ [w]) ctx) EncodesWitness
    fun ctx => readNextWitness x (.ok (witnessesState ws ctx)) := by
  have htail : ∀ n, Reads (fun w ctx => witnessesState (ws ++ [w]) ctx)
      (fun w b => n ≤ 62 ∧ w.length = n ∧ Seq EncodesItem w b)
      fun ctx => witnessTail ws ⟨n, ctx⟩ := by
    intro n
    rw [witnessTail_eq hlen]
    by_cases hn : 62 < n
    · simp only [if_pos hn]
      refine (Reads.abort _).of_iff fun w b => ⟨False.elim, ?_⟩
      rintro ⟨hle, -⟩
      omega
    · have hle := Nat.le_of_not_lt hn
      simp only [if_neg hn, hle, true_and]
      exact (turns_reads readNextElement_error readNextElement_reads hle).answer
        fun _ _ _ _ => rfl
  rw [readNextWitness_eq]
  refine (Reads.bind readVarint_reads fun n _ _ => htail n).of_iff fun w b => ⟨?_, ?_⟩
  · rintro ⟨_, p, body, hp, ⟨hle, rfl, hbody⟩, rfl⟩
    exact ⟨hle, p, body, hp, hbody, rfl⟩
  · rintro ⟨hle, p, body, hp, hbody, rfl⟩
    exact ⟨_, p, body, hp, ⟨hle, rfl, hbody⟩, rfl⟩

theorem readNextWitness_aborts :
    AbortsOn Overfull fun ctx => readNextWitness x (.ok (witnessesState ws ctx)) := by
  have htail : ∀ n, AbortsOn (fun b => 62 < n ∧ b = []) fun ctx => witnessTail ws ⟨n, ctx⟩ := by
    intro n
    rw [witnessTail_eq hlen]
    by_cases hn : 62 < n
    · simp only [hn, true_and]
      exact .abort _
    · have hle := Nat.le_of_not_lt hn
      simp only [hn, false_and]
      refine Total.bind (Total.fold readNextElement_error (readNextElement_reads n hle)
        (readNextElement_total n hle) (.replicate n true) []
        (by rw [List.length_nil, List.length_replicate, Nat.zero_add]))
        (turns_reads readNextElement_error readNextElement_reads hle) fun w _ _ => ?_
      exact .ret _
  rw [readNextWitness_eq]
  refine (AbortsOn.after readVarint_total readVarint_reads fun n _ _ => htail n).of_iff
    fun b => ⟨?_, ?_⟩
  · rintro ⟨n, p, _, hp, ⟨hn, rfl⟩, rfl⟩
    exact ⟨n, hn, by rwa [List.append_nil]⟩
  · rintro ⟨n, hn, hp⟩
    exact ⟨n, b, [], hp, ⟨hn, rfl⟩, (List.append_nil b).symm⟩

end Step

theorem readNextWitness_error (x : Bool) (e : Nat) : ∃ e', readNextWitness x (.error e) = .err e' :=
  ⟨1, rfl⟩

section Witnesses
variable {n : Nat} (hn : n ≤ 62)
include hn

theorem readWitnesses_eq : (fun ctx => readWitnesses ctx n) = fun ctx =>
    .fold readNextWitness (.replicate n true) (.ok (witnessesState [] ctx)) := by
  funext ctx
  unfold readWitnesses
  rw [slice_sixtyTwo hn]
  rfl

theorem readWitnesses_reads : Reads witnessesState
    (fun ws b => ws.length = n ∧ Seq EncodesWitness ws b) fun ctx => readWitnesses ctx n := by
  rw [readWitnesses_eq hn]
  have hfold := Reads.fold readNextWitness_error readNextWitness_reads (.replicate n true) []
    (by rw [List.length_nil, List.length_replicate]; omega)
  rwa [List.length_replicate] at hfold

/-- It aborts at an overfull witness behind fewer complete ones than there are inputs. -/
theorem readWitnesses_aborts : AbortsOn (fun b => ∃ ws b₁ b₂, ws.length < n ∧
    Seq EncodesWitness ws b₁ ∧ Overfull b₂ ∧ b = b₁ ++ b₂) fun ctx => readWitnesses ctx n := by
  rw [readWitnesses_eq hn]
  have hfold := AbortsOn.fold readNextWitness_error readNextWitness_reads readNextWitness_aborts
    (.replicate n true) [] (by rw [List.length_nil, List.length_replicate]; omega)
  rwa [List.length_replicate] at hfold

end Witnesses

end BitcoinOracle.ClarityBitcoin
