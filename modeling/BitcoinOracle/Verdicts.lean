import BitcoinOracle.Majority
import BitcoinOracle.NoEventLost

/-! # What a pass makes of each pending event

A pass assesses the selected events one by one, in whatever order the node answers, and
collects what it finds in three lists.  An event leaves its mark in them once: what the
lists hold about it is what its own assessment found.

Proofs agree when some hash has the minimal count.  Otherwise the event waits, until
there are as many proofs as the maximum.  That is checked with an equality, so that an
event whose proofs have become more than that in the meantime waits for ever.

Nothing awaits the tasks of a pass.  An exception in one of them ends the process, and no
event of the pass is recorded.
-/
namespace BitcoinOracle
open Clarity KeyedTable Indexer

namespace Relayer

/-! ## The lists of a pass -/

section Lists

/-- What is found about one event. -/
def Found.about (found : Found) (e : Event) : Found where
  indexedTxs := found.indexedTxs.filter fun e' => e' = e
  txErrors := found.txErrors.filter fun p => p.1 = e
  txManyInputs := found.txManyInputs.filter fun i => TxManyInput.event i = e

theorem about_empty (e : Event) : Found.empty.about e = .empty := rfl

section Add
variable {found found' : Found} {e e' : Event} {o : Outcome}

theorem add_eq_none_iff (found : Found) (e : Event) : found.add e o = none ↔ o = .throws := by
  cases o <;> simp [Found.add]

/-- An outcome leaves its mark on its own event. -/
theorem about_add_self (hinput : ∀ i, o = .input i → TxManyInput.event i = e)
    (hadd : found.add e o = some found') : (found.about e).add e o = some (found'.about e) := by
  cases o with
  | alreadyIndexed | waits | error text =>
      cases hadd
      simp [Found.add, Found.about]
  | input i =>
      cases hadd
      simp [Found.add, Found.about, hinput i rfl]
  | throws => cases hadd

/-- And on no other. -/
theorem about_add_of_ne (hinput : ∀ i, o = .input i → TxManyInput.event i = e) (hne : e ≠ e')
    (hadd : found.add e o = some found') : found'.about e' = found.about e' := by
  cases o with
  | alreadyIndexed | waits | error text =>
      cases hadd
      simp [Found.about, hne]
  | input i =>
      cases hadd
      simp [Found.about, hinput i rfl, hne]
  | throws => cases hadd

end Add

variable (P : Primitives) (c : Config)

/-- One assessment, on the chain of its moment. -/
def assessInto (found : Found) (t : PendingTx × World) : Option Found :=
  found.add t.1.row.event (assess P c t.2 t.1)

/-- The assessments of a pass, in the order in which they end; an exception ends them. -/
def assessAll (order : List (PendingTx × World)) : Option Found :=
  order.foldlM (assessInto P c) .empty

/-- What a pass records: nothing, if an exception has ended the process. -/
def recorded (order : List (PendingTx × World)) : Found := (assessAll P c order).getD .empty

theorem foldlM_assessInto_eq_none_iff {order : List (PendingTx × World)} (found : Found) :
    order.foldlM (assessInto P c) found = none ↔
      ∃ t ∈ order, assess P c t.2 t.1 = .throws := by
  induction order generalizing found with
  | nil => exact iff_of_false nofun (by simp)
  | cons t order ih =>
      rw [List.foldlM_cons, List.exists_mem_cons_iff, ← add_eq_none_iff found t.1.row.event]
      cases hadd : found.add t.1.row.event (assess P c t.2 t.1) with
      | none => exact iff_of_true (by rw [assessInto, hadd]; rfl) (Or.inl rfl)
      | some found' =>
          rw [assessInto, hadd]
          exact (ih found').trans (or_iff_right nofun).symm

theorem about_foldlM {order : List (PendingTx × World)} {e : Event}
    (h : ∀ t ∈ order, t.1.row.event ≠ e) {found found' : Found}
    (hfold : order.foldlM (assessInto P c) found = some found') :
    found'.about e = found.about e := by
  induction order generalizing found with
  | nil =>
      cases hfold
      rfl
  | cons t order ih =>
      obtain ⟨ht, horder⟩ := List.forall_mem_cons.mp h
      rw [List.foldlM_cons] at hfold
      obtain ⟨found₁, hadd, hrest⟩ := Option.bind_eq_some_iff.mp hfold
      exact (ih horder hrest).trans (about_add_of_ne (fun _ hi => event_of_assess hi) ht hadd)

/-- **What a pass holds about an event is what its own assessment found.** -/
theorem about_assessAll {order : List (PendingTx × World)}
    (hnodup : (order.map fun t => t.1.row.event).Nodup) {t : PendingTx × World} (ht : t ∈ order)
    {found : Found} (hall : assessAll P c order = some found) :
    Found.empty.add t.1.row.event (assess P c t.2 t.1) =
      some (found.about t.1.row.event) := by
  obtain ⟨before, after, rfl⟩ := List.append_of_mem ht
  rw [List.map_append, List.map_cons, List.nodup_append, List.nodup_cons] at hnodup
  obtain ⟨-, ⟨hafter, -⟩, hbefore⟩ := hnodup
  have hother : ∀ t' ∈ after, t'.1.row.event ≠ t.1.row.event := fun t' ht' heq =>
    hafter (List.mem_map.mpr ⟨t', ht', heq⟩)
  have hearlier : ∀ t' ∈ before, t'.1.row.event ≠ t.1.row.event := fun t' ht' =>
    hbefore _ (List.mem_map_of_mem ht') _ List.mem_cons_self
  rw [assessAll, List.foldlM_append] at hall
  obtain ⟨found₁, hfirst, hall⟩ := Option.bind_eq_some_iff.mp hall
  rw [List.foldlM_cons] at hall
  obtain ⟨found₂, hadd, hlast⟩ := Option.bind_eq_some_iff.mp hall
  have hown := about_add_self (fun _ hi => event_of_assess hi) hadd
  rw [about_foldlM P c hearlier hfirst, about_empty] at hown
  rw [hown, about_foldlM P c hother hlast]

/-- The pending events, each assessed once. -/
structure IsPass (db : Database) (order : List (PendingTx × World)) : Prop where
  unique : Unique (TxRow.id P) db.txs
  perm : (order.map Prod.fst).Perm (getPendingSubmitTx P c db)

variable {P c} {db : Database} {order : List (PendingTx × World)}

theorem nodup_getPendingSubmitTx (h : Unique (TxRow.id P) db.txs) :
    ((getPendingSubmitTx P c db).map fun tx => tx.row.event).Nodup := by
  have hevents : (db.txs.map TxRow.event).Nodup := by
    have hids : ((db.txs.map TxRow.event).map (computeTxsId P)).Nodup := by
      rw [List.map_map]
      exact h
    exact hids.of_map _
  rw [getPendingSubmitTx, List.map_map]
  refine List.Nodup.sublist (List.filter_sublist.map _) ?_
  refine (((List.perm_insertionSort _ _).map TxRow.event).nodup_iff).mpr ?_
  exact hevents.sublist (List.filter_sublist.map _)

theorem IsPass.nodup (h : IsPass P c db order) :
    (order.map fun t => t.1.row.event).Nodup := by
  have hperm := h.perm.map fun tx : PendingTx => tx.row.event
  rw [List.map_map] at hperm
  exact hperm.nodup_iff.mpr (nodup_getPendingSubmitTx h.unique)

theorem IsPass.mem (h : IsPass P c db order) {t : PendingTx × World} (ht : t ∈ order) :
    t.1 ∈ getPendingSubmitTx P c db :=
  h.perm.mem_iff.mp (List.mem_map_of_mem ht)

end Lists

/-! ## The verdict -/

/-- Some order hash has the minimal number of proofs. -/
def Agreed (c : Config) (tx : PendingTx) : Prop :=
  ∃ hash, c.minimalAgreementCount ≤ occurrences tx.proofs hash

/-- What is found about an event is what its proofs call for: it is submitted or its hash
is reported, it waits, or it is marked with an error. -/
structure VerdictRight (c : Config) (tx : PendingTx) (about : Found) : Prop where
  agreed : Agreed c tx →
    (∃ i, TxManyInput.event i = tx.row.event ∧ about = ⟨[], [], [i]⟩) ∨
      ∃ text, about =
        ⟨[], [(tx.row.event, "!server_order_hash-mismatch: server: ".toList ++ text)], []⟩
  waits : ¬ Agreed c tx → tx.proofs.length < c.maximumAgreementCount → about = .empty
  disagreed : ¬ Agreed c tx → c.maximumAgreementCount ≤ tx.proofs.length →
    ∃ text, about = ⟨[], [(tx.row.event, text)], []⟩

/-- There is no agreement, and there may be more proofs. -/
def Waiting (c : Config) (tx : PendingTx) : Prop :=
  ¬ Agreed c tx ∧ tx.proofs.length < c.maximumAgreementCount

/-- The proofs have not outnumbered the maximum without an agreement. -/
def Settles (c : Config) (tx : PendingTx) : Prop :=
  ¬ Agreed c tx → tx.proofs.length ≤ c.maximumAgreementCount

/-- A call of the assessment has no argument: the key of the event for the registry, or what
the selected proofs say for `hash-tx`. -/
def Raises (c : Config) (w : World) (tx : PendingTx) : Prop :=
  isIndexedTx w tx.row.event = none ∨
    isIndexedTx w tx.row.event = some false ∧ ∃ firstProof rest,
      getMajorityProofs tx.proofs c.minimalAgreementCount = some (firstProof :: rest) ∧
        (txArgument tx.row firstProof).encode = none

section Verdict
variable {P : Primitives} {c : Config} {w : World} {tx : PendingTx}

theorem not_agreed_iff (hmin : 1 ≤ c.minimalAgreementCount) :
    ¬ Agreed c tx ↔ getMajorityProofs tx.proofs c.minimalAgreementCount = none := by
  rw [getMajorityProofs_eq_none_iff hmin, Agreed, not_exists]
  exact forall_congr' fun _ => Nat.not_le

theorem exists_majority (hmin : 1 ≤ c.minimalAgreementCount) (hagreed : Agreed c tx) :
    ∃ firstProof rest,
      getMajorityProofs tx.proofs c.minimalAgreementCount = some (firstProof :: rest) := by
  cases hmajority : getMajorityProofs tx.proofs c.minimalAgreementCount with
  | none => exact absurd hagreed ((not_agreed_iff hmin).mpr hmajority)
  | some majority =>
      obtain ⟨-, -, hne, -, -⟩ := getMajorityProofs_eq_some hmajority
      obtain ⟨firstProof, rest, rfl⟩ := List.exists_cons_of_ne_nil hne
      exact ⟨firstProof, rest, rfl⟩

/-- An event that is not indexed is decided on by its proofs. -/
theorem assess_of_agreed (hlen : tx.row.event.txHash.length ≤ kTxMaxLength)
    (hnew : isIndexedTx w tx.row.event = some false) {firstProof : ProofRow} {rest : List ProofRow}
    (hmajority : getMajorityProofs tx.proofs c.minimalAgreementCount = some (firstProof :: rest)) :
    assess P c w tx = checkServerOrderHash P tx.row firstProof (firstProof :: rest) := by
  rw [assess, if_neg (Nat.not_lt.mpr hlen), hnew]
  dsimp only
  rw [hmajority]

theorem assess_of_not_agreed (hlen : tx.row.event.txHash.length ≤ kTxMaxLength)
    (hnew : isIndexedTx w tx.row.event = some false)
    (hnone : getMajorityProofs tx.proofs c.minimalAgreementCount = none)
    (hmax : 1 ≤ c.maximumAgreementCount) :
    if tx.proofs.length = c.maximumAgreementCount then ∃ text, assess P c w tx = .error text
    else assess P c w tx = .waits := by
  rw [assess, if_neg (Nat.not_lt.mpr hlen), hnew]
  dsimp only
  rw [hnone]
  by_cases hlength : tx.proofs.length = c.maximumAgreementCount
  · rw [if_pos hlength]
    dsimp only
    rw [if_neg (not_not.mpr hlength)]
    cases hproofs : tx.proofs with
    | nil =>
        rw [hproofs, List.length_nil] at hlength
        omega
    | cons firstProof rest => exact ⟨_, rfl⟩
  · rw [if_neg hlength]
    dsimp only
    rw [if_pos hlength]

/-- The check of the hash ends with an input, with an error about the hash, or with an
exception when there is no argument to ask with. -/
theorem checkServerOrderHash_cases (row : TxRow) (firstProof : ProofRow)
    (majority : List ProofRow) :
    (txArgument row firstProof).encode = none ∧
        checkServerOrderHash P row firstProof majority = .throws ∨
      (txArgument row firstProof).encode ≠ none ∧
        (checkServerOrderHash P row firstProof majority = .input (txManyInput row firstProof majority) ∨
          ∃ text, checkServerOrderHash P row firstProof majority =
            .error ("!server_order_hash-mismatch: server: ".toList ++ text)) := by
  unfold checkServerOrderHash
  cases hencode : (txArgument row firstProof).encode with
  | none => exact Or.inl ⟨rfl, rfl⟩
  | some tx =>
      refine Or.inr ⟨Option.some_ne_none tx, ?_⟩
      dsimp only
      by_cases hhash : (Oracle.hashTx P tx).bytes = firstProof.orderHash
      · rw [if_neg (not_not.mpr hhash)]
        exact Or.inl rfl
      · rw [if_pos hhash, List.append_assoc, List.append_assoc]
        exact Or.inr ⟨_, rfl⟩

/-- **When an assessment throws.** -/
theorem assess_eq_throws_iff (hlen : tx.row.event.txHash.length ≤ kTxMaxLength) :
    assess P c w tx = .throws ↔ Raises c w tx := by
  unfold Raises
  cases hindexed : isIndexedTx w tx.row.event with
  | none =>
      rw [assess, if_neg (Nat.not_lt.mpr hlen), hindexed]
      exact iff_of_true rfl (Or.inl rfl)
  | some b =>
      cases b with
      | true =>
          rw [assess, if_neg (Nat.not_lt.mpr hlen), hindexed]
          exact iff_of_false nofun (by simp)
      | false =>
          cases hmajority : getMajorityProofs tx.proofs c.minimalAgreementCount with
          | none =>
              rw [assess, if_neg (Nat.not_lt.mpr hlen), hindexed]
              dsimp only
              rw [hmajority]
              refine iff_of_false (fun hthrows => ?_) (by simp)
              dsimp only at hthrows
              split at hthrows
              · cases hthrows
              · split at hthrows
                · cases hthrows
                · cases hthrows
          | some majority =>
              obtain ⟨-, -, hne, -, -⟩ := getMajorityProofs_eq_some hmajority
              obtain ⟨firstProof, rest, rfl⟩ := List.exists_cons_of_ne_nil hne
              rw [assess_of_agreed hlen hindexed hmajority]
              rcases checkServerOrderHash_cases (P := P) tx.row firstProof (firstProof :: rest) with
                ⟨hnone, hthrows⟩ | ⟨hsome, hinput | ⟨text, herror⟩⟩
              · exact iff_of_true hthrows (Or.inr ⟨rfl, firstProof, rest, rfl, hnone⟩)
              · rw [hinput]
                exact iff_of_false nofun (by simp [hsome])
              · rw [herror]
                exact iff_of_false nofun (by simp [hsome])

/-- **When what an assessment has found is right.** -/
theorem verdictRight_add_iff (hmin : 1 ≤ c.minimalAgreementCount)
    (hmax : c.minimalAgreementCount ≤ c.maximumAgreementCount)
    (hlen : tx.row.event.txHash.length ≤ kTxMaxLength)
    (hnew : isIndexedTx w tx.row.event = some false) {about : Found}
    (hadd : Found.empty.add tx.row.event (assess P c w tx) = some about) :
    VerdictRight c tx about ↔ Settles c tx := by
  by_cases hagreed : Agreed c tx
  · obtain ⟨firstProof, rest, hmajority⟩ := exists_majority hmin hagreed
    rw [assess_of_agreed hlen hnew hmajority] at hadd
    refine iff_of_true ⟨fun _ => ?_, fun h => absurd hagreed h, fun h => absurd hagreed h⟩
      fun h => absurd hagreed h
    rcases checkServerOrderHash_cases (P := P) tx.row firstProof (firstProof :: rest) with
      ⟨-, hthrows⟩ | ⟨-, hinput | ⟨text, herror⟩⟩
    · rw [hthrows] at hadd
      cases hadd
    · rw [hinput] at hadd
      cases hadd
      exact Or.inl ⟨_, rfl, rfl⟩
    · rw [herror] at hadd
      cases hadd
      exact Or.inr ⟨text, rfl⟩
  · have hnone := (not_agreed_iff hmin).mp hagreed
    have hassess := assess_of_not_agreed (P := P) hlen hnew hnone (hmin.trans hmax)
    by_cases hlength : tx.proofs.length = c.maximumAgreementCount
    · rw [if_pos hlength] at hassess
      obtain ⟨text, htext⟩ := hassess
      rw [htext] at hadd
      cases hadd
      exact iff_of_true ⟨fun h => absurd h hagreed, fun _ hfew => absurd hlength (Nat.ne_of_lt hfew),
        fun _ _ => ⟨text, rfl⟩⟩ fun _ => Nat.le_of_eq hlength
    · rw [if_neg hlength] at hassess
      rw [hassess] at hadd
      cases hadd
      constructor
      · -- nothing is found, so there are too few proofs
        intro h _
        by_contra hmany
        obtain ⟨text, htext⟩ := h.disagreed hagreed (Nat.le_of_not_le hmany)
        cases htext
      · intro hsettles
        exact ⟨fun h => absurd h hagreed, fun _ _ => rfl,
          fun _ hge => absurd (Nat.le_antisymm (hsettles hagreed) hge) hlength⟩

/-- To find nothing is right for an event that is to wait. -/
theorem verdictRight_empty_iff : VerdictRight c tx .empty ↔ Waiting c tx := by
  constructor
  · intro h
    have hagreed : ¬ Agreed c tx := by
      intro hagreed
      rcases h.agreed hagreed with ⟨_, -, hinput⟩ | ⟨_, herror⟩
      · cases hinput
      · cases herror
    refine ⟨hagreed, Nat.lt_of_not_le fun hmany => ?_⟩
    obtain ⟨text, htext⟩ := h.disagreed hagreed hmany
    cases htext
  · rintro ⟨hagreed, hfew⟩
    exact ⟨fun h => absurd h hagreed, fun _ _ => rfl, fun _ hmany => by omega⟩

/-- **When a pass gets an event right**, in whatever order and on whatever chain the events
are assessed.  An exception about any of them loses what was found about the others. -/
theorem verdict_right_iff (hmin : 1 ≤ c.minimalAgreementCount)
    (hmax : c.minimalAgreementCount ≤ c.maximumAgreementCount) {db : Database}
    {order : List (PendingTx × World)} (hpass : IsPass P c db order) (ht : (tx, w) ∈ order)
    (hnew : isIndexedTx w tx.row.event = some false) :
    VerdictRight c tx ((recorded P c order).about tx.row.event) ↔
      Waiting c tx ∨ Settles c tx ∧ ∀ t ∈ order, ¬ Raises c t.2 t.1 := by
  have hlen : ∀ t ∈ order, t.1.row.event.txHash.length ≤ kTxMaxLength := fun t ht =>
    (mem_getPendingSubmitTx.mp (hpass.mem ht)).2.2.1.2.1
  have hraises : ∀ t ∈ order, (assess P c t.2 t.1 = .throws ↔ Raises c t.2 t.1) := fun t ht =>
    assess_eq_throws_iff (hlen t ht)
  unfold recorded
  cases hall : assessAll P c order with
  | none =>
      obtain ⟨t, ht, hthrows⟩ := (foldlM_assessInto_eq_none_iff P c .empty).mp hall
      rw [Option.getD_none, about_empty, verdictRight_empty_iff]
      exact (or_iff_left fun h => h.2 t ht ((hraises t ht).mp hthrows)).symm
  | some found =>
      rw [Option.getD_some,
        verdictRight_add_iff hmin hmax (hlen _ ht) hnew (about_assessAll P c hpass.nodup ht hall)]
      have hcalm : ∀ t ∈ order, ¬ Raises c t.2 t.1 := by
        intro t ht hraise
        have hnone := (foldlM_assessInto_eq_none_iff P c .empty).mpr
          ⟨t, ht, (hraises t ht).mpr hraise⟩
        cases hall.symm.trans hnone
      constructor
      · exact fun hsettles => Or.inr ⟨hsettles, hcalm⟩
      · rintro (⟨-, hfew⟩ | ⟨hsettles, -⟩)
        · exact fun _ => Nat.le_of_lt hfew
        · exact hsettles

end Verdict

/-! ## The passes of a run -/

namespace Relaying
variable {ι : Type} {P : Primitives}

/-- How one action changes the round of a relayer. -/
inductive RoundStep (P : Primitives) (s : Relaying ι) (j : ι) : Round → Prop
  | same : RoundStep P s j (s.round j)
  | idle : RoundStep P s j .idle
  | processing (session : Session) : RoundStep P s j (.processing session)
  | started (c : Config) : RoundStep P s j (.assessing c (getPendingSubmitTx P c s.db) .empty)
  | assessed {c : Config} {todo : List PendingTx} {found found' : Found} {n : Nat}
      {tx : PendingTx} (hround : s.round j = .assessing c todo found) (htx : todo[n]? = some tx)
      (hadd : assessInto P c found (tx, s.world) = some found') :
      RoundStep P s j (.assessing c (todo.eraseIdx n) found')
  | marking {c : Config} {found : Found} (hround : s.round j = .assessing c [] found) :
      RoundStep P s j (.marking found)

variable {s : Relaying ι}

theorem roundStep_catches {account : Account} {session : Session} {batch : List TxManyInput}
    {rest : List (List TxManyInput)} (j : ι) (message : Text) :
    RoundStep P s j (session.catches account batch rest message) := by
  unfold Session.catches
  split
  · exact .processing _
  · split
    · cases account.conflictingNonceStrategy with
      | increase => exact .processing _
      | replace =>
          dsimp only
          split
          · exact .processing _
          · exact .idle
    · split
      · exact .processing _
      · exact .processing _

variable [DecidableEq ι] {account : ι → Account}

/-- Only the round of the relayer that acts changes. -/
theorem roundStep_setRound {s' : Relaying ι} (hsame : s'.round = s.round) {i : ι} {r : Round}
    (h : RoundStep P s i r) (j : ι) : RoundStep P s j ((s'.setRound i r).round j) := by
  show RoundStep P s j (Function.update s'.round i r j)
  by_cases hj : j = i
  · subst hj
    rw [Function.update_self]
    exact h
  · rw [Function.update_of_ne hj, hsame]
    exact .same

theorem roundStep_record {s' : Relaying ι} (hsame : s'.round = s.round) {i : ι}
    {session : Session} {batch : List TxManyInput} {rest : List (List TxManyInput)}
    (txid : Option Bytes) (error : Option Text) {recorded : Round} (h : RoundStep P s i recorded)
    (j : ι) : RoundStep P s j
      ((s'.record account i session batch rest txid error recorded).round j) := by
  unfold Relaying.record
  split
  · exact roundStep_setRound hsame h j
  · exact roundStep_setRound hsame (.processing _) j

theorem roundStep_broadcast (i : ι) (session : Session) (batch : List TxManyInput)
    (rest : List (List TxManyInput)) (reply : Reply) (j : ι) :
    RoundStep P s j ((s.broadcast account i session batch rest reply).round j) := by
  unfold Relaying.broadcast
  cases reply with
  | accepted txid =>
      dsimp only
      split
      · have hsame : (s.accept i session.nonce batch).round = s.round := rfl
        exact roundStep_record hsame _ _ (.processing _) j
      · exact .same
  | rejected error reason txid =>
      have hsame : { s with
          rejected := s.rejected ++ batch.map TxManyInput.event : Relaying ι }.round = s.round := rfl
      exact roundStep_record hsame _ _ (roundStep_catches i reason) j
  | exception reached message =>
      cases reached with
      | true =>
          dsimp only
          split
          · exact roundStep_setRound rfl (roundStep_catches i message) j
          · exact .same
      | false => exact roundStep_setRound rfl (roundStep_catches i message) j

/-- **What an action can do to a round.** -/
theorem roundStep_next {lib : BitcoinLib} {principal : Text → Option Principal} (a : Action ι)
    (j : ι) : RoundStep P s j ((s.next P lib principal account a).round j) := by
  cases a with
  | post tx =>
      dsimp only [Relaying.next]
      split
      · exact .same
      · exact .same
  | transact t => exact .same
  | startRound i c =>
      dsimp only [Relaying.next]
      split
      · exact roundStep_setRound rfl (.started c) j
      · exact .same
  | assess i n =>
      dsimp only [Relaying.next]
      split
      · next c todo found hround =>
          split
          · next tx htx =>
              refine roundStep_setRound rfl ?_ j
              cases hadd : found.add tx.row.event (Relayer.assess P c s.world tx) with
              | none => exact .idle
              | some found' => exact .assessed hround htx hadd
          · exact .same
      · exact .same
  | setAlreadyIndexed i =>
      dsimp only [Relaying.next]
      split
      · next found hround => exact roundStep_setRound rfl (.marking hround) j
      · exact .same
  | flush i startingNonce lastExecutedNonce =>
      dsimp only [Relaying.next]
      split
      · refine roundStep_setRound rfl ?_ j
        split
        · exact .idle
        · exact .processing _
      · exact .same
  | broadcast i reply =>
      dsimp only [Relaying.next]
      split
      · split
        · split
          · exact .same
          · exact roundStep_broadcast i _ _ _ reply j
        · exact .same
      · exact .same
  | readNonce i answer =>
      dsimp only [Relaying.next]
      split
      · exact roundStep_setRound rfl (.processing _) j
      · exact .same
  | replaceByFee i nonce newTxId =>
      dsimp only [Relaying.next]
      split
      · exact .same
      · exact .same
  | finish i =>
      dsimp only [Relaying.next]
      split
      · split
        · exact roundStep_setRound rfl .idle j
        · exact .same
      · exact .same
  | abandon i => exact roundStep_setRound rfl .idle j
  | confirm i env =>
      dsimp only [Relaying.next]
      split
      · unfold Relaying.confirm
        dsimp only
        split
        · exact .same
        · split
          · exact .same
          · exact .same
      · exact .same
  | drop i nonce => exact .same

/-- A round has assessed some of the events that it selected, each once, and holds what
it has found about them. -/
def InPass (P : Primitives) : Round → Prop
  | .assessing c todo found => ∃ db order, Unique (TxRow.id P) db.txs ∧
      (order.map Prod.fst ++ todo).Perm (getPendingSubmitTx P c db) ∧
        assessAll P c order = some found
  | .marking found => ∃ c db order, IsPass P c db order ∧ assessAll P c order = some found
  | .idle => True
  | .processing _ => True

omit [DecidableEq ι] in
theorem InPass.step {j : ι} {r : Round} (hunique : Unique (TxRow.id P) s.db.txs)
    (h : InPass P (s.round j)) (hstep : RoundStep P s j r) : InPass P r := by
  cases hstep with
  | same => exact h
  | idle => trivial
  | processing session => trivial
  | started c => exact ⟨s.db, [], hunique, .rfl, rfl⟩
  | @assessed c todo found found' n tx hround htx hadd =>
      rw [hround] at h
      obtain ⟨db, order, hids, hperm, hfound⟩ := h
      refine ⟨db, order ++ [(tx, s.world)], hids, ?_, ?_⟩
      · -- the event taken from the list is the next one assessed
        have hlt := (List.getElem?_eq_some_iff.mp htx).1
        have hcons := List.getElem_cons_eraseIdx_perm hlt
        rw [(List.getElem?_eq_some_iff.mp htx).2] at hcons
        rw [List.map_append, List.append_assoc]
        exact (hcons.append_left (order.map Prod.fst)).trans hperm
      · rw [assessAll] at hfound ⊢
        rw [List.foldlM_append, hfound]
        show [(tx, s.world)].foldlM (assessInto P c) found = some found'
        rw [List.foldlM_cons, hadd]
        rfl
  | @marking c found hround =>
      rw [hround] at h
      obtain ⟨db, order, hids, hperm, hfound⟩ := h
      rw [List.append_nil] at hperm
      exact ⟨c, db, order, ⟨hids, hperm⟩, hfound⟩

/-- **What a relayer marks is what a pass has found**, in every run of the system; after an
exception it marks nothing. -/
theorem inPass_run {lib : BitcoinLib} {principal : Text → Option Principal} (w : World)
    (accountNonce : ι → Nat) (actions : List (Action ι)) (j : ι) :
    InPass P (((machine P lib principal account).run (start w accountNonce) actions).round j) := by
  have hinv := (machine P lib principal account).run_of_step
    (fun s => Sound P s ∧ ∀ j, InPass P (s.round j))
    (fun s a hs => ⟨hs.1.next a, fun j => (hs.2 j).step hs.1.unique (roundStep_next a j)⟩)
    ⟨sound_start w accountNonce, fun _ => trivial⟩ actions
  exact hinv.2 j

end Relaying

end Relayer

namespace Sample
open Relayer

def pendingRow : TxRow where
  event := ⟨[1], 0, 0⟩
  txId := [3]
  header := []
  height := 100
  proofHashes := []
  txIndex := 0
  treeDepth := 0
  error := none

/-- The tables with one event and its proofs. -/
def tablesWith (proofs : List ProofRow) : Database := ⟨[pendingRow], proofs, [], []⟩

/-- Four validators say four different things. -/
def outnumberedProofs : List ProofRow :=
  [proofWith "a".toList 1, proofWith "b".toList 2, proofWith "c".toList 3, proofWith "d".toList 4]

/-- **A fourth proof has come since the second: the event waits for ever.** -/
theorem outnumbered_waits :
    IsPass primitives relayerConfig (tablesWith outnumberedProofs)
      [(⟨pendingRow, outnumberedProofs⟩, World.deployed deployer)] ∧
    isIndexedTx (World.deployed deployer) pendingRow.event = some false ∧
    ¬ VerdictRight relayerConfig ⟨pendingRow, outnumberedProofs⟩
      ((recorded primitives relayerConfig
        [(⟨pendingRow, outnumberedProofs⟩, World.deployed deployer)]).about pendingRow.event) := by
  refine ⟨⟨by decide +kernel, ?_⟩, by decide +kernel, fun h => ?_⟩
  · have hpending : getPendingSubmitTx primitives relayerConfig (tablesWith outnumberedProofs) =
        [⟨pendingRow, outnumberedProofs⟩] := by decide +kernel
    rw [hpending]
    exact .rfl
  · have hagreed : ¬ Agreed relayerConfig ⟨pendingRow, outnumberedProofs⟩ := by
      rintro ⟨hash, hhash⟩
      have honce : (outnumberedProofs.map ProofRow.orderHash).Nodup := by decide +kernel
      have hle := List.nodup_iff_count_le_one.mp honce hash
      exact absurd (hhash.trans hle) (by decide)
    obtain ⟨text, htext⟩ := h.disagreed hagreed (by decide)
    have hwaits : assess primitives relayerConfig (World.deployed deployer)
        ⟨pendingRow, outnumberedProofs⟩ = .waits := by decide +kernel
    have hnothing : recorded primitives relayerConfig
        [(⟨pendingRow, outnumberedProofs⟩, World.deployed deployer)] = .empty := by
      rw [recorded, assessAll, List.foldlM_cons, assessInto, hwaits]
      rfl
    rw [hnothing] at htext
    cases htext

/-- Two validators say the same, and a third says something else. -/
def dissentingProofs : List ProofRow :=
  [proofWith "a".toList 1, proofWith "b".toList 2, proofWith "c".toList 1]

theorem verdict_right_agreed :
    VerdictRight relayerConfig ⟨pendingRow, dissentingProofs⟩
      ((recorded primitives relayerConfig
        [(⟨pendingRow, dissentingProofs⟩, World.deployed deployer)]).about pendingRow.event) := by
  have hpending : getPendingSubmitTx primitives relayerConfig (tablesWith dissentingProofs) =
      [⟨pendingRow, dissentingProofs⟩] := by
    decide +kernel
  have hpass : IsPass primitives relayerConfig (tablesWith dissentingProofs)
      [(⟨pendingRow, dissentingProofs⟩, World.deployed deployer)] := by
    refine ⟨by decide +kernel, ?_⟩
    rw [hpending]
    exact .rfl
  have hmajority : getMajorityProofs dissentingProofs 2 =
      some [proofWith "a".toList 1, proofWith "c".toList 1] := by
    decide +kernel
  have hencodes : (txArgument pendingRow (proofWith "a".toList 1)).encode.isSome = true := by
    decide +kernel
  have hnew : isIndexedTx (World.deployed deployer) pendingRow.event = some false := by
    decide +kernel
  refine (verdict_right_iff (by decide) (by decide) hpass List.mem_cons_self hnew).mpr
    (Or.inr ⟨fun _ => by decide, fun t ht hraises => ?_⟩)
  rw [List.mem_singleton.mp ht] at hraises
  rcases hraises with hnone | ⟨-, first, rest, hselected, hnone⟩
  · cases hnew.symm.trans hnone
  · obtain ⟨rfl, -⟩ := List.cons.inj (Option.some.inj (hmajority.symm.trans hselected))
    rw [hnone] at hencodes
    cases hencodes

end Sample
end BitcoinOracle
