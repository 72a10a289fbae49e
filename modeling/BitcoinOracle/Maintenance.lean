import BitcoinOracle.NoEventLost

/-! # Maintenance

Two commands make lost events pending again.  Each selects what it looks at, asks the
registry about it, one event after the other in any order, and when all have been
answered deletes rows of `submitted_tx`: `check` those of the Stacks transactions under
which it found an event that is not indexed, `back-fill` those of the events that are
not indexed.

Relayers, validators and the chain go on in between.  A record is never taken back, so
what is not indexed when the rows are deleted was not indexed when it was looked up;
this is all that the results about either command rest on.
-/
namespace BitcoinOracle
open Clarity KeyedTable Indexer

namespace Relayer

/-- `whitelist_to_address`, and `minimal_proof_count` of the first row of
`relayer_configs`, if there is one. -/
structure Whitelist where
  whitelistToAddress : List Bytes
  minimalProofCount : Option Nat

def Whitelist.counts (whitelist : Whitelist) (proof : ProofRow) : Bool :=
  decide (proof.toUser ∈ whitelist.whitelistToAddress) ||
    decide (proof.fromUser ∈ whitelist.whitelistToAddress)

/-! ## What the commands select and delete -/

variable (P : Primitives)

/-- The heights of a long-live check: from 99 to 16 blocks below the highest. -/
def IsRecent (db : Database) (row : TxRow) : Prop :=
  ∃ highest ∈ (db.txs.map TxRow.height).max?, row.height < highest - 15 ∧ highest - 100 < row.height

instance (db : Database) (row : TxRow) : Decidable (IsRecent db row) :=
  inferInstanceAs (Decidable (∃ _ ∈ _, _))

/-- `qualified_txs` of a check. -/
def Whitelist.Qualifies (whitelist : Whitelist) (db : Database) (row : TxRow) : Prop :=
  let proofs := db.proofs.filter fun proof => proof.id P = row.id P && whitelist.counts proof
  proofs ≠ [] ∧ ∃ minimal ∈ whitelist.minimalProofCount, minimal ≤ proofs.length

instance (whitelist : Whitelist) (db : Database) (row : TxRow) :
    Decidable (whitelist.Qualifies P db row) :=
  inferInstanceAs (Decidable (_ ∧ ∃ _ ∈ _, _))

/-- `check_stacks_tx`: the rows of `submitted_tx` that a check looks at. -/
def checkStacksTx (whitelist : Whitelist) (longLive : Bool) (db : Database) : List SubmittedRow :=
  let pendingTxs := db.txs.filter fun row =>
    row.event.txHash.length ≤ 4096 * 2 ∧ (longLive = true → IsRecent db row)
  let qualifiedTxs := pendingTxs.filter fun row => whitelist.Qualifies P db row
  db.submittedTx.filter fun row => row.id P ∈ qualifiedTxs.map (TxRow.id P)

/-- The events a back-fill looks at. -/
def backFillTxs (whitelist : Whitelist) (db : Database) : List Event :=
  ((db.proofs.filter fun proof =>
    whitelist.counts proof && decide (proof.event.txHash.length ≤ kTxMaxLength)).map
      ProofRow.event).eraseDups

/-- `delete from submitted_tx where stacks_tx_id = any (stacksIds)`. -/
def deleteStacksIds (stacksIds : List Bytes) (db : Database) : Database :=
  { db with submittedTx := db.submittedTx.filter fun row =>
      ¬ ∃ id ∈ row.stacksTxId, id ∈ stacksIds }

/-- `removeSubmitTxs`: one delete for each event. -/
def removeSubmitTxs (pendingTxsRows : List Event) (db : Database) : Database :=
  let remove (rows : List SubmittedRow) (e : Event) := rows.filter fun row => row.event ≠ e
  { db with submittedTx := pendingTxsRows.foldl remove db.submittedTx }

/-! ## The commands at work -/

/-- A command between two of its calls to the registry. -/
inductive Job where
  | idle
  | check (confirm : Bool) (todo : List SubmittedRow) (stacksIds : List Bytes)
  | backFill (todo : List Event) (pendingTxsRows : List Event)
  deriving DecidableEq

/-- The id of a row that a check notes. -/
def noteStacksId (indexed : Bool) (row : SubmittedRow) (stacksIds : List Bytes) : List Bytes :=
  match row.stacksTxId with
  | none => stacksIds
  | some id => if indexed then stacksIds else stacksIds.insert id

/-- The registry answers about one event.  A call that cannot be made ends the
command, since nobody waits for its promise. -/
def Job.look (w : World) (n : Nat) : Job → Job
  | .idle => .idle
  | .check confirm todo stacksIds =>
      match todo[n]? with
      | none => .check confirm todo stacksIds
      | some row =>
          match isIndexedTx w row.event with
          | none => .idle
          | some indexed =>
              .check confirm (todo.eraseIdx n) (noteStacksId indexed row stacksIds)
  | .backFill todo pendingTxsRows =>
      match todo[n]? with
      | none => .backFill todo pendingTxsRows
      | some e =>
          match isIndexedTx w e with
          | none => .idle
          | some true => .backFill (todo.eraseIdx n) pendingTxsRows
          | some false => .backFill (todo.eraseIdx n) (pendingTxsRows ++ [e])

/-- The relayers, and the commands that somebody runs beside them. -/
structure Maintained (ι κ : Type) where
  relaying : Relaying ι
  job : κ → Job

inductive Maintenance (ι κ : Type) where
  | relay (a : Action ι)
  | startCheck (k : κ) (whitelist : Whitelist) (confirm longLive : Bool)
  | startBackFill (k : κ) (whitelist : Whitelist)
  | look (k : κ) (n : Nat)
  /-- The queue is idle, and the rows are deleted. -/
  | finish (k : κ)
  /-- The command ends early. -/
  | exit (k : κ)

/-- The action starts the command `k`. -/
def Maintenance.Starts {ι κ : Type} (k : κ) : Maintenance ι κ → Prop
  | .startCheck k' .. => k' = k
  | .startBackFill k' _ => k' = k
  | _ => False

namespace Maintained
variable {ι κ : Type} [DecidableEq ι] [DecidableEq κ] (lib : BitcoinLib)
  (principal : Text → Option Principal) (account : ι → Account) (s : Maintained ι κ)

def start (w : World) (accountNonce : ι → Nat) : Maintained ι κ :=
  ⟨Relaying.start w accountNonce, fun _ => .idle⟩

def setJob (k : κ) (job : Job) : Maintained ι κ :=
  { s with job := Function.update s.job k job }

def setDatabase (db : Database) : Maintained ι κ :=
  { s with relaying := { s.relaying with db := db } }

def next : Maintenance ι κ → Maintained ι κ
  | .relay a => { s with relaying := s.relaying.next P lib principal account a }
  | .startCheck k whitelist confirm longLive =>
      match s.job k with
      | .idle => s.setJob k (.check confirm (checkStacksTx P whitelist longLive s.relaying.db) [])
      | _ => s
  | .startBackFill k whitelist =>
      match s.job k with
      | .idle => s.setJob k (.backFill (backFillTxs whitelist s.relaying.db) [])
      | _ => s
  | .look k n => s.setJob k ((s.job k).look s.relaying.world n)
  | .finish k =>
      match s.job k with
      | .check confirm [] stacksIds =>
          (if confirm then s.setDatabase (deleteStacksIds stacksIds s.relaying.db) else s).setJob k
            .idle
      | .backFill [] pendingTxsRows =>
          (s.setDatabase (removeSubmitTxs pendingTxsRows s.relaying.db)).setJob k .idle
      | _ => s
  | .exit k => s.setJob k .idle

def machine : Machine (Maintained ι κ) (Maintenance ι κ) Unit where
  next := next P lib principal account
  log _ _ := []

end Maintained

/-! ## What a deletion leaves -/

section Deletions
variable {P} {db : Database}

theorem mem_deleteStacksIds {stacksIds : List Bytes} {row : SubmittedRow} :
    row ∈ (deleteStacksIds stacksIds db).submittedTx ↔
      row ∈ db.submittedTx ∧ ∀ id ∈ row.stacksTxId, id ∉ stacksIds := by
  simp only [deleteStacksIds, List.mem_filter, decide_eq_true_eq, not_exists, not_and]

theorem mem_removeSubmitTxs {pendingTxsRows : List Event} {row : SubmittedRow} :
    row ∈ (removeSubmitTxs pendingTxsRows db).submittedTx ↔
      row ∈ db.submittedTx ∧ row.event ∉ pendingTxsRows := by
  unfold removeSubmitTxs
  dsimp only
  generalize db.submittedTx = rows
  induction pendingTxsRows generalizing rows with
  | nil => simp
  | cons e events ih =>
      rw [List.foldl_cons, ih, List.mem_filter, decide_eq_true_eq, List.mem_cons, not_or, and_assoc]

/-- What is left to look at, and the one that is looked at. -/
theorem mem_eraseIdx_or {α : Type} {xs : List α} {n : Nat} {x : α} (h : xs[n]? = some x) {y : α}
    (hy : y ∈ xs) : y = x ∨ y ∈ xs.eraseIdx n := by
  obtain ⟨hlt, hx⟩ := List.getElem?_eq_some_iff.mp h
  have hperm := List.getElem_cons_eraseIdx_perm hlt
  rw [hx] at hperm
  exact List.mem_cons.mp (hperm.mem_iff.mpr hy)

end Deletions

/-! ## What stays indexed -/

namespace Relaying
variable {ι : Type} [DecidableEq ι] {P : Primitives} {account : ι → Account} {s : Relaying ι}
  {i : ι}

theorem record_world {session : Session} {batch : List TxManyInput}
    {rest : List (List TxManyInput)} {txid : Option Bytes} {error : Option Text}
    {recorded : Round} :
    (s.record account i session batch rest txid error recorded).world = s.world := by
  unfold Relaying.record
  split
  · rfl
  · rfl

theorem broadcast_world {session : Session} {batch : List TxManyInput}
    {rest : List (List TxManyInput)} {reply : Reply} :
    (s.broadcast account i session batch rest reply).world = s.world := by
  unfold Relaying.broadcast
  cases reply with
  | accepted txid =>
      dsimp only
      split
      · exact record_world
      · rfl
  | rejected error reason txid => exact record_world
  | exception reached message =>
      cases reached with
      | true =>
          dsimp only
          split
          · rfl
          · rfl
      | false => rfl

/-- Relaying changes the chain through transactions only. -/
theorem world_next (P : Primitives) (lib : BitcoinLib) (principal : Text → Option Principal)
    (account : ι → Account) (a : Action ι) :
    (s.next P lib principal account a).world = s.world ∨
      ∃ t, (s.next P lib principal account a).world = (World.deployment P).next s.world t := by
  cases a with
  | transact t => exact Or.inr ⟨t, rfl⟩
  | confirm i env =>
      dsimp only [Relaying.next]
      split
      · next b _ =>
          unfold Relaying.confirm
          dsimp only
          split
          · exact Or.inl rfl
          · split
            · exact Or.inr ⟨_, rfl⟩
            · exact Or.inr ⟨_, rfl⟩
      · exact Or.inl rfl
  | broadcast i reply =>
      left
      dsimp only [Relaying.next]
      split
      · split
        · split
          · rfl
          · exact broadcast_world
        · rfl
      · rfl
  | assess _ _ | finish _ =>
      left
      dsimp only [Relaying.next]
      split
      · split
        · rfl
        · rfl
      · rfl
  | post _ | startRound _ _ | setAlreadyIndexed _ | flush _ _ _ | readNonce _ _
  | replaceByFee _ _ _ =>
      left
      dsimp only [Relaying.next]
      split
      · rfl
      · rfl
  | abandon _ | drop _ _ => exact Or.inl rfl

theorem isIndexed_next {lib : BitcoinLib} {principal : Text → Option Principal} {e : Event}
    (h : IsIndexed s.world e) (a : Action ι) :
    IsIndexed (s.next P lib principal account a).world e := by
  rcases world_next P lib principal account a with hsame | ⟨t, hnext⟩
  · rw [hsame]
    exact h
  · rw [hnext]
    exact h.next t

end Relaying

namespace Maintained
variable {ι κ : Type} [DecidableEq ι] [DecidableEq κ] {P : Primitives} {lib : BitcoinLib}
  {principal : Text → Option Principal} {account : ι → Account} {s : Maintained ι κ} {k : κ}

/-- A command leaves the chain alone. -/
theorem isIndexed_next {e : Event} (h : IsIndexed s.relaying.world e) (a : Maintenance ι κ) :
    IsIndexed (s.next P lib principal account a).relaying.world e := by
  cases a with
  | relay a => exact Relaying.isIndexed_next h a
  | startCheck k whitelist confirm longLive =>
      dsimp only [Maintained.next]
      split
      · exact h
      · exact h
  | startBackFill k whitelist =>
      dsimp only [Maintained.next]
      split
      · exact h
      · exact h
  | look k n => exact h
  | finish k =>
      dsimp only [Maintained.next]
      split
      · split
        · exact h
        · exact h
      · exact h
      · exact h
  | exit k => exact h

omit [DecidableEq ι] in
theorem setJob_job (k' : κ) (job : Job) :
    (s.setJob k' job).job k = if k = k' then job else s.job k := by
  show Function.update s.job k' job k = _
  rw [Function.update_apply]

variable (P lib principal account) in
theorem next_startCheck (h : s.job k = .idle) (whitelist : Whitelist) (confirm longLive : Bool) :
    s.next P lib principal account (.startCheck k whitelist confirm longLive) =
      s.setJob k (.check confirm (checkStacksTx P whitelist longLive s.relaying.db) []) := by
  dsimp only [Maintained.next]
  rw [h]

variable (P lib principal account) in
theorem next_startBackFill (h : s.job k = .idle) (whitelist : Whitelist) :
    s.next P lib principal account (.startBackFill k whitelist) =
      s.setJob k (.backFill (backFillTxs whitelist s.relaying.db) []) := by
  dsimp only [Maintained.next]
  rw [h]

variable (P lib principal account) in
theorem next_finish_check {stacksIds : List Bytes} (h : s.job k = .check true [] stacksIds) :
    s.next P lib principal account (.finish k) =
      (s.setDatabase (deleteStacksIds stacksIds s.relaying.db)).setJob k .idle := by
  dsimp only [Maintained.next]
  rw [h]
  rfl

variable (P lib principal account) in
theorem next_finish_backFill {pendingTxsRows : List Event}
    (h : s.job k = .backFill [] pendingTxsRows) :
    s.next P lib principal account (.finish k) =
      (s.setDatabase (removeSubmitTxs pendingTxsRows s.relaying.db)).setJob k .idle := by
  dsimp only [Maintained.next]
  rw [h]

variable (P lib principal account) in
/-- What a command can become unless it is started: it stays, it ends, or it looks up one
more event. -/
theorem job_next {a : Maintenance ι κ} (h : ¬ a.Starts k) :
    (s.next P lib principal account a).job k = s.job k ∨
      (s.next P lib principal account a).job k = .idle ∨
        ∃ n, (s.next P lib principal account a).job k = (s.job k).look s.relaying.world n := by
  cases a with
  | relay a => exact Or.inl rfl
  | startCheck k' whitelist confirm longLive =>
      have hother : k ≠ k' := fun heq => h heq.symm
      left
      dsimp only [Maintained.next]
      split
      · rw [setJob_job, if_neg hother]
      · rfl
  | startBackFill k' whitelist =>
      have hother : k ≠ k' := fun heq => h heq.symm
      left
      dsimp only [Maintained.next]
      split
      · rw [setJob_job, if_neg hother]
      · rfl
  | look k' n =>
      dsimp only [Maintained.next]
      rw [setJob_job]
      split
      · next heq =>
          subst heq
          exact Or.inr (Or.inr ⟨n, rfl⟩)
      · exact Or.inl rfl
  | finish k' =>
      -- the tables change, and the command ends
      have hend : ∀ s' : Maintained ι κ, s'.job = s.job →
          (s'.setJob k' .idle).job k = s.job k ∨ (s'.setJob k' .idle).job k = .idle := by
        intro s' hjob
        rw [setJob_job, hjob]
        split
        · exact Or.inr rfl
        · exact Or.inl rfl
      dsimp only [Maintained.next]
      split
      · refine (hend _ ?_).imp_right Or.inl
        split
        · rfl
        · rfl
      · exact (hend _ rfl).imp_right Or.inl
      · exact Or.inl rfl
  | exit k' =>
      dsimp only [Maintained.next]
      rw [setJob_job]
      split
      · exact Or.inr (Or.inl rfl)
      · exact Or.inl rfl

/-- **What a command knows.**  Something that lookups keep, and that more records on
chain do not falsify, holds of a command for as long as it runs. -/
theorem knows_run (Knows : World → Job → Prop) (hidle : ∀ w, Knows w .idle)
    (hlook : ∀ w job n, (∀ e, IsIndexed s.relaying.world e → IsIndexed w e) → Knows w job →
      Knows w (job.look w n))
    (hmono : ∀ w w' job, (∀ e, IsIndexed w e → IsIndexed w' e) → Knows w job → Knows w' job)
    (hstart : Knows s.relaying.world (s.job k)) {between : List (Maintenance ι κ)}
    (hbetween : ∀ a ∈ between, ¬ a.Starts k) :
    let s' := (machine P lib principal account).run s between
    (∀ e, IsIndexed s.relaying.world e → IsIndexed s'.relaying.world e) ∧
      Knows s'.relaying.world (s'.job k) := by
  have halong : (machine P lib principal account).Along (fun _ a => ¬ a.Starts k) s between :=
    Machine.along_of_forall fun a ha _ => hbetween a ha
  refine Machine.run_invariant
    (fun s' : Maintained ι κ =>
      (∀ e, IsIndexed s.relaying.world e → IsIndexed s'.relaying.world e) ∧
        Knows s'.relaying.world (s'.job k))
    (fun s' a ha hs => ?_) halong ⟨fun _ he => he, hstart⟩
  obtain ⟨hindexed, hknows⟩ := hs
  have hgrows : ∀ e, IsIndexed s'.relaying.world e →
      IsIndexed (s'.next P lib principal account a).relaying.world e :=
    fun _ he => isIndexed_next he a
  refine ⟨fun e he => hgrows e (hindexed e he), ?_⟩
  show Knows (s'.next P lib principal account a).relaying.world
    ((s'.next P lib principal account a).job k)
  apply hmono _ _ _ hgrows
  rcases job_next P lib principal account (s := s') ha with hsame | hend | ⟨n, hlooked⟩
  · rw [hsame]
    exact hknows
  · rw [hend]
    exact hidle _
  · rw [hlooked]
    exact hlook _ _ n hindexed hknows

/-! ## Soundness -/

/-- **Deleting rows leaves no event unaccounted for.** -/
theorem sound_next (h : s.relaying.Sound P) (a : Maintenance ι κ) :
    (s.next P lib principal account a).relaying.Sound P := by
  -- a deletion keeps `txs`, and of `submitted_tx` it keeps a part
  have hdelete : ∀ db : Database, db.txs = s.relaying.db.txs →
      (∀ row ∈ db.submittedTx, row ∈ s.relaying.db.submittedTx) →
      (s.setDatabase db).relaying.Sound P := by
    intro db htxs hsubmitted
    apply h.of_grows
    · apply Relaying.Grows.of_db
      intro e he
      rwa [htxs]
    · show Unique (TxRow.id P) db.txs
      rw [htxs]
      exact h.unique
    · exact h.mempool
    · intro e he
      obtain ⟨row, hrow, rfl⟩ := List.mem_map.mp he
      exact Or.inl (List.mem_map_of_mem (hsubmitted row hrow))
    · rfl
  cases a with
  | relay a => exact h.next a
  | startCheck k whitelist confirm longLive =>
      dsimp only [Maintained.next]
      split
      · exact h
      · exact h
  | startBackFill k whitelist =>
      dsimp only [Maintained.next]
      split
      · exact h
      · exact h
  | look k n => exact h
  | finish k =>
      dsimp only [Maintained.next]
      split
      · split
        · exact hdelete _ rfl fun row hrow => (mem_deleteStacksIds.mp hrow).1
        · exact h
      · exact hdelete _ rfl fun row hrow => (mem_removeSubmitTxs.mp hrow).1
      · exact h
  | exit k => exact h

variable (P lib principal account) in
theorem sound_run (w : World) (accountNonce : ι → Nat) (actions : List (Maintenance ι κ)) :
    ((machine P lib principal account).run (start w accountNonce) actions).relaying.Sound P :=
  (machine P lib principal account).run_of_step (fun s => s.relaying.Sound P)
    (fun _ a hs => sound_next hs a) (Relaying.sound_start w accountNonce) actions

end Maintained

/-! ## What the commands know -/

/-- Of the events that a back-fill selected on the chain `w₀`, those that are not indexed
are left or noted, and those that are noted were not indexed on `w₀`. -/
def BackFillKnows (w₀ : World) (selected : List Event) (w : World) : Job → Prop
  | .backFill todo pendingTxsRows =>
      (∀ e ∈ todo, e ∈ selected) ∧
        (∀ e ∈ selected, e ∈ todo ∨ e ∈ pendingTxsRows ∨ IsIndexed w e) ∧
          ∀ e ∈ pendingTxsRows, e ∈ selected ∧ ¬ IsIndexed w₀ e
  | _ => True

/-- The same of a check, which notes Stacks transactions. -/
def CheckKnows (w₀ : World) (selected : List SubmittedRow) (w : World) : Job → Prop
  | .check _ todo stacksIds =>
      (∀ row ∈ todo, row ∈ selected) ∧
        (∀ row ∈ selected, ∀ id ∈ row.stacksTxId,
          row ∈ todo ∨ id ∈ stacksIds ∨ IsIndexed w row.event) ∧
          ∀ id ∈ stacksIds, ∃ row ∈ selected, id ∈ row.stacksTxId ∧ ¬ IsIndexed w₀ row.event
  | _ => True

section Knows
variable {w₀ w w' : World} {job : Job}

theorem BackFillKnows.mono {selected : List Event} (hw : ∀ e, IsIndexed w e → IsIndexed w' e)
    (h : BackFillKnows w₀ selected w job) : BackFillKnows w₀ selected w' job := by
  cases job with
  | idle => trivial
  | check confirm todo stacksIds => trivial
  | backFill todo pendingTxsRows =>
      obtain ⟨htodo, hselected, hnoted⟩ := h
      exact ⟨htodo, fun e he => (hselected e he).imp_right (Or.imp_right (hw e)), hnoted⟩

theorem CheckKnows.mono {selected : List SubmittedRow} (hw : ∀ e, IsIndexed w e → IsIndexed w' e)
    (h : CheckKnows w₀ selected w job) : CheckKnows w₀ selected w' job := by
  cases job with
  | idle => trivial
  | backFill todo pendingTxsRows => trivial
  | check confirm todo stacksIds =>
      obtain ⟨htodo, hselected, hnoted⟩ := h
      refine ⟨htodo, fun row hrow id hid => ?_, hnoted⟩
      exact (hselected row hrow id hid).imp_right (Or.imp_right (hw row.event))

theorem not_isIndexed_of_look {e : Event} (hw : ∀ e, IsIndexed w₀ e → IsIndexed w e)
    (h : isIndexedTx w e = some false) : ¬ IsIndexed w₀ e := by
  intro hindexed
  have htrue : isIndexedTx w e = some true := hw e hindexed
  rw [h] at htrue
  cases htrue

theorem BackFillKnows.look {selected : List Event} (hw : ∀ e, IsIndexed w₀ e → IsIndexed w e)
    (h : BackFillKnows w₀ selected w job) (n : Nat) :
    BackFillKnows w₀ selected w (job.look w n) := by
  cases job with
  | idle => trivial
  | check confirm todo stacksIds =>
      dsimp only [Job.look]
      split
      · trivial
      · split
        · trivial
        · trivial
  | backFill todo pendingTxsRows =>
      have hknows := h
      obtain ⟨htodo, hselected, hnoted⟩ := h
      dsimp only [Job.look]
      split
      · exact hknows
      · next e he =>
          have herase : ∀ e' ∈ todo.eraseIdx n, e' ∈ selected := fun e' he' =>
            htodo e' (List.mem_of_mem_eraseIdx he')
          split
          · trivial
          · next hanswer =>
              refine ⟨herase, fun e' he' => ?_, hnoted⟩
              rcases hselected e' he' with hleft | hrest
              · rcases mem_eraseIdx_or he hleft with rfl | hleft
                · exact Or.inr (Or.inr hanswer)
                · exact Or.inl hleft
              · exact Or.inr hrest
          · next hanswer =>
              refine ⟨herase, fun e' he' => ?_, fun e' he' => ?_⟩
              · rcases hselected e' he' with hleft | hpending | hindexed
                · rcases mem_eraseIdx_or he hleft with rfl | hleft
                  · exact Or.inr (Or.inl (List.mem_append_right _ (List.mem_singleton_self e')))
                  · exact Or.inl hleft
                · exact Or.inr (Or.inl (List.mem_append_left _ hpending))
                · exact Or.inr (Or.inr hindexed)
              · rcases List.mem_append.mp he' with hold | hnew
                · exact hnoted e' hold
                · rw [List.mem_singleton.mp hnew]
                  exact ⟨htodo e (List.mem_of_getElem? he), not_isIndexed_of_look hw hanswer⟩

/-- The ids that are noted after an answer. -/
theorem mem_noteStacksId {indexed : Bool} {row : SubmittedRow} {stacksIds : List Bytes}
    {id : Bytes} :
    id ∈ noteStacksId indexed row stacksIds ↔
      id ∈ stacksIds ∨ id ∈ row.stacksTxId ∧ indexed = false := by
  unfold noteStacksId
  cases hid : row.stacksTxId with
  | none => simp
  | some id' =>
      cases indexed with
      | true => simp
      | false => simp [or_comm, eq_comm]

theorem CheckKnows.look {selected : List SubmittedRow}
    (hw : ∀ e, IsIndexed w₀ e → IsIndexed w e) (h : CheckKnows w₀ selected w job) (n : Nat) :
    CheckKnows w₀ selected w (job.look w n) := by
  cases job with
  | idle => trivial
  | backFill todo pendingTxsRows =>
      dsimp only [Job.look]
      split
      · trivial
      · split
        · trivial
        · trivial
        · trivial
  | check confirm todo stacksIds =>
      have hknows := h
      obtain ⟨htodo, hselected, hnoted⟩ := h
      dsimp only [Job.look]
      split
      · exact hknows
      · next row hrow =>
          split
          · trivial
          · next indexed hanswer =>
              refine ⟨fun row' hrow' => htodo row' (List.mem_of_mem_eraseIdx hrow'),
                fun row' hrow' id hid => ?_, fun id hid => ?_⟩
              · rw [mem_noteStacksId]
                rcases hselected row' hrow' id hid with hleft | hnotedId | hindexed
                · rcases mem_eraseIdx_or hrow hleft with rfl | hleft
                  · cases indexed with
                    | true => exact Or.inr (Or.inr hanswer)
                    | false => exact Or.inr (Or.inl (Or.inr ⟨hid, rfl⟩))
                  · exact Or.inl hleft
                · exact Or.inr (Or.inl (Or.inl hnotedId))
                · exact Or.inr (Or.inr hindexed)
              · rcases mem_noteStacksId.mp hid with hold | ⟨hown, rfl⟩
                · exact hnoted id hold
                · exact ⟨row, htodo row (List.mem_of_getElem? hrow), hown,
                    not_isIndexed_of_look hw hanswer⟩

variable {ι κ : Type} [DecidableEq ι] [DecidableEq κ] {P : Primitives} {lib : BitcoinLib}
  {principal : Text → Option Principal} {account : ι → Account} {s : Maintained ι κ} {k : κ}
  {between : List (Maintenance ι κ)}

theorem backFillKnows_run (hidle : s.job k = .idle) (hbetween : ∀ a ∈ between, ¬ a.Starts k)
    {whitelist : Whitelist} :
    let s' := (Maintained.machine P lib principal account).run s
      (.startBackFill k whitelist :: between)
    BackFillKnows s.relaying.world (backFillTxs whitelist s.relaying.db) s'.relaying.world
      (s'.job k) := by
  intro s'
  have hs' : s' = (Maintained.machine P lib principal account).run
      (s.setJob k (.backFill (backFillTxs whitelist s.relaying.db) [])) between := by
    rw [← Maintained.next_startBackFill P lib principal account hidle]
    rfl
  rw [hs']
  refine (Maintained.knows_run (s := s.setJob k _) (BackFillKnows s.relaying.world
    (backFillTxs whitelist s.relaying.db)) (fun _ => trivial) (fun _ _ n hw h => h.look hw n)
    (fun _ _ _ hw h => h.mono hw) ?_ hbetween).2
  rw [Maintained.setJob_job, if_pos rfl]
  exact ⟨fun _ he => he, fun _ he => Or.inl he, fun _ he => nomatch he⟩

theorem checkKnows_run (hidle : s.job k = .idle) (hbetween : ∀ a ∈ between, ¬ a.Starts k)
    {whitelist : Whitelist} {confirm longLive : Bool} :
    let s' := (Maintained.machine P lib principal account).run s
      (.startCheck k whitelist confirm longLive :: between)
    CheckKnows s.relaying.world (checkStacksTx P whitelist longLive s.relaying.db) s'.relaying.world
      (s'.job k) := by
  intro s'
  have hs' : s' = (Maintained.machine P lib principal account).run
      (s.setJob k (.check confirm (checkStacksTx P whitelist longLive s.relaying.db) []))
      between := by
    rw [← Maintained.next_startCheck P lib principal account hidle]
    rfl
  rw [hs']
  refine (Maintained.knows_run (s := s.setJob k _) (CheckKnows s.relaying.world
    (checkStacksTx P whitelist longLive s.relaying.db)) (fun _ => trivial)
    (fun _ _ n hw h => h.look hw n) (fun _ _ _ hw h => h.mono hw) ?_ hbetween).2
  rw [Maintained.setJob_job, if_pos rfl]
  exact ⟨fun _ hrow => hrow, fun _ hrow _ _ => Or.inl hrow, fun _ hid => nomatch hid⟩

end Knows

/-! ## Recovery -/

section Recovery
variable {ι κ : Type} [DecidableEq ι] [DecidableEq κ]

omit [DecidableEq ι] in
/-- In a sound state, an event without a row of `submitted_tx` is pending for every relayer
that it concerns. -/
theorem pending_of_not_submitted {P : Primitives} {s : Relaying ι} (hsound : s.Sound P) {c : Config}
    {row : TxRow} (hrow : row ∈ s.db.txs) (hadmits : c.Admits row)
    (hqualified : Qualified P c s.db row) (hshard : shouldHandleForKey P c (hex row.txId) = true)
    (hnew : ∀ submitted ∈ s.db.submittedTx, submitted.event ≠ row.event) :
    ∃ tx ∈ getPendingSubmitTx P c s.db, tx.row = row := by
  have hsubmitted : ¬ IsSubmitted P s.db row := by
    intro ⟨submitted, hsubmitted, hid⟩
    obtain ⟨hknown, -⟩ := hsound.submitted _ (List.mem_map_of_mem hsubmitted)
    obtain ⟨row', hrow', hevent⟩ := List.mem_map.mp hknown
    have hsame : row' = row := by
      apply hsound.unique.eq_of_mem hrow' hrow
      rw [← hid]
      exact congrArg (computeTxsId P) hevent
    rw [hsame] at hevent
    exact hnew submitted hsubmitted hevent.symm
  exact ⟨⟨row, s.db.proofs.filter fun proof => proof.id P = row.id P⟩, mem_getPendingSubmitTx.mpr
    ⟨hrow, hsubmitted, hadmits, hqualified, hshard, rfl⟩, rfl⟩

/-- **A back-fill recovers what is lost, and nothing that was indexed.**  Whatever goes on
until it deletes its rows: the events it selected that are then not indexed are pending
again, and the rows it deletes are those of events that were not indexed when it began. -/
theorem back_fill_recovers (P : Primitives) (lib : BitcoinLib)
    (principal : Text → Option Principal) (account : ι → Account) (w : World)
    (accountNonce : ι → Nat) (before between : List (Maintenance ι κ)) (k : κ)
    (whitelist : Whitelist) {s s' s'' : Maintained ι κ}
    (hs : (Maintained.machine P lib principal account).run (.start w accountNonce) before = s)
    (hidle : s.job k = .idle) (hbetween : ∀ a ∈ between, ¬ a.Starts k)
    (hs' : (Maintained.machine P lib principal account).run s
      (.startBackFill k whitelist :: between) = s')
    {pendingTxsRows : List Event} (hdone : s'.job k = .backFill [] pendingTxsRows)
    (hs'' : (Maintained.machine P lib principal account).next s' (.finish k) = s'') :
    (∀ row ∈ s''.relaying.db.txs, row.event ∈ backFillTxs whitelist s.relaying.db →
      ¬ IsIndexed s''.relaying.world row.event → ∀ c : Config, c.Admits row →
      Qualified P c s''.relaying.db row → shouldHandleForKey P c (hex row.txId) = true →
      ∃ tx ∈ getPendingSubmitTx P c s''.relaying.db, tx.row = row) ∧
    ∀ row ∈ s'.relaying.db.submittedTx, row ∉ s''.relaying.db.submittedTx →
      row.event ∈ backFillTxs whitelist s.relaying.db ∧ ¬ IsIndexed s.relaying.world row.event := by
  -- what the command knows when it has asked about every event
  have hknows : BackFillKnows s.relaying.world (backFillTxs whitelist s.relaying.db)
      s'.relaying.world (s'.job k) := by
    rw [← hs']
    exact backFillKnows_run hidle hbetween
  rw [hdone] at hknows
  obtain ⟨-, hselected, hnoted⟩ := hknows
  have hsound : s''.relaying.Sound P := by
    have hrun := Maintained.sound_run P lib principal account w accountNonce
      (before ++ .startBackFill k whitelist :: between)
    rw [Machine.run_append, hs, hs'] at hrun
    rw [← hs'']
    exact Maintained.sound_next hrun _
  have hs'' : s'' = (s'.setDatabase (removeSubmitTxs pendingTxsRows s'.relaying.db)).setJob k
      .idle := hs''.symm.trans (Maintained.next_finish_backFill P lib principal account hdone)
  constructor
  · intro row hrow hbackFill hindexed c hadmits hqualified hshard
    refine pending_of_not_submitted hsound hrow hadmits hqualified hshard
      fun submitted hsubmitted hevent => ?_
    rw [hs''] at hsubmitted hindexed
    have hkept := (mem_removeSubmitTxs.mp hsubmitted).2
    rw [hevent] at hkept
    rcases hselected row.event hbackFill with hleft | hpending | hin
    · exact nomatch hleft
    · exact hkept hpending
    · exact hindexed hin
  · intro row hrow hdeleted
    rw [hs''] at hdeleted
    have hpending : row.event ∈ pendingTxsRows := by
      by_contra hkept
      exact hdeleted (mem_removeSubmitTxs.mpr ⟨hrow, hkept⟩)
    exact hnoted row.event hpending

/-- **A check deletes the rows of failed Stacks transactions.**  Whatever goes on until it
deletes its rows: no row is left of a Stacks transaction under which it selected an event
that is then not indexed, so the event is pending again unless a relayer has touched it
in between; and the rows deleted are those of transactions under which an event was not
indexed when the check began, which spares every row without a Stacks transaction. -/
theorem check_recovers (P : Primitives) (lib : BitcoinLib)
    (principal : Text → Option Principal) (account : ι → Account) (w : World)
    (accountNonce : ι → Nat) (before between : List (Maintenance ι κ)) (k : κ)
    (whitelist : Whitelist) (longLive : Bool) {s s' s'' : Maintained ι κ}
    (hs : (Maintained.machine P lib principal account).run (.start w accountNonce) before = s)
    (hidle : s.job k = .idle) (hbetween : ∀ a ∈ between, ¬ a.Starts k)
    (hs' : (Maintained.machine P lib principal account).run s
      (.startCheck k whitelist true longLive :: between) = s')
    {stacksIds : List Bytes} (hdone : s'.job k = .check true [] stacksIds)
    (hs'' : (Maintained.machine P lib principal account).next s' (.finish k) = s'') :
    let selected := checkStacksTx P whitelist longLive s.relaying.db
    (∀ submitted ∈ selected, ∀ id ∈ submitted.stacksTxId,
      ¬ IsIndexed s''.relaying.world submitted.event →
      ∀ other ∈ s''.relaying.db.submittedTx, id ∉ other.stacksTxId) ∧
    (∀ row ∈ s''.relaying.db.txs, ¬ IsIndexed s''.relaying.world row.event →
      (∀ submitted ∈ s'.relaying.db.submittedTx, submitted.event = row.event →
        submitted ∈ selected ∧ submitted.stacksTxId.isSome = true) → ∀ c : Config, c.Admits row →
      Qualified P c s''.relaying.db row → shouldHandleForKey P c (hex row.txId) = true →
      ∃ tx ∈ getPendingSubmitTx P c s''.relaying.db, tx.row = row) ∧
    ∀ submitted ∈ s'.relaying.db.submittedTx, submitted ∉ s''.relaying.db.submittedTx →
      ∃ row ∈ selected, ∃ id ∈ row.stacksTxId, id ∈ submitted.stacksTxId ∧
        ¬ IsIndexed s.relaying.world row.event := by
  intro selected
  have hknows : CheckKnows s.relaying.world selected s'.relaying.world (s'.job k) := by
    rw [← hs']
    exact checkKnows_run hidle hbetween
  rw [hdone] at hknows
  obtain ⟨-, hselected, hnoted⟩ := hknows
  have hsound : s''.relaying.Sound P := by
    have hrun := Maintained.sound_run P lib principal account w accountNonce
      (before ++ .startCheck k whitelist true longLive :: between)
    rw [Machine.run_append, hs, hs'] at hrun
    rw [← hs'']
    exact Maintained.sound_next hrun _
  have hs'' : s'' = (s'.setDatabase (deleteStacksIds stacksIds s'.relaying.db)).setJob k .idle :=
    hs''.symm.trans (Maintained.next_finish_check P lib principal account hdone)
  have hfreed : ∀ submitted ∈ selected, ∀ id ∈ submitted.stacksTxId,
      ¬ IsIndexed s''.relaying.world submitted.event →
      ∀ other ∈ s''.relaying.db.submittedTx, id ∉ other.stacksTxId := by
    intro submitted hsubmitted id hid hindexed other hother hsame
    rw [hs''] at hother hindexed
    have hkept := (mem_deleteStacksIds.mp hother).2 id hsame
    rcases hselected submitted hsubmitted id hid with hleft | hstacksId | hin
    · exact nomatch hleft
    · exact hkept hstacksId
    · exact hindexed hin
  refine ⟨hfreed, ?_, ?_⟩
  · intro row hrow hindexed hsame c hadmits hqualified hshard
    refine pending_of_not_submitted hsound hrow hadmits hqualified hshard
      fun submitted hsubmitted hevent => ?_
    have hold : submitted ∈ s'.relaying.db.submittedTx := by
      rw [hs''] at hsubmitted
      exact (mem_deleteStacksIds.mp hsubmitted).1
    obtain ⟨hchecked, hsome⟩ := hsame submitted hold hevent
    obtain ⟨id, hid⟩ := Option.isSome_iff_exists.mp hsome
    rw [← hevent] at hindexed
    exact hfreed submitted hchecked id hid hindexed submitted hsubmitted hid
  · intro submitted hsubmitted hdeleted
    rw [hs''] at hdeleted
    have hnotedId : ∃ id ∈ submitted.stacksTxId, id ∈ stacksIds := by
      by_contra hnone
      refine hdeleted (mem_deleteStacksIds.mpr ⟨hsubmitted, fun id hid hstacksId => ?_⟩)
      exact hnone ⟨id, hid, hstacksId⟩
    obtain ⟨id, hid, hstacksId⟩ := hnotedId
    obtain ⟨row, hrow, hown, hindexed⟩ := hnoted id hstacksId
    exact ⟨row, hrow, id, hown, hid, hindexed⟩

end Recovery

end Relayer

/-! ## A rejected broadcast -/

namespace Sample
open Indexer Relayer

/-- The users of the transfer are on the list. -/
def whitelist : Whitelist := ⟨[bisPost.toUser], some 1⟩

/-- A relayer and a command, where the node has rejected the transfer. -/
def maintenance : Machine (Maintained Unit Unit) (Maintenance Unit Unit) Unit :=
  Maintained.machine relayPrimitives bitcoinLib principal fun _ => relayerAccount

def rejectedActions : List (Maintenance Unit Unit) :=
  (upToLoop [bisPost, unisatPost]).map .relay ++ [.relay (.broadcast ()
    (.rejected "transaction rejected".toList "NotEnoughFunds".toList (some [7])))]

def rejectedState : Maintained Unit Unit :=
  maintenance.run (Maintained.start relayWorld fun _ => 0) rejectedActions

def backFilled : Maintained Unit Unit :=
  maintenance.run rejectedState (.startBackFill () whitelist :: [.look () 0])

def checked : Maintained Unit Unit :=
  maintenance.run rejectedState (.startCheck () whitelist true false :: [.look () 0])

theorem not_starts_look : ∀ a ∈ ([.look () 0] : List (Maintenance Unit Unit)), ¬ a.Starts () :=
  List.forall_mem_singleton.mpr id

/-- The row of the transfer is one to be relayed. -/
def Relayable (s : Maintained Unit Unit) : Prop :=
  ∃ row ∈ s.relaying.db.txs, row.event = bisPost.event ∧ relayerConfig.Admits row ∧
    Qualified relayPrimitives relayerConfig s.relaying.db row ∧
    shouldHandleForKey relayPrimitives relayerConfig (hex row.txId) = true ∧
    ¬ IsIndexed s.relaying.world row.event

instance (s : Maintained Unit Unit) : Decidable (Relayable s) :=
  inferInstanceAs (Decidable (∃ row ∈ _, _))

theorem relayable_backFilled : Relayable (maintenance.next backFilled (.finish ())) ∧
    rejectedState.job () = .idle ∧ backFilled.job () = .backFill [] [bisPost.event] ∧
    bisPost.event ∈ backFillTxs whitelist rejectedState.relaying.db := by
  decide +kernel

/-- The rejected transfer is pending again after a back-fill. -/
theorem pending_backFilled :
    ∃ tx ∈ getPendingSubmitTx relayPrimitives relayerConfig
      (maintenance.next backFilled (.finish ())).relaying.db, tx.row.event = bisPost.event := by
  obtain ⟨⟨row, hrow, hevent, hadmits, hqualified, hshard, hindexed⟩, hidle, hdone, hselected⟩ :=
    relayable_backFilled
  have hrecovers := (back_fill_recovers relayPrimitives bitcoinLib principal
    (fun _ => relayerAccount) relayWorld (fun _ => 0) rejectedActions [.look () 0] ()
    whitelist (rfl : _ = rejectedState) hidle not_starts_look (rfl : _ = backFilled) hdone
    (rfl : _ = maintenance.next backFilled (.finish ()))).1
  rw [← hevent] at hselected
  obtain ⟨tx, htx, htxRow⟩ :=
    hrecovers row hrow hselected hindexed relayerConfig hadmits hqualified hshard
  exact ⟨tx, htx, by rw [htxRow, hevent]⟩

theorem relayable_checked : Relayable (maintenance.next checked (.finish ())) ∧
    rejectedState.job () = .idle ∧ checked.job () = .check true [] [[7]] ∧
    ∀ submitted ∈ checked.relaying.db.submittedTx, submitted.event = bisPost.event →
      submitted ∈ checkStacksTx relayPrimitives whitelist false rejectedState.relaying.db ∧
        submitted.stacksTxId.isSome = true := by
  decide +kernel

/-- And after a check. -/
theorem pending_checked :
    ∃ tx ∈ getPendingSubmitTx relayPrimitives relayerConfig
      (maintenance.next checked (.finish ())).relaying.db, tx.row.event = bisPost.event := by
  obtain ⟨⟨row, hrow, hevent, hadmits, hqualified, hshard, hindexed⟩, hidle, hdone, hsame⟩ :=
    relayable_checked
  have hrecovers := (check_recovers relayPrimitives bitcoinLib principal
    (fun _ => relayerAccount) relayWorld (fun _ => 0) rejectedActions [.look () 0] ()
    whitelist false (rfl : _ = rejectedState) hidle not_starts_look (rfl : _ = checked) hdone
    (rfl : _ = maintenance.next checked (.finish ()))).2.1
  rw [← hevent] at hsame
  obtain ⟨tx, htx, htxRow⟩ :=
    hrecovers row hrow hindexed hsame relayerConfig hadmits hqualified hshard
  exact ⟨tx, htx, by rw [htxRow, hevent]⟩

end Sample
end BitcoinOracle
