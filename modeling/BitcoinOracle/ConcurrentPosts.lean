import BitcoinOracle.IndexerTables
import BitcoinOracle.LoggedRun
import Mathlib.Data.Fintype.Basic

/-! # Posts at the same time

Each post is one database transaction, and READ COMMITTED shows its statements what
has been committed before them.  A schedule says whose statement is next.  An insert
that meets an uncommitted row of its key waits; one into `txs` that meets a
committed row fails, and the whole transaction with it.

The log of a run are the posts in the order of their commits, and the tables are
those that `upsertTxWithProof` leaves, post after post in that order
(`serial_run`).  What is missing in the end are the posts that failed.
-/
namespace BitcoinOracle
open Clarity KeyedTable

namespace Indexer

/-- Where the transaction of a post stands.  `isNew` says whether the insert into
`proofs` stored its row or met one. -/
inductive Phase where
  | begun
  | proofInserted (proof : ProofRow) (isNew : Bool)
  | txAbsent (proof : ProofRow) (isNew : Bool)
  | txPresent (proof : ProofRow) (isNew : Bool)
  | txInserted (proof : ProofRow) (isNew : Bool) (row : TxRow)
  | committed
  | failed (e : UpsertError)

namespace Phase

/-- The uncommitted row of `proofs`. -/
def newProof : Phase → Option ProofRow
  | proofInserted proof true => some proof
  | txAbsent proof true => some proof
  | txPresent proof true => some proof
  | txInserted proof true _ => some proof
  | _ => none

/-- The uncommitted row of `txs`. -/
def newTx : Phase → Option TxRow
  | txInserted _ _ row => some row
  | _ => none

def Finished : Phase → Prop
  | committed => True
  | failed _ => True
  | _ => False

/-- The phases in which a statement can fail. -/
def CanRaise : Phase → Prop
  | begun => True
  | txAbsent _ _ => True
  | _ => False

instance decidableFinished : DecidablePred Finished
  | committed => .isTrue trivial
  | failed _ => .isTrue trivial
  | begun => .isFalse id
  | proofInserted _ _ => .isFalse id
  | txAbsent _ _ => .isFalse id
  | txPresent _ _ => .isFalse id
  | txInserted _ _ _ => .isFalse id

end Phase

/-- The committed tables, and every transaction. -/
structure Posting (ι : Type) where
  db : Database
  phase : ι → Phase

namespace Posting
variable {ι : Type} [DecidableEq ι]

def start (db : Database) : Posting ι := ⟨db, fun _ => .begun⟩

def setPhase (s : Posting ι) (i : ι) (p : Phase) : Posting ι :=
  { s with phase := Function.update s.phase i p }

@[simp] theorem setPhase_db (s : Posting ι) (i : ι) (p : Phase) : (s.setPhase i p).db = s.db := rfl

@[simp] theorem setPhase_self (s : Posting ι) (i : ι) (p : Phase) :
    (s.setPhase i p).phase i = p := Function.update_self ..

theorem setPhase_of_ne {s : Posting ι} {i j : ι} (p : Phase) (h : j ≠ i) :
    (s.setPhase i p).phase j = s.phase j := Function.update_of_ne h ..

/-- Another transaction holds an uncommitted proof with this key. -/
def ProofLocked (s : Posting ι) (i : ι) (key : ProofKey) : Prop :=
  ∃ j, j ≠ i ∧ (s.phase j).newProof.map ProofRow.key = some key

variable (P : Primitives)

/-- Another transaction holds an uncommitted row of `txs` with this id. -/
def TxLocked (s : Posting ι) (i : ι) (id : Bytes) : Prop :=
  ∃ j, j ≠ i ∧ (s.phase j).newTx.map (TxRow.id P) = some id

instance [Fintype ι] (s : Posting ι) (i : ι) (key : ProofKey) : Decidable (s.ProofLocked i key) :=
  inferInstanceAs (Decidable (∃ _, _))

instance [Fintype ι] (s : Posting ι) (i : ι) (id : Bytes) : Decidable (s.TxLocked P i id) :=
  inferInstanceAs (Decidable (∃ _, _))

/-! ## Statements -/

section Statements
variable [Fintype ι] (lib : BitcoinLib) (posts : ι → TxRequest) (s : Posting ι) (i : ι)

def insertProof : Posting ι :=
  match proofRow lib (posts i) with
  | .error e => s.setPhase i (.failed e)
  | .ok proof =>
      if Stored ProofRow.key s.db.proofs proof.key then
        s.setPhase i (.proofInserted proof false)
      else if s.ProofLocked i proof.key then s
      else s.setPhase i (.proofInserted proof true)

def selectTx (proof : ProofRow) (isNew : Bool) : Posting ι :=
  if Stored (TxRow.id P) s.db.txs ((posts i).id P) then s.setPhase i (.txPresent proof isNew)
  else s.setPhase i (.txAbsent proof isNew)

def insertTx (proof : ProofRow) (isNew : Bool) : Posting ι :=
  match txRow proof.txId (posts i) with
  | .error e => s.setPhase i (.failed e)
  | .ok row =>
      if Stored (TxRow.id P) s.db.txs (row.id P) then s.setPhase i (.failed .uniqueViolation)
      else if s.TxLocked P i (row.id P) then s
      else s.setPhase i (.txInserted proof isNew row)

def commit (proof : ProofRow) (isNew : Bool) (rows : List TxRow) : Posting ι :=
  { s.setPhase i .committed with
    db := { s.db with
      txs := s.db.txs ++ rows
      proofs := if isNew then s.db.proofs ++ [proof] else s.db.proofs } }

/-- The next statement of a transaction.  A transaction that has to wait, or has
finished, stays where it is. -/
def next : Posting ι :=
  match s.phase i with
  | .begun => s.insertProof lib posts i
  | .proofInserted proof isNew => s.selectTx P posts i proof isNew
  | .txAbsent proof isNew => s.insertTx P posts i proof isNew
  | .txPresent proof isNew => s.commit i proof isNew []
  | .txInserted proof isNew row => s.commit i proof isNew [row]
  | .committed => s
  | .failed _ => s

/-- The commit of a transaction is logged. -/
def committing : List ι :=
  match s.phase i with
  | .txPresent _ _ => [i]
  | .txInserted _ _ _ => [i]
  | _ => []

end Statements

/-- The posts, in the order a schedule takes their statements. -/
def machine [Fintype ι] (lib : BitcoinLib) (posts : ι → TxRequest) :
    Machine (Posting ι) ι ι where
  next := next P lib posts
  log := committing

/-- The next statement of a transaction fails: its post cannot be stored, or another
transaction has committed the row of `txs` that was absent when it looked. -/
def Raises (lib : BitcoinLib) (posts : ι → TxRequest) (s : Posting ι) (i : ι) : Prop :=
  match s.phase i with
  | .begun => ∃ e, proofRow lib (posts i) = .error e
  | .txAbsent proof _ =>
      (∃ e, txRow proof.txId (posts i) = .error e) ∨
        Stored (TxRow.id P) s.db.txs ((posts i).id P)
  | _ => False

/-- What one statement can do. -/
inductive Step (lib : BitcoinLib) (posts : ι → TxRequest) (s : Posting ι) (i : ι) :
    Posting ι → List ι → Prop
  | stays (h : ¬ Raises P lib posts s i) : Step lib posts s i s []
  | raises {e : UpsertError} (h : Raises P lib posts s i) :
      Step lib posts s i (s.setPhase i (.failed e)) []
  | meetsProof {proof : ProofRow} (hphase : s.phase i = .begun)
      (hproof : proofRow lib (posts i) = .ok proof)
      (hstored : Stored ProofRow.key s.db.proofs proof.key) :
      Step lib posts s i (s.setPhase i (.proofInserted proof false)) []
  | insertsProof {proof : ProofRow} (hphase : s.phase i = .begun)
      (hproof : proofRow lib (posts i) = .ok proof)
      (hnew : ¬ Stored ProofRow.key s.db.proofs proof.key) (hfree : ¬ s.ProofLocked i proof.key) :
      Step lib posts s i (s.setPhase i (.proofInserted proof true)) []
  | meetsTx {proof : ProofRow} {isNew : Bool} (hphase : s.phase i = .proofInserted proof isNew)
      (hstored : Stored (TxRow.id P) s.db.txs ((posts i).id P)) :
      Step lib posts s i (s.setPhase i (.txPresent proof isNew)) []
  | missesTx {proof : ProofRow} {isNew : Bool} (hphase : s.phase i = .proofInserted proof isNew) :
      Step lib posts s i (s.setPhase i (.txAbsent proof isNew)) []
  | insertsTx {proof : ProofRow} {isNew : Bool} {row : TxRow}
      (hphase : s.phase i = .txAbsent proof isNew) (hrow : txRow proof.txId (posts i) = .ok row)
      (hnew : ¬ Stored (TxRow.id P) s.db.txs ((posts i).id P))
      (hfree : ¬ s.TxLocked P i ((posts i).id P)) :
      Step lib posts s i (s.setPhase i (.txInserted proof isNew row)) []
  | commits {proof : ProofRow} {isNew : Bool} (hphase : s.phase i = .txPresent proof isNew) :
      Step lib posts s i (s.commit i proof isNew []) [i]
  | commitsTx {proof : ProofRow} {isNew : Bool} {row : TxRow}
      (hphase : s.phase i = .txInserted proof isNew row) :
      Step lib posts s i (s.commit i proof isNew [row]) [i]

variable {P} [Fintype ι] {lib : BitcoinLib} {posts : ι → TxRequest}

omit [DecidableEq ι] [Fintype ι] in
theorem raises_iff_of_begun {s : Posting ι} {i : ι} (h : s.phase i = .begun) :
    Raises P lib posts s i ↔ ∃ e, proofRow lib (posts i) = .error e := by
  unfold Raises
  rw [h]

omit [DecidableEq ι] [Fintype ι] in
theorem raises_iff_of_txAbsent {s : Posting ι} {i : ι} {proof : ProofRow} {isNew : Bool}
    (h : s.phase i = .txAbsent proof isNew) :
    Raises P lib posts s i ↔ (∃ e, txRow proof.txId (posts i) = .error e) ∨
      Stored (TxRow.id P) s.db.txs ((posts i).id P) := by
  unfold Raises
  rw [h]

omit [DecidableEq ι] [Fintype ι] in
theorem not_raises_of_proofRow {s : Posting ι} {i : ι} {proof : ProofRow}
    (h : s.phase i = .begun) (hproof : proofRow lib (posts i) = .ok proof) :
    ¬ Raises P lib posts s i := by
  rw [raises_iff_of_begun h, hproof]
  exact fun ⟨e, he⟩ => nomatch he

omit [DecidableEq ι] [Fintype ι] in
theorem not_raises_of_txRow {s : Posting ι} {i : ι} {proof : ProofRow} {isNew : Bool} {row : TxRow}
    (h : s.phase i = .txAbsent proof isNew) (hrow : txRow proof.txId (posts i) = .ok row)
    (hnew : ¬ Stored (TxRow.id P) s.db.txs ((posts i).id P)) : ¬ Raises P lib posts s i := by
  rw [raises_iff_of_txAbsent h, hrow, or_iff_left hnew]
  exact fun ⟨e, he⟩ => nomatch he

omit [DecidableEq ι] [Fintype ι] in
theorem not_raises {s : Posting ι} {i : ι} (h : ¬ (s.phase i).CanRaise) :
    ¬ Raises P lib posts s i := by
  intro hraises
  apply h
  unfold Raises at hraises
  split at hraises
  · next hphase =>
      rw [hphase]
      trivial
  · next hphase =>
      rw [hphase]
      trivial
  · exact hraises.elim

variable (P lib posts) in
/-- **A statement does nothing but what `Step` lists.** -/
theorem step_next (s : Posting ι) (i : ι) :
    Step P lib posts s i ((machine P lib posts).next s i) ((machine P lib posts).log s i) := by
  show Step P lib posts s i (next P lib posts s i) (committing s i)
  unfold next committing
  cases hphase : s.phase i with
  | begun =>
      show Step P lib posts s i (s.insertProof lib posts i) []
      unfold insertProof
      cases hproof : proofRow lib (posts i) with
      | error e => exact .raises ((raises_iff_of_begun hphase).mpr ⟨e, hproof⟩)
      | ok proof =>
          dsimp only
          split
          · next hstored => exact .meetsProof hphase hproof hstored
          · next hnew =>
              split
              · exact .stays (not_raises_of_proofRow hphase hproof)
              · next hfree => exact .insertsProof hphase hproof hnew hfree
  | proofInserted proof isNew =>
      show Step P lib posts s i (s.selectTx P posts i proof isNew) []
      unfold selectTx
      split
      · next hstored => exact .meetsTx hphase hstored
      · exact .missesTx hphase
  | txAbsent proof isNew =>
      have hraises : Raises P lib posts s i ↔ _ := raises_iff_of_txAbsent hphase
      show Step P lib posts s i (s.insertTx P posts i proof isNew) []
      unfold insertTx
      cases hrow : txRow proof.txId (posts i) with
      | error e => exact .raises (hraises.mpr (Or.inl ⟨e, hrow⟩))
      | ok row =>
          have hid := txRow_id (P := P) hrow
          dsimp only
          split
          · next hstored => exact .raises (hraises.mpr (Or.inr (hid ▸ hstored)))
          · next hnew =>
              split
              · exact .stays (not_raises_of_txRow hphase hrow (hid ▸ hnew))
              · next hfree => exact .insertsTx hphase hrow (hid ▸ hnew) (hid ▸ hfree)
  | txPresent proof isNew => exact .commits hphase
  | txInserted proof isNew row => exact .commitsTx hphase
  | committed => exact .stays (not_raises (by rw [hphase]; exact id))
  | failed e => exact .stays (not_raises (by rw [hphase]; exact id))

/-! ## What every schedule keeps -/

/-- A transaction has made the insert into `proofs` it says it has. -/
def HoldsProof (lib : BitcoinLib) (tx : TxRequest) (db : Database) (proof : ProofRow)
    (isNew : Bool) : Prop :=
  proofRow lib tx = .ok proof ∧ (isNew = true ↔ ¬ Stored ProofRow.key db.proofs proof.key)

variable (P) in
/-- What the phase of a transaction says about the committed tables. -/
def Sound (lib : BitcoinLib) (tx : TxRequest) (db : Database) : Phase → Prop
  | .begun => True
  | .proofInserted proof isNew => HoldsProof lib tx db proof isNew
  | .txAbsent proof isNew => HoldsProof lib tx db proof isNew
  | .txPresent proof isNew =>
      HoldsProof lib tx db proof isNew ∧ Stored (TxRow.id P) db.txs (tx.id P)
  | .txInserted proof isNew row =>
      HoldsProof lib tx db proof isNew ∧ ¬ Stored (TxRow.id P) db.txs (tx.id P) ∧
        txRow proof.txId tx = .ok row
  | .committed => True
  | .failed _ => True

variable (P) in
/-- The uncommitted rows of two transactions have different keys. -/
structure Compatible (p p' : Phase) : Prop where
  proofs : ∀ proof proof', p.newProof = some proof → p'.newProof = some proof' →
    proof.key ≠ proof'.key
  txs : ∀ row row', p.newTx = some row → p'.newTx = some row' → row.id P ≠ row'.id P

variable (P lib posts) in
structure Isolated (s : Posting ι) : Prop where
  sound : ∀ i, Sound P lib (posts i) s.db (s.phase i)
  compatible : ∀ i j, i ≠ j → Compatible P (s.phase i) (s.phase j)

theorem Compatible.symm {p p' : Phase} (h : Compatible P p p') : Compatible P p' p where
  proofs proof proof' hproof hproof' := (h.proofs proof' proof hproof' hproof).symm
  txs row row' hrow hrow' := (h.txs row' row hrow' hrow).symm

theorem Compatible.of_none {p p' : Phase} (hproof : p.newProof = none) (htx : p.newTx = none) :
    Compatible P p p' where
  proofs proof proof' h _ := by rw [hproof] at h; cases h
  txs row row' h _ := by rw [htx] at h; cases h

/-- A phase with no more uncommitted rows is as compatible. -/
theorem Compatible.mono {p q p' : Phase} (h : Compatible P p p')
    (hproof : ∀ proof, q.newProof = some proof → p.newProof = some proof)
    (htx : q.newTx = none) : Compatible P q p' where
  proofs proof proof' hq hp' := h.proofs proof proof' (hproof proof hq) hp'
  txs row row' hq _ := by rw [htx] at hq; cases hq

omit [DecidableEq ι] [Fintype ι] in
theorem isolated_start (db : Database) : Isolated P lib posts (start db : Posting ι) where
  sound _ := trivial
  compatible _ _ _ := .of_none rfl rfl

omit [Fintype ι] in
/-- A transaction moves on; the others have nothing to do with its new phase. -/
theorem Isolated.setPhase {s : Posting ι} {i : ι} {p : Phase} (h : Isolated P lib posts s)
    (hsound : Sound P lib (posts i) s.db p)
    (hcompatible : ∀ j, j ≠ i → Compatible P p (s.phase j)) :
    Isolated P lib posts (s.setPhase i p) := by
  refine ⟨fun j => ?_, fun j k hjk => ?_⟩
  · by_cases hj : j = i
    · subst hj
      rwa [setPhase_self]
    · rw [setPhase_of_ne p hj]
      exact h.sound j
  · by_cases hj : j = i
    · subst hj
      rw [setPhase_self, setPhase_of_ne p (Ne.symm hjk)]
      exact hcompatible k (Ne.symm hjk)
    · rw [setPhase_of_ne p hj]
      by_cases hk : k = i
      · subst hk
        rw [setPhase_self]
        exact (hcompatible j hj).symm
      · rw [setPhase_of_ne p hk]
        exact h.compatible j k hjk

section Commits
variable {s : Posting ι} {i : ι} {proof : ProofRow} {isNew : Bool} {rows : List TxRow}

omit [Fintype ι] in
theorem stored_proofs_commit {key : ProofKey} :
    Stored ProofRow.key (s.commit i proof isNew rows).db.proofs key ↔
      Stored ProofRow.key s.db.proofs key ∨ isNew = true ∧ proof.key = key := by
  cases isNew with
  | true =>
      show Stored ProofRow.key (s.db.proofs ++ [proof]) key ↔ _
      rw [stored_append_iff, stored_singleton_iff, and_iff_right rfl]
  | false => exact (or_iff_left fun h => Bool.false_ne_true h.1).symm

omit [Fintype ι] in
theorem HoldsProof.commit {tx : TxRequest} {proof' : ProofRow} {isNew' : Bool}
    (h : HoldsProof lib tx s.db proof' isNew')
    (hne : isNew = true → isNew' = true → proof.key ≠ proof'.key) :
    HoldsProof lib tx (s.commit i proof isNew rows).db proof' isNew' := by
  obtain ⟨hproof, hnew⟩ := h
  refine ⟨hproof, ?_⟩
  rw [stored_proofs_commit]
  constructor
  · intro htrue hstored
    rcases hstored with hold | ⟨hi, hkey⟩
    · exact hnew.mp htrue hold
    · exact hne hi htrue hkey
  · exact fun hnot => hnew.mpr fun hold => hnot (Or.inl hold)

omit [Fintype ι] in
/-- A commit changes the tables under the other transactions, but not what their
phases say. -/
theorem Sound.commit {tx : TxRequest} {p q : Phase} (h : Sound P lib tx s.db q)
    (hcompatible : Compatible P p q) (hproof : isNew = true → p.newProof = some proof)
    (hrows : ∀ row ∈ rows, p.newTx = some row) :
    Sound P lib tx (s.commit i proof isNew rows).db q := by
  cases q with
  | begun => trivial
  | proofInserted proof' isNew' =>
      refine HoldsProof.commit h fun hi hj => ?_
      subst hj
      exact hcompatible.proofs proof proof' (hproof hi) rfl
  | txAbsent proof' isNew' =>
      refine HoldsProof.commit h fun hi hj => ?_
      subst hj
      exact hcompatible.proofs proof proof' (hproof hi) rfl
  | txPresent proof' isNew' =>
      refine ⟨HoldsProof.commit h.1 fun hi hj => ?_, h.2.append rows⟩
      subst hj
      exact hcompatible.proofs proof proof' (hproof hi) rfl
  | txInserted proof' isNew' row' =>
      obtain ⟨hheld, hnew, hrow'⟩ := h
      refine ⟨hheld.commit fun hi hj => ?_, fun hstored => ?_, hrow'⟩
      · subst hj
        exact hcompatible.proofs proof proof' (hproof hi) rfl
      · -- the id would be the one of a row just committed
        rcases stored_append_iff.mp hstored with hold | hcommitted
        · exact hnew hold
        · obtain ⟨row, hmem, hid⟩ := stored_iff.mp hcommitted
          exact hcompatible.txs row row' (hrows row hmem) rfl (hid.trans (txRow_id hrow').symm)
  | committed => trivial
  | failed e => trivial

omit [Fintype ι] in
theorem Isolated.commit (h : Isolated P lib posts s)
    (hproof : isNew = true → (s.phase i).newProof = some proof)
    (hrows : ∀ row ∈ rows, (s.phase i).newTx = some row) :
    Isolated P lib posts (s.commit i proof isNew rows) := by
  refine ⟨fun j => ?_, fun j k hjk => ?_⟩
  · by_cases hj : j = i
    · subst hj
      show Sound P lib (posts j) _ ((s.setPhase j .committed).phase j)
      rw [setPhase_self]
      trivial
    · show Sound P lib (posts j) _ ((s.setPhase i .committed).phase j)
      rw [setPhase_of_ne _ hj]
      exact (h.sound j).commit (h.compatible i j (Ne.symm hj)) hproof hrows
  · have hphases : Isolated P lib posts (s.setPhase i .committed) :=
      h.setPhase trivial fun _ _ => .of_none rfl rfl
    exact hphases.compatible j k hjk

end Commits

/-- **Every statement keeps the transactions apart.** -/
theorem Isolated.next {s : Posting ι} (h : Isolated P lib posts s) (i : ι) :
    Isolated P lib posts ((machine P lib posts).next s i) := by
  have hstep := step_next P lib posts s i
  have hsound := h.sound i
  have hcompatible := fun j (hj : j ≠ i) => h.compatible i j (Ne.symm hj)
  generalize (machine P lib posts).next s i = s', (machine P lib posts).log s i = new at hstep ⊢
  cases hstep with
  | stays h' => exact h
  | raises h' => exact h.setPhase trivial fun _ _ => .of_none rfl rfl
  | meetsProof hphase hproof hstored =>
      refine h.setPhase ⟨hproof, ?_⟩ fun _ _ => .of_none rfl rfl
      exact iff_of_false Bool.false_ne_true fun hnot => hnot hstored
  | insertsProof hphase hproof hnew hfree =>
      refine h.setPhase ⟨hproof, iff_of_true rfl hnew⟩ fun j hj => ⟨?_, fun _ _ h => nomatch h⟩
      intro proof proof' hp hp' hkey
      cases hp
      refine hfree ⟨j, hj, ?_⟩
      rw [hp', Option.map_some, hkey]
  | @meetsTx proof isNew hphase hstored =>
      rw [hphase] at hsound hcompatible
      refine h.setPhase ⟨hsound, hstored⟩ fun j hj => (hcompatible j hj).mono (fun p hp => ?_) rfl
      cases isNew with
      | true => exact hp
      | false => exact hp
  | @missesTx proof isNew hphase =>
      rw [hphase] at hsound hcompatible
      refine h.setPhase hsound fun j hj => (hcompatible j hj).mono (fun p hp => ?_) rfl
      cases isNew with
      | true => exact hp
      | false => exact hp
  | @insertsTx proof isNew row hphase hrow hnew hfree =>
      rw [hphase] at hsound hcompatible
      refine h.setPhase ⟨hsound, hnew, hrow⟩ fun j hj => ⟨fun p p' hp hp' => ?_, ?_⟩
      · cases isNew with
        | true => exact (hcompatible j hj).proofs p p' hp hp'
        | false => exact nomatch hp
      · intro r r' hr hr' hid
        cases hr
        refine hfree ⟨j, hj, ?_⟩
        rw [hr', Option.map_some, ← hid, txRow_id hrow]
  | @commits proof isNew hphase =>
      refine h.commit (fun hnew => ?_) fun row hrow => nomatch hrow
      rw [hphase, hnew]
      rfl
  | @commitsTx proof isNew row hphase =>
      refine h.commit (fun hnew => ?_) fun row' hrow' => ?_
      · rw [hphase, hnew]
        rfl
      · rw [hphase, List.mem_singleton.mp hrow']
        rfl

/-! ## The order of the commits -/

theorem HoldsProof.insertNew {tx : TxRequest} {db : Database} {proof : ProofRow} {isNew : Bool}
    (h : HoldsProof lib tx db proof isNew) :
    insertNew ProofRow.key db.proofs proof =
      if isNew then db.proofs ++ [proof] else db.proofs := by
  cases isNew with
  | true => exact insertNew_of_not_stored (h.2.mp rfl)
  | false => exact insertNew_of_stored (not_not.mp fun hnew => Bool.false_ne_true (h.2.mpr hnew))

omit [Fintype ι] in
/-- A transaction that looked and found commits what its post does to the tables. -/
theorem upsert_commit {s : Posting ι} {i : ι} {proof : ProofRow} {isNew : Bool}
    (h : Sound P lib (posts i) s.db (.txPresent proof isNew)) :
    upsertTxWithProof P lib s.db (posts i) = .ok (s.commit i proof isNew []).db := by
  refine upsertTxWithProof_eq_ok.mpr ⟨proof, h.1.1, Or.inl ⟨h.2, ?_⟩⟩
  rw [h.1.insertNew, Posting.commit, List.append_nil]

omit [Fintype ι] in
theorem upsert_commitTx {s : Posting ι} {i : ι} {proof : ProofRow} {isNew : Bool} {row : TxRow}
    (h : Sound P lib (posts i) s.db (.txInserted proof isNew row)) :
    upsertTxWithProof P lib s.db (posts i) = .ok (s.commit i proof isNew [row]).db := by
  refine upsertTxWithProof_eq_ok.mpr ⟨proof, h.1.1, Or.inr ⟨h.2.1, row, h.2.2, ?_⟩⟩
  rw [h.1.insertNew]
  rfl

variable (P lib posts) in
/-- The tables are those of the posts committed so far, in the order of the commits. -/
structure Serial (db : Database) (log : List ι) (s : Posting ι) : Prop where
  isolated : Isolated P lib posts s
  committed : ∀ i, i ∈ log ↔ s.phase i = .committed
  tables : upsertAll P lib db (log.map posts) = .ok s.db

omit [DecidableEq ι] [Fintype ι] in
theorem serial_start (db : Database) : Serial P lib posts db [] (start db) where
  isolated := isolated_start db
  committed _ := iff_of_false List.not_mem_nil nofun
  tables := rfl

omit [Fintype ι] in
/-- A new phase that is not a commit, of a transaction that has not committed. -/
theorem committed_setPhase {s : Posting ι} {i : ι} {p : Phase} {log : List ι}
    (h : ∀ j, j ∈ log ↔ s.phase j = .committed) (hi : s.phase i ≠ .committed)
    (hp : p ≠ .committed) (j : ι) : j ∈ log ↔ (s.setPhase i p).phase j = .committed := by
  rw [h j]
  by_cases hj : j = i
  · subst hj
    rw [setPhase_self]
    exact iff_of_false hi hp
  · rw [setPhase_of_ne p hj]

omit [Fintype ι] in
theorem committed_commit {s : Posting ι} {i : ι} {log : List ι}
    (h : ∀ j, j ∈ log ↔ s.phase j = .committed) (j : ι) :
    j ∈ log ++ [i] ↔ (s.setPhase i .committed).phase j = .committed := by
  rw [List.mem_append, List.mem_singleton, h j]
  by_cases hj : j = i
  · subst hj
    rw [setPhase_self]
    exact iff_of_true (Or.inr rfl) rfl
  · rw [setPhase_of_ne _ hj, or_iff_left hj]

omit [DecidableEq ι] [Fintype ι] in
theorem Raises.not_committed {s : Posting ι} {i : ι} (h : Raises P lib posts s i) :
    s.phase i ≠ .committed := by
  intro hphase
  refine not_raises ?_ h
  rw [hphase]
  exact id

theorem Serial.next {db : Database} {log : List ι} {s : Posting ι}
    (h : Serial P lib posts db log s) (i : ι) :
    Serial P lib posts db (log ++ (machine P lib posts).log s i)
      ((machine P lib posts).next s i) := by
  have hisolated := h.isolated.next i
  have hsound := h.isolated.sound i
  have hstep := step_next P lib posts s i
  generalize (machine P lib posts).next s i = s', (machine P lib posts).log s i = new
    at hstep hisolated ⊢
  -- every step but a commit leaves the tables and the log
  have hmoves : ∀ p : Phase, s.phase i ≠ .committed → p ≠ .committed →
      Isolated P lib posts (s.setPhase i p) → Serial P lib posts db (log ++ []) (s.setPhase i p) := by
    intro p hi hp hs
    rw [List.append_nil]
    exact ⟨hs, committed_setPhase h.committed hi hp, h.tables⟩
  cases hstep with
  | stays h' =>
      rw [List.append_nil]
      exact h
  | raises h' => exact hmoves _ h'.not_committed nofun hisolated
  | meetsProof hphase hproof hstored =>
      exact hmoves _ (by rw [hphase]; nofun) nofun hisolated
  | insertsProof hphase hproof hnew hfree =>
      exact hmoves _ (by rw [hphase]; nofun) nofun hisolated
  | meetsTx hphase hstored => exact hmoves _ (by rw [hphase]; nofun) nofun hisolated
  | missesTx hphase => exact hmoves _ (by rw [hphase]; nofun) nofun hisolated
  | insertsTx hphase hrow hnew hfree =>
      exact hmoves _ (by rw [hphase]; nofun) nofun hisolated
  | commits hphase =>
      rw [hphase] at hsound
      refine ⟨hisolated, committed_commit h.committed, ?_⟩
      rw [List.map_append]
      exact upsertAll_append.mpr ⟨s.db, h.tables, upsertAll_singleton.mpr (upsert_commit hsound)⟩
  | commitsTx hphase =>
      rw [hphase] at hsound
      refine ⟨hisolated, committed_commit h.committed, ?_⟩
      rw [List.map_append]
      exact upsertAll_append.mpr ⟨s.db, h.tables, upsertAll_singleton.mpr (upsert_commitTx hsound)⟩

variable (P lib posts) in
/-- **Whatever the schedule, the tables are those of the committed posts, one after
the other in the order of their commits.** -/
theorem serial_run (db : Database) (schedule : List ι) :
    Serial P lib posts db ((machine P lib posts).history (start db) schedule)
      ((machine P lib posts).run (start db) schedule) := by
  refine (machine P lib posts).history_of_step (Serial P lib posts db) ?_ (serial_start db) schedule
  exact fun log s i hs => hs.next i

/-! ## What is lost -/

/-- The transaction has failed. -/
def Failed (s : Posting ι) (i : ι) : Prop := ∃ e, s.phase i = .failed e

omit [Fintype ι] in
theorem failed_setPhase_iff {s : Posting ι} {i j : ι} {p : Phase} (hp : ∀ e, p ≠ .failed e)
    (hj : ∀ e, s.phase j ≠ .failed e) : Failed (s.setPhase j p) i ↔ Failed s i := by
  unfold Failed
  by_cases hi : i = j
  · subst hi
    rw [setPhase_self]
    exact iff_of_false (fun h => h.elim hp) fun h => h.elim hj
  · rw [setPhase_of_ne p hi]

/-- A transaction fails by a statement of its own, and for good. -/
theorem failed_next_iff {s : Posting ι} {i j : ι} :
    Failed ((machine P lib posts).next s j) i ↔
      Failed s i ∨ j = i ∧ Raises P lib posts s i := by
  have hstep := step_next P lib posts s j
  generalize (machine P lib posts).next s j = s', (machine P lib posts).log s j = new at hstep ⊢
  have hquiet : ¬ Raises P lib posts s j →
      (Failed s i ∨ j = i ∧ Raises P lib posts s i ↔ Failed s i) := by
    intro hj
    refine or_iff_left fun h => ?_
    rw [h.1] at hj
    exact hj h.2
  -- but for a failure, the new phase is not a failed one, and the old one was not
  have hmoves : ∀ p : Phase, (∀ e, p ≠ .failed e) → (∀ e, s.phase j ≠ .failed e) →
      ¬ Raises P lib posts s j →
        (Failed (s.setPhase j p) i ↔ Failed s i ∨ j = i ∧ Raises P lib posts s i) :=
    fun p hp hj hraises => (failed_setPhase_iff hp hj).trans (hquiet hraises).symm
  cases hstep with
  | stays h => exact (hquiet h).symm
  | @raises e h =>
      by_cases hi : j = i
      · subst hi
        exact iff_of_true ⟨e, setPhase_self s j _⟩ (Or.inr ⟨rfl, h⟩)
      · unfold Failed
        rw [setPhase_of_ne _ (Ne.symm hi), or_iff_left fun h => hi h.1]
  | meetsProof hphase hproof hstored =>
      exact hmoves _ nofun (by rw [hphase]; nofun) (not_raises_of_proofRow hphase hproof)
  | insertsProof hphase hproof hnew hfree =>
      exact hmoves _ nofun (by rw [hphase]; nofun) (not_raises_of_proofRow hphase hproof)
  | meetsTx hphase hstored =>
      exact hmoves _ nofun (by rw [hphase]; nofun)
        (not_raises (by rw [hphase]; exact id))
  | missesTx hphase =>
      exact hmoves _ nofun (by rw [hphase]; nofun)
        (not_raises (by rw [hphase]; exact id))
  | insertsTx hphase hrow hnew hfree =>
      exact hmoves _ nofun (by rw [hphase]; nofun) (not_raises_of_txRow hphase hrow hnew)
  | commits hphase =>
      exact hmoves .committed nofun (by rw [hphase]; nofun)
        (not_raises (by rw [hphase]; exact id))
  | commitsTx hphase =>
      exact hmoves .committed nofun (by rw [hphase]; nofun)
        (not_raises (by rw [hphase]; exact id))

variable (P lib posts) in
/-- **A transaction has failed after a run if and only if one of its statements did.** -/
theorem failed_run_iff (s : Posting ι) (i : ι) (schedule : List ι) :
    Failed ((machine P lib posts).run s schedule) i ↔
      Failed s i ∨
        ¬ (machine P lib posts).Along (fun s j => j = i → ¬ Raises P lib posts s i) s schedule := by
  induction schedule generalizing s with
  | nil => exact (or_iff_left fun h => h trivial).symm
  | cons j schedule ih =>
      rw [Machine.run_cons, ih, failed_next_iff, or_assoc]
      refine or_congr_right ?_
      show _ ↔ ¬ ((j = i → ¬ Raises P lib posts s i) ∧ _)
      rw [not_and_or, Classical.not_imp, not_not]

/-! ## Every proof is stored -/

variable (P lib posts) in
/-- **Every proof is stored, unless a statement of its post failed.**  Once all
transactions have finished, the proofs of all posts are in the table if and only if
every one was there before or was posted by a transaction no statement of which
failed: whose post can be stored, and which no other transaction overtook between
its look at `txs` and its insert. -/
theorem all_stored_iff (hvalidators : Function.Injective fun i => ((posts i).type, (posts i).signer))
    (db : Database) {schedule : List ι}
    (hfinished : ∀ i, (((machine P lib posts).run (start db) schedule).phase i).Finished) :
    (∀ i, Stored ProofRow.key ((machine P lib posts).run (start db) schedule).db.proofs
        (posts i).proofKey) ↔
      ∀ i, Stored ProofRow.key db.proofs (posts i).proofKey ∨
        (machine P lib posts).Along (fun s j => j = i → ¬ Raises P lib posts s i) (start db)
          schedule := by
  have hserial := serial_run P lib posts db schedule
  refine forall_congr' fun i => ?_
  have hfailed := failed_run_iff P lib posts (start db) i schedule
  rw [or_iff_right (fun h : Failed (start db) i => nomatch h)] at hfailed
  -- a finished transaction has committed if and only if it has not failed
  have hcommitted : ((machine P lib posts).run (start db) schedule).phase i = .committed ↔
      ¬ Failed ((machine P lib posts).run (start db) schedule) i := by
    have hfinishedi := hfinished i
    unfold Failed
    cases hphase : ((machine P lib posts).run (start db) schedule).phase i with
    | committed => exact iff_of_true rfl fun h => nomatch h
    | failed e => exact iff_of_false nofun fun h => h ⟨e, rfl⟩
    | begun => rw [hphase] at hfinishedi; exact hfinishedi.elim
    | proofInserted proof isNew => rw [hphase] at hfinishedi; exact hfinishedi.elim
    | txAbsent proof isNew => rw [hphase] at hfinishedi; exact hfinishedi.elim
    | txPresent proof isNew => rw [hphase] at hfinishedi; exact hfinishedi.elim
    | txInserted proof isNew row => rw [hphase] at hfinishedi; exact hfinishedi.elim
  rw [stored_proofs_upsertAll hserial.tables]
  refine or_congr_right ?_
  calc (∃ tx ∈ ((machine P lib posts).history (start db) schedule).map posts,
          tx.proofKey = (posts i).proofKey)
      ↔ i ∈ (machine P lib posts).history (start db) schedule := by
        constructor
        · intro ⟨tx, htx, hkey⟩
          obtain ⟨j, hj, rfl⟩ := List.mem_map.mp htx
          -- a key tells the validator, and the validator the post
          have hsame := hvalidators (Prod.ext (congrArg ProofKey.type hkey)
            (congrArg ProofKey.signer hkey))
          rwa [← hsame]
        · exact fun hi => ⟨posts i, List.mem_map_of_mem hi, rfl⟩
    _ ↔ ((machine P lib posts).run (start db) schedule).phase i = .committed :=
        hserial.committed i
    _ ↔ ¬ Failed ((machine P lib posts).run (start db) schedule) i := hcommitted
    _ ↔ _ := (not_congr hfailed).trans not_not

section Samples
open Sample

def twoPosts (i : Fin 2) : TxRequest := if i = 0 then bisPost else unisatPost

theorem twoPosts_validators :
    Function.Injective fun i => ((twoPosts i).type, (twoPosts i).signer) := by
  decide

/-- One transaction after the other. -/
def oneByOne : List (Fin 2) := [0, 0, 0, 0, 1, 1, 1]

theorem all_stored_oneByOne :
    (machine primitives bitcoinLib twoPosts).Along
        (fun s j => j = 0 → ¬ Raises primitives bitcoinLib twoPosts s 0) (start .empty) oneByOne ∧
      (machine primitives bitcoinLib twoPosts).Along
        (fun s j => j = 1 → ¬ Raises primitives bitcoinLib twoPosts s 1) (start .empty)
        oneByOne := by
  have hall := (@all_stored_iff (Fin 2) _ primitives _ bitcoinLib twoPosts twoPosts_validators
    .empty oneByOne (by decide +kernel)).mp (by decide +kernel)
  exact ⟨(hall 0).resolve_left nofun, (hall 1).resolve_left nofun⟩

/-- Both look for the row of the event before either has inserted it. -/
def crossed : List (Fin 2) := [0, 1, 0, 1, 0, 0, 1]

/-- **Both posts are valid and both transactions finish, but one proof is lost.** -/
theorem proof_lost_crossed :
    (∀ i, validateOrderHash primitives (twoPosts i) = .ok ()) ∧
      (∀ i, (((machine primitives bitcoinLib twoPosts).run (start .empty) crossed).phase
        i).Finished) ∧
      ¬ ∀ i, Stored ProofRow.key
        ((machine primitives bitcoinLib twoPosts).run (start .empty) crossed).db.proofs
        (twoPosts i).proofKey :=
  ⟨by decide +kernel, by decide +kernel, by decide +kernel⟩

end Samples

end Posting
end Indexer
end BitcoinOracle
