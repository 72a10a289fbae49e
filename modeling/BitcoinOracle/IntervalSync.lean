import BitcoinOracle.IndexerTables
import BitcoinOracle.LoggedRun

/-! # Interval sync

A validator works through the blocks and posts a proof for every transfer.  It keeps no
record of its own: where a sync starts is the height of the latest proof that is stored
of its type, and the first sync after a start goes back some blocks.  It may stop
anywhere and be started again.

Blocks without transfers leave no proof, and a block with transfers leaves one before it
is finished.  Still no height is left out, since the latest proof is of a block that the
validator has come to in order (`interval_sync_no_gap`).
-/
namespace BitcoinOracle
open Clarity KeyedTable

namespace Indexer

/-- The heights of the stored proofs of a type. -/
def proofHeights (type : ValidatorName) (db : Database) : List Int :=
  (db.proofs.filter fun p => p.type = type).map ProofRow.height

/-- `getLatestBlockNumberOfProof`. -/
def getLatestBlockNumberOfProof (type : ValidatorName) (db : Database) : Option Int :=
  (proofHeights type db).max?

theorem mem_proofHeights {type : ValidatorName} {db : Database} {height : Int} :
    height ∈ proofHeights type db ↔ ∃ p ∈ db.proofs, p.type = type ∧ p.height = height := by
  simp [proofHeights, and_assoc]

/-- A post stores at most one proof, with its own type and height. -/
theorem mem_proofs_of_postTx {P : Primitives} {lib : BitcoinLib} {db db' : Database}
    {tx : TxRequest} (h : postTx P lib db tx = .ok db') {p : ProofRow} (hp : p ∈ db'.proofs) :
    p ∈ db.proofs ∨ p.event = tx.event ∧ p.type = tx.type ∧ p.height = tx.height := by
  obtain ⟨proof, hproof, hdb⟩ := upsertTxWithProof_eq_ok.mp (postTx_eq_ok h)
  have hproofs : db'.proofs = insertNew ProofRow.key db.proofs proof := by
    rcases hdb with ⟨-, rfl⟩ | ⟨-, row, -, rfl⟩
    · rfl
    · rfl
  rw [hproofs] at hp
  rcases mem_of_mem_insertNew hp with hold | rfl
  · exact Or.inl hold
  · obtain ⟨fromAddress, toAddress, txId, rfl⟩ := exists_proofRow hproof
    exact Or.inr ⟨rfl, rfl, rfl⟩

theorem mem_proofHeights_of_postTx {P : Primitives} {lib : BitcoinLib} {db db' : Database}
    {tx : TxRequest} (h : postTx P lib db tx = .ok db') {type : ValidatorName} {height : Int}
    (hmem : height ∈ proofHeights type db') :
    height ∈ proofHeights type db ∨ tx.type = type ∧ height = tx.height := by
  obtain ⟨p, hp, htype, rfl⟩ := mem_proofHeights.mp hmem
  rcases mem_proofs_of_postTx h hp with hold | ⟨-, hnew, hheight⟩
  · exact Or.inl (mem_proofHeights.mpr ⟨p, hold, htype, rfl⟩)
  · exact Or.inr ⟨hnew.symm.trans htype, hheight⟩

end Indexer

namespace IntervalSync
open Indexer

/-- The environment of a validator. -/
structure Config where
  name : ValidatorName
  genesisBlockHeight : Int
  startingSyncBackBlockHeight : Nat

def getFromBlockHeight (c : Config) (hasFinishedAtLeastOneSync : Bool) (db : Database) : Int :=
  match getLatestBlockNumberOfProof c.name db with
  | none => c.genesisBlockHeight
  | some latestBlockNumber =>
      if hasFinishedAtLeastOneSync = true then latestBlockNumber
      else latestBlockNumber - c.startingSyncBackBlockHeight

inductive Process where
  | down
  /-- `syncOnce` is next. -/
  | ready
  /-- `processBlock$` is at work at a height. -/
  | syncing (height toBlockHeight : Int)
  /-- A sync is over, and the interval passes. -/
  | waiting
  deriving DecidableEq

/-- The height of the block that is being processed. -/
def Process.current : Process → Option Int
  | .syncing height _ => some height
  | _ => none

structure State where
  db : Database
  hasFinishedAtLeastOneSync : Bool
  process : Process
  /-- The heights `processBlock$` has completed for. -/
  completed : List Int
  /-- The upper bounds of the syncs that were not skipped and have completed. -/
  synced : List Int
  deriving DecidableEq

def start : State := ⟨.empty, false, .down, [], []⟩

inductive Action where
  | start
  /-- The two heights a sync goes by are read. -/
  | syncOnce (toBlockHeight : Int)
  /-- The validator posts a transfer of its block, or another one posts. -/
  | post (tx : TxRequest)
  /-- `processBlock$` completes. -/
  | complete
  | interval
  /-- A crash, or an error that ends the loop. -/
  | stop

namespace State
variable (P : Primitives) (lib : BitcoinLib) (c : Config) (s : State)

/-- Proofs of the validator's type are posted while their block is processed. -/
def CanPost (tx : TxRequest) : Prop := tx.type = c.name → s.process.current = some tx.height

instance (tx : TxRequest) : Decidable (s.CanPost c tx) := inferInstanceAs (Decidable (_ → _))

/-- An action that is not possible changes nothing. -/
def next : Action → State
  | .start =>
      match s.process with
      | .down => { s with process := .ready, hasFinishedAtLeastOneSync := false }
      | _ => s
  | .syncOnce toBlockHeight =>
      match s.process with
      | .ready =>
          let fromBlockHeight := getFromBlockHeight c s.hasFinishedAtLeastOneSync s.db
          if toBlockHeight ≤ fromBlockHeight then { s with process := .waiting }
          else { s with process := .syncing fromBlockHeight toBlockHeight }
      | _ => s
  | .post tx =>
      if s.CanPost c tx then
        match postTx P lib s.db tx with
        | .ok db => { s with db := db }
        | .error _ => s
      else s
  | .complete =>
      match s.process with
      | .syncing height toBlockHeight =>
          if height < toBlockHeight then
            { s with
              process := .syncing (height + 1) toBlockHeight
              completed := s.completed ++ [height] }
          else
            { s with
              process := .waiting
              completed := s.completed ++ [height]
              synced := s.synced ++ [toBlockHeight] }
      | _ => s
  | .interval =>
      match s.process with
      | .waiting => { s with process := .ready, hasFinishedAtLeastOneSync := true }
      | _ => s
  | .stop => { s with process := .down }

end State

def machine (P : Primitives) (lib : BitcoinLib) (c : Config) : Machine State Action Unit where
  next := State.next P lib c
  log _ _ := []

/-- Every sync that has completed has covered all heights from the genesis block on, and
so has what came before the latest proof. -/
structure NoGap (c : Config) (s : State) : Prop where
  synced : ∀ toBlockHeight ∈ s.synced, ∀ height, c.genesisBlockHeight ≤ height →
    height ≤ toBlockHeight → height ∈ s.completed
  latest : ∀ latestBlockNumber, getLatestBlockNumberOfProof c.name s.db = some latestBlockNumber →
    ∀ height, c.genesisBlockHeight ≤ height → height < latestBlockNumber → height ∈ s.completed

/-! ## What holds of every run -/

/-- All heights below one, from the genesis block on, are completed. -/
def CompletedBelow (c : Config) (s : State) (bound : Int) : Prop :=
  ∀ height, c.genesisBlockHeight ≤ height → height < bound → height ∈ s.completed

/-- Everything below a stored proof and below the present block is completed. -/
structure Sound (c : Config) (s : State) : Prop where
  proofs : ∀ height ∈ proofHeights c.name s.db, CompletedBelow c s height
  current : ∀ height toBlockHeight, s.process = .syncing height toBlockHeight →
    height ≤ toBlockHeight ∧ CompletedBelow c s height
  synced : ∀ toBlockHeight ∈ s.synced, CompletedBelow c s (toBlockHeight + 1)

section
variable {P : Primitives} {lib : BitcoinLib} {c : Config} {s : State}

theorem CompletedBelow.append {bound : Int} (h : CompletedBelow c s bound) {s' : State}
    {heights : List Int} (hcompleted : s'.completed = s.completed ++ heights) :
    CompletedBelow c s' bound := by
  intro height hlow hhigh
  rw [hcompleted]
  exact List.mem_append_left _ (h height hlow hhigh)

/-- A block that completes moves the bound behind it. -/
theorem CompletedBelow.succ {bound : Int} (h : CompletedBelow c s bound) {s' : State}
    (hcompleted : s'.completed = s.completed ++ [bound]) : CompletedBelow c s' (bound + 1) := by
  intro height hlow hhigh
  rw [hcompleted]
  by_cases heq : height = bound
  · exact List.mem_append_right _ (List.mem_singleton.mpr heq)
  · exact List.mem_append_left _ (h height hlow (by omega))

theorem CompletedBelow.mono {bound bound' : Int} (h : CompletedBelow c s bound)
    (hle : bound' ≤ bound) : CompletedBelow c s bound' :=
  fun height hlow hhigh => h height hlow (by omega)

/-- A sync starts at a height below which all is completed. -/
theorem Sound.completedBelow_from (h : Sound c s) :
    CompletedBelow c s (getFromBlockHeight c s.hasFinishedAtLeastOneSync s.db) := by
  unfold getFromBlockHeight
  split
  · intro height hlow hhigh
    omega
  · next latestBlockNumber hlatest =>
      have hbelow := h.proofs _ (List.max?_mem hlatest)
      split
      · exact hbelow
      · exact hbelow.mono (by omega)

/-- What is not the process, the tables or the completed heights does not matter. -/
theorem Sound.of_idle (h : Sound c s) {s' : State} (hdb : s'.db = s.db)
    (hcompleted : s'.completed = s.completed) (hsynced : s'.synced = s.synced)
    (hidle : s'.process.current = none) : Sound c s' := by
  have hbelow : ∀ bound, CompletedBelow c s bound → CompletedBelow c s' bound :=
    fun bound hbound => hbound.append (hcompleted.trans (List.append_nil _).symm)
  refine ⟨fun height hmem => hbelow _ (h.proofs height (hdb ▸ hmem)), ?_,
    fun toBlockHeight hmem => hbelow _ (h.synced toBlockHeight (hsynced ▸ hmem))⟩
  intro height toBlockHeight hprocess
  rw [hprocess] at hidle
  cases hidle

theorem Sound.post (h : Sound c s) {tx : TxRequest} (hcan : s.CanPost c tx) {db : Database}
    (hpost : postTx P lib s.db tx = .ok db) : Sound c { s with db := db } := by
  refine ⟨fun height hmem => ?_, h.current, h.synced⟩
  rcases mem_proofHeights_of_postTx hpost hmem with hold | ⟨htype, rfl⟩
  · exact h.proofs height hold
  · -- of the validator itself: the block is the present one
    cases hprocess : s.process with
    | syncing height toBlockHeight =>
        have hcurrent := hcan htype
        rw [hprocess] at hcurrent
        obtain rfl := Option.some.inj hcurrent
        exact (h.current tx.height toBlockHeight hprocess).2
    | down | ready | waiting =>
        have hcurrent := hcan htype
        rw [hprocess] at hcurrent
        cases hcurrent

theorem Sound.complete (h : Sound c s) {height toBlockHeight : Int}
    (hprocess : s.process = .syncing height toBlockHeight) {s' : State} (hdb : s'.db = s.db)
    (hcompleted : s'.completed = s.completed ++ [height])
    (hnext : height < toBlockHeight ∧ s'.process = .syncing (height + 1) toBlockHeight ∧
        s'.synced = s.synced ∨
      ¬ height < toBlockHeight ∧ s'.process = .waiting ∧
        s'.synced = s.synced ++ [toBlockHeight]) : Sound c s' := by
  obtain ⟨hle, hbelow⟩ := h.current height toBlockHeight hprocess
  have hdone : CompletedBelow c s' (height + 1) := hbelow.succ hcompleted
  have hproofs : ∀ height ∈ proofHeights c.name s'.db, CompletedBelow c s' height :=
    fun _ hmem => (h.proofs _ (hdb ▸ hmem)).append hcompleted
  rcases hnext with ⟨hmore, hsyncing, hsynced⟩ | ⟨hlast, hwaiting, hsynced⟩
  · refine ⟨hproofs, fun height' toBlockHeight' heq => ?_,
      fun _ hmem => (h.synced _ (hsynced ▸ hmem)).append hcompleted⟩
    obtain ⟨rfl, rfl⟩ := Process.syncing.inj (hsyncing.symm.trans heq)
    exact ⟨by omega, hdone⟩
  · refine ⟨hproofs, fun height' toBlockHeight' heq => ?_, fun bound hmem => ?_⟩
    · rw [hwaiting] at heq
      cases heq
    · rw [hsynced] at hmem
      rcases List.mem_append.mp hmem with hold | hnew
      · exact (h.synced bound hold).append hcompleted
      · obtain rfl := List.mem_singleton.mp hnew
        exact hdone.mono (by omega)

theorem Sound.next (h : Sound c s) (a : Action) : Sound c (s.next P lib c a) := by
  cases a with
  | start =>
      dsimp only [State.next]
      split
      · exact h.of_idle rfl rfl rfl rfl
      · exact h
  | syncOnce toBlockHeight =>
      dsimp only [State.next]
      split
      · split
        · exact h.of_idle rfl rfl rfl rfl
        · next hmore =>
            refine ⟨h.proofs, fun height toBlockHeight' heq => ?_, h.synced⟩
            obtain ⟨rfl, rfl⟩ := Process.syncing.inj heq
            exact ⟨by omega, h.completedBelow_from⟩
      · exact h
  | post tx =>
      dsimp only [State.next]
      split
      · next hcan =>
          split
          · next db hpost => exact h.post hcan hpost
          · exact h
      · exact h
  | complete =>
      dsimp only [State.next]
      split
      · next height toBlockHeight hprocess =>
          split
          · next hmore => exact h.complete hprocess rfl rfl (Or.inl ⟨hmore, rfl, rfl⟩)
          · next hlast => exact h.complete hprocess rfl rfl (Or.inr ⟨hlast, rfl, rfl⟩)
      · exact h
  | interval =>
      dsimp only [State.next]
      split
      · exact h.of_idle rfl rfl rfl rfl
      · exact h
  | stop => exact h.of_idle rfl rfl rfl rfl

theorem sound_start (c : Config) : Sound c start where
  proofs _ hmem := (nomatch hmem)
  current _ _ hprocess := (nomatch hprocess)
  synced _ hmem := (nomatch hmem)

theorem Sound.noGap (h : Sound c s) : NoGap c s where
  synced toBlockHeight hmem height hlow hhigh :=
    h.synced toBlockHeight hmem height hlow (by omega)
  latest _ hlatest := h.proofs _ (List.max?_mem hlatest)

end

/-- **The interval sync leaves no gap.**  For every run: any chain tips, posts of any
validators, crashes and restarts. -/
theorem interval_sync_no_gap (P : Primitives) (lib : BitcoinLib) (c : Config)
    (actions : List Action) : NoGap c ((machine P lib c).run start actions) :=
  ((machine P lib c).run_of_step (Sound c) (fun _ a h => h.next a) (sound_start c) actions).noGap

end IntervalSync
end BitcoinOracle
