import BitcoinOracle.IntervalSync

/-! # Re-sync

A re-sync goes once more through a range of blocks.  After an interruption it is to go on
at the height of the latest proof in the range, and every start asks the API for that.  The
query joins `txs` and `proofs` and names the column `height` without its table.  Since the
last migration both tables have one, so that PostgreSQL refuses the query, whatever is
stored.

So no start gets beyond its question.  A re-sync never reports that it is complete, and
what it would have to have done then, it never has to (`re_sync_covers`).
-/
namespace BitcoinOracle
open Clarity KeyedTable

/-! ## Names in a query -/

inductive ColumnError where
  | undefined
  | ambiguous
  deriving DecidableEq

/-- The table of a column that a query names without one. -/
def resolveColumn {τ κ : Type*} [DecidableEq κ] (columns : τ → List κ) (tables : List τ)
    (column : κ) : Except ColumnError τ :=
  match tables.filter fun table => column ∈ columns table with
  | [] => .error .undefined
  | [table] => .ok table
  | _ :: _ :: _ => .error .ambiguous

namespace Indexer

inductive Table where
  | txs
  | proofs
  deriving DecidableEq

inductive Column where
  | id
  | txHash
  | output
  | satpoint
  | header
  | txId
  | proofHashes
  | txIndex
  | treeDepth
  | error
  | fromUser
  | toUser
  | tick
  | amt
  | fromBal
  | toBal
  | decimals
  | fromAddress
  | toAddress
  | type
  | orderHash
  | signature
  | signer
  | signerPubkey
  | height
  | validated
  | createdAt
  | updatedAt
  deriving DecidableEq

/-- The columns of the tables when all migrations have run. -/
def Table.columns : Table → List Column
  | .txs => [.id, .txHash, .output, .satpoint, .txId, .header, .height, .proofHashes, .txIndex,
      .treeDepth, .error, .createdAt, .updatedAt]
  | .proofs => [.id, .txHash, .output, .satpoint, .fromUser, .toUser, .tick, .amt, .fromBal,
      .toBal, .decimals, .fromAddress, .toAddress, .txId, .type, .orderHash, .signature, .signer,
      .createdAt, .updatedAt, .validated, .signerPubkey, .height]

/-- Why `getLatestBlockInRange` throws. -/
inductive RangeError where
  | column (error : ColumnError)
  /-- The maximum of no heights is `null`, which the schema of the row does not take. -/
  | schema
  deriving DecidableEq

/-- The rows of the two tables joined, of proofs of a type and of blocks of a range. -/
def joinedInRange (P : Primitives) (type : ValidatorName) (low high : Int) (db : Database) :
    List (TxRow × ProofRow) :=
  db.txs.flatMap fun row =>
    (db.proofs.filter fun p => p.id P = row.id P ∧ p.type = type ∧ low ≤ row.height ∧
      row.height ≤ high).map fun p => (row, p)

/-- The `height` of one of the tables. -/
def Table.height : Table → TxRow × ProofRow → Int
  | .txs, (row, _) => row.height
  | .proofs, (_, p) => p.height

def getLatestBlockInRange (P : Primitives) (type : ValidatorName) (low high : Int)
    (db : Database) : Except RangeError Int :=
  match resolveColumn Table.columns [.txs, .proofs] .height with
  | .error e => .error (.column e)
  | .ok table =>
      match ((joinedInRange P type low high db).map table.height).max? with
      | some last => .ok last
      | none => .error .schema

/-- **The query is refused**, whatever is stored. -/
theorem getLatestBlockInRange_eq_error (P : Primitives) (type : ValidatorName) (low high : Int)
    (db : Database) : getLatestBlockInRange P type low high db = .error (.column .ambiguous) :=
  rfl

/-- Before the last migration `proofs` had no height. -/
example : resolveColumn (fun table => table.columns.filter fun column =>
    ¬ (table = .proofs ∧ column = .height)) [Table.txs, .proofs] Column.height =
      .ok .txs := by decide

end Indexer

namespace ReSync
open Indexer

/-! ## The heights of a range -/

/-- `Number(text)`, of digits. -/
def number (text : Text) : Nat := Nat.ofDigitChars 10 text 0

/-- `range(start, count)` with a text for its start: the first height and the one the
loop stops before. -/
def range (start : Text) (count : Nat) : Option (Nat × Nat) :=
  if count = 0 then none
  else
    let stop := Nat.toDigits 10 count ++ start
    if start < stop then some (number start, number stop) else none

/-! ## A re-sync -/

/-- The environment of a validator in re-sync mode. -/
structure Config where
  name : ValidatorName
  resyncStart : Nat
  resyncEnd : Nat

inductive Process where
  | down
  /-- `processBlock$` is at work at a height, and the loop ends before `stop`. -/
  | syncing (height stop : Nat)
  /-- The re-sync has reported its completion and exited. -/
  | completed
  deriving DecidableEq

def Process.current : Process → Option Nat
  | .syncing height _ => some height
  | _ => none

structure State where
  db : Database
  process : Process
  /-- The heights `processBlock$` has completed for in the re-sync. -/
  processed : List Nat
  deriving DecidableEq

def start (db : Database) : State := ⟨db, .down, []⟩

inductive Action where
  /-- The validator is started, and the API answers or it does not. -/
  | start (answers : Bool)
  /-- A transfer of the block is posted. -/
  | post (tx : TxRequest)
  /-- `processBlock$` completes. -/
  | complete
  /-- An interruption, or an error of a block. -/
  | stop

/-- `getLatestSyncBlockHeightInRange`, of the range of the re-sync. -/
def resyncResumeHeight (P : Primitives) (c : Config) (db : Database) : Option Nat :=
  (getLatestBlockInRange P c.name c.resyncStart c.resyncEnd db).toOption.map Int.toNat

/-- The heights the loop goes through when it resumes at `height`. -/
def loopFrom (c : Config) (height : Nat) : Option (Nat × Nat) :=
  range (Nat.toDigits 10 height) (c.resyncEnd + 1 - height)

namespace State
variable (P : Primitives) (lib : BitcoinLib) (c : Config) (s : State)

/-- `startReSync`.  Without an answer it is rejected. -/
def startReSync (answers : Bool) : State :=
  match if answers = true then resyncResumeHeight P c s.db else none with
  | none => { s with process := .down }
  | some height =>
      match loopFrom c height with
      | some (first, stop) => { s with process := .syncing first stop }
      | none => { s with process := .completed }

/-- An action that is not possible changes nothing. -/
def next : Action → State
  | .start answers =>
      match s.process with
      | .syncing _ _ => s
      | _ => s.startReSync P c answers
  | .post tx =>
      if tx.type = c.name ∧ s.process.current.map Nat.cast = some tx.height then
        match postTx P lib s.db tx with
        | .ok db => { s with db := db }
        | .error _ => s
      else s
  | .complete =>
      match s.process with
      | .syncing height stop =>
          { s with
            process := if height + 1 < stop then .syncing (height + 1) stop else .completed
            processed := s.processed ++ [height] }
      | _ => s
  | .stop =>
      match s.process with
      | .syncing _ _ => { s with process := .down }
      | _ => s

end State

def machine (P : Primitives) (lib : BitcoinLib) (c : Config) : Machine State Action Unit where
  next := State.next P lib c
  log _ _ := []

/-- A completed re-sync has processed every height of its range. -/
def Covers (c : Config) (s : State) : Prop :=
  s.process = .completed →
    ∀ height, c.resyncStart ≤ height → height ≤ c.resyncEnd → height ∈ s.processed

/-! ## No start gets an answer -/

section
variable {P : Primitives} {lib : BitcoinLib} {c : Config} {s : State}

theorem resyncResumeHeight_eq_none (db : Database) : resyncResumeHeight P c db = none := by
  rw [resyncResumeHeight, getLatestBlockInRange_eq_error]
  rfl

theorem startReSync_rejected (answers : Bool) :
    s.startReSync P c answers = { s with process := .down } := by
  unfold State.startReSync
  rw [resyncResumeHeight_eq_none, ite_self]

/-- The re-sync is at no block, and has been at none. -/
structure Rejected (s : State) : Prop where
  process : s.process = .down
  processed : s.processed = []

theorem Rejected.next (h : Rejected s) (a : Action) : Rejected (s.next P lib c a) := by
  cases a with
  | start answers =>
      rw [State.next, h.process]
      dsimp only
      rw [startReSync_rejected]
      exact ⟨rfl, h.processed⟩
  | post tx =>
      dsimp only [State.next]
      split
      · split
        · exact ⟨h.process, h.processed⟩
        · exact h
      · exact h
  | complete | stop =>
      rw [State.next, h.process]
      exact h

end

/-- **A re-sync that reports its completion has covered its range**: whatever the range, the
stored tables, the interruptions and the restarts, none ever does, and no block is ever
processed in one. -/
theorem re_sync_covers (P : Primitives) (lib : BitcoinLib) (c : Config) (db : Database)
    (actions : List Action) :
    let s := (machine P lib c).run (start db) actions
    Covers c s ∧ s.process = .down ∧ s.processed = [] := by
  intro s
  have hrejected : Rejected s :=
    (machine P lib c).run_of_step Rejected (fun _ a h => h.next a) ⟨rfl, rfl⟩ actions
  refine ⟨fun hcompleted => ?_, hrejected.process, hrejected.processed⟩
  rw [hrejected.process] at hcompleted
  cases hcompleted

end ReSync
end BitcoinOracle
