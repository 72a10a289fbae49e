import BitcoinOracle.HexInput
import BitcoinOracle.IndexerTables
import BitcoinOracle.OrderedAnswers
import Mathlib.Data.Rat.Defs
import Mathlib.Data.Set.Basic

/-! # Queries of validated transactions

A request of type `indexing` has up to five filters.  The controller is to reject it when
no filter is there, and the repository joins a condition for each filter that is there.
What counts as one is decided twice: the guard asks for three lists that are empty, where
the repository also takes an absent one for no filter, and it does not ask for
`from_or_to`.

So the request `{}` passes the guard, and there is nothing to join; and with
`from_or_to`, three empty lists are rejected (`answers_right_iff`).
-/
namespace BitcoinOracle
open Clarity Indexer HexInput

namespace IndexingQueries

/-! ## Requests -/

/-- What is not of the repository: `toUpperCase`, `OutScript.encode(Address().decode(val))`
and `Address().encode(OutScript.decode(val))`. -/
structure Library where
  toUpperCase : Text → Text
  decodeAddress : JsString → Option Bytes
  encodeAddress : Bytes → Option Text

/-- What `Number` makes of a value. -/
inductive Number where
  | nan
  | infinite (negative : Bool)
  | finite (value : ℚ)
  deriving DecidableEq

structure Body where
  tick : Option (List Text)
  fromUser : Option (List JsString)
  toUser : Option (List JsString)
  fromOrTo : Option (List JsString)
  height : Option (List ℚ)
  limit : Option Number
  deriving DecidableEq

/-- A request that `ValidatedTxsQuerySchema` accepts. -/
structure Query where
  tick : Option (List Text)
  fromUser : Option (List Bytes)
  toUser : Option (List Bytes)
  fromOrTo : Option (List Bytes)
  height : Option (List Int)
  limit : Number
  deriving DecidableEq

variable (L : Library)

/-- A string is a script in hex, or an address. -/
def pkScriptBufferSchema (val : JsString) : Option Bytes :=
  if val = [] then none
  else if [unit 'b', unit 'c'] <+: val.map lower then
    -- one that does not decode is read as hex then, but the issue stands
    L.decodeAddress val
  else (bufferHexSchema (.string val)).toOption

/-- `z.number().int()`. -/
def integer (q : ℚ) : Option Int := if q.den = 1 then some q.num else none

/-- `z.coerce.number().optional().default(10000)`. -/
def limitSchema : Option Number → Option Number
  | none => some (.finite 10000)
  | some .nan => none
  | some n => some n

def validatedTxsQuerySchema (body : Body) : Option Query := do
  let fromUser ← body.fromUser.mapM (List.mapM (pkScriptBufferSchema L))
  let toUser ← body.toUser.mapM (List.mapM (pkScriptBufferSchema L))
  let fromOrTo ← body.fromOrTo.mapM (List.mapM (pkScriptBufferSchema L))
  let height ← body.height.mapM (List.mapM integer)
  let limit ← limitSchema body.limit
  return {
    tick := body.tick.map (List.map L.toUpperCase)
    fromUser, toUser, fromOrTo, height, limit }

/-! ## Conditions -/

inductive Where where
  | tick (ticks : List Text)
  | fromUser (scripts : List Bytes)
  | toUser (scripts : List Bytes)
  | height (heights : List Int)
  | fromOrTo (scripts : List Bytes)
  deriving DecidableEq

def Where.holds (row : ValidatedRow) : Where → Bool
  | .tick ticks => row.tick ∈ ticks
  | .fromUser scripts => row.fromUser ∈ scripts
  | .toUser scripts => row.toUser ∈ scripts
  | .height heights => row.height ∈ heights
  | .fromOrTo scripts => row.fromUser ∈ scripts ∨ row.toUser ∈ scripts

/-- The condition of a filter, if it is there and not empty. -/
def condition {α : Type} (clause : List α → Where) : Option (List α) → List Where
  | some (a :: values) => [clause (a :: values)]
  | _ => []

def generateValidatedTxWheres (query : Query) : List Where :=
  condition .tick query.tick ++ condition .fromUser query.fromUser ++
    condition .toUser query.toUser ++ condition .height query.height ++
    condition .fromOrTo query.fromOrTo

/-! ## Answers -/

structure PKScriptAddress where
  pkscript : Text
  address : Text
  deriving DecidableEq

/-- A row as the API shows it, but for `created_at` and `updated_at`: the rows of the model
keep no times. -/
structure Response where
  txHash : Text
  orderHash : Text
  amt : Text
  bitcoinTx : Text
  decimals : Text
  fromUser : PKScriptAddress
  fromBal : Text
  offset : Text
  output : Text
  tick : Text
  toUser : PKScriptAddress
  toBal : Text
  txId : Text
  proofHashes : List Text
  txIndex : Text
  treeDepth : Text
  height : Text
  signers : List Text
  signerPubkeys : List Text
  signerTypes : List ValidatorName
  signatures : List Text
  deriving DecidableEq

def pkScriptBufferToAddressSchema (val : Bytes) : Option PKScriptAddress :=
  (L.encodeAddress val).map fun address => ⟨hex val, address⟩

def validatedTxsResponse (row : ValidatedRow) : Option Response := do
  let fromUser ← pkScriptBufferToAddressSchema L row.fromUser
  let toUser ← pkScriptBufferToAddressSchema L row.toUser
  return {
    txHash := hex row.event.txHash
    orderHash := hex row.orderHash
    amt := decimal row.amt
    bitcoinTx := hex row.bitcoinTx
    decimals := decimal row.decimals
    fromUser
    fromBal := decimal row.fromBal
    offset := decimal row.event.satpoint
    output := decimal row.event.output
    tick := L.toUpperCase row.tick
    toUser
    toBal := decimal row.toBal
    txId := hex row.txId
    proofHashes := row.proofHashes.map hex
    txIndex := decimal row.txIndex
    treeDepth := decimal row.treeDepth
    height := decimal row.height
    signers := row.signers
    signerPubkeys := row.signerPubkeys.map hex
    signerTypes := row.signerTypes
    signatures := row.signatures.map hex }

inductive Failure where
  /-- The body is not one of the schema. -/
  | body
  /-- `SQL.join` has nothing to join. -/
  | join
  /-- The limit is no `bigint` or a negative one, or a tick has a U+0000. -/
  | parameter
  /-- A row that the schema of the response does not take. -/
  | row
  deriving DecidableEq

inductive Outcome where
  | rejected (message : Text)
  | failed (failure : Failure)
  | ok (data : List Response)
  deriving DecidableEq

/-- How many rows the database takes. -/
def Number.count : Number → Option Nat
  | .finite value =>
      if value.den = 1 ∧ 0 ≤ value.num ∧ value.num < 2 ^ 63 then some value.num.toNat else none
  | _ => none

/-- PostgreSQL takes every tick as a `text`. -/
def Query.Textual (query : Query) : Prop := ∀ ticks ∈ query.tick, ∀ tick ∈ ticks, IsText tick

instance (query : Query) : Decidable query.Textual :=
  inferInstanceAs (Decidable (∀ ticks ∈ query.tick, _))

/-- How many rows the database takes, if it takes the parameters of the query. -/
def Query.parameters (query : Query) : Option Nat :=
  if query.Textual then query.limit.count else none

def transformRows (rows : List ValidatedRow) : Outcome :=
  match rows.mapM (validatedTxsResponse L) with
  | some data => .ok data
  | none => .failed .row

/-- `IndexerRepository.getValidatedTxs`, and what the database may answer. -/
def queried (db : Database) (query : Query) : Set Outcome :=
  match generateValidatedTxWheres query with
  | [] => {.failed .join}
  | wheres =>
      match query.parameters with
      | none => {.failed .parameter}
      | some limit => {outcome | ∃ rows,
          OrderedAnswers.Answer ValidatedRow.height limit
            (db.validatedTxs.filter fun row => wheres.all (Where.holds row)) rows ∧
          outcome = transformRows L rows}

/-- The guard of the controller. -/
def Query.Guarded (query : Query) : Prop :=
  query.tick.map List.length = some 0 ∧ query.fromUser.map List.length = some 0 ∧
    query.toUser.map List.length = some 0 ∧ query.height = none

instance (query : Query) : Decidable query.Guarded := inferInstanceAs (Decidable (_ ∧ _))

def invalidArgument : Text :=
  "At least one of tick, from, to, block_number must be provided".toList

/-- `MetaIndexerController.getValidatedTxs`. -/
def answers (db : Database) (body : Body) : Set Outcome :=
  match validatedTxsQuerySchema L body with
  | none => {.failed .body}
  | some query =>
      if query.Guarded then {.rejected invalidArgument} else queried L db query

/-! ## What it is to answer -/

/-- No filter is there, or it is empty. -/
structure Query.Unfiltered (query : Query) : Prop where
  tick : ∀ ticks ∈ query.tick, ticks = []
  fromUser : ∀ scripts ∈ query.fromUser, scripts = []
  toUser : ∀ scripts ∈ query.toUser, scripts = []
  height : ∀ heights ∈ query.height, heights = []
  fromOrTo : ∀ scripts ∈ query.fromOrTo, scripts = []

/-- The row satisfies every filter that is not empty. -/
structure Query.Satisfied (query : Query) (row : ValidatedRow) : Prop where
  tick : ∀ ticks ∈ query.tick, ticks ≠ [] → row.tick ∈ ticks
  fromUser : ∀ scripts ∈ query.fromUser, scripts ≠ [] → row.fromUser ∈ scripts
  toUser : ∀ scripts ∈ query.toUser, scripts ≠ [] → row.toUser ∈ scripts
  height : ∀ heights ∈ query.height, heights ≠ [] → row.height ∈ heights
  fromOrTo : ∀ scripts ∈ query.fromOrTo, scripts ≠ [] →
    row.fromUser ∈ scripts ∨ row.toUser ∈ scripts

theorem Query.unfiltered_iff {query : Query} : query.Unfiltered ↔
    (∀ ticks ∈ query.tick, ticks = []) ∧ (∀ scripts ∈ query.fromUser, scripts = []) ∧
      (∀ scripts ∈ query.toUser, scripts = []) ∧ (∀ heights ∈ query.height, heights = []) ∧
      ∀ scripts ∈ query.fromOrTo, scripts = [] :=
  ⟨fun ⟨h₁, h₂, h₃, h₄, h₅⟩ => ⟨h₁, h₂, h₃, h₄, h₅⟩,
    fun ⟨h₁, h₂, h₃, h₄, h₅⟩ => ⟨h₁, h₂, h₃, h₄, h₅⟩⟩

theorem Query.satisfied_iff {query : Query} {row : ValidatedRow} : query.Satisfied row ↔
    (∀ ticks ∈ query.tick, ticks ≠ [] → row.tick ∈ ticks) ∧
      (∀ scripts ∈ query.fromUser, scripts ≠ [] → row.fromUser ∈ scripts) ∧
      (∀ scripts ∈ query.toUser, scripts ≠ [] → row.toUser ∈ scripts) ∧
      (∀ heights ∈ query.height, heights ≠ [] → row.height ∈ heights) ∧
      ∀ scripts ∈ query.fromOrTo, scripts ≠ [] →
        row.fromUser ∈ scripts ∨ row.toUser ∈ scripts :=
  ⟨fun ⟨h₁, h₂, h₃, h₄, h₅⟩ => ⟨h₁, h₂, h₃, h₄, h₅⟩,
    fun ⟨h₁, h₂, h₃, h₄, h₅⟩ => ⟨h₁, h₂, h₃, h₄, h₅⟩⟩

instance (query : Query) : Decidable query.Unfiltered :=
  decidable_of_iff _ Query.unfiltered_iff.symm

instance (query : Query) (row : ValidatedRow) : Decidable (query.Satisfied row) :=
  decidable_of_iff _ Query.satisfied_iff.symm

/-- The rows that satisfy the filters. -/
def Query.matching (query : Query) (db : Database) : List ValidatedRow :=
  db.validatedTxs.filter fun row => query.Satisfied row

/-- Without a filter the request is rejected; with one the answer has the rows that satisfy
the filters, by descending height and up to the limit. -/
def Right (db : Database) (query : Query) (outcome : Outcome) : Prop :=
  (query.Unfiltered ∧ outcome = .rejected invalidArgument) ∨
    (¬ query.Unfiltered ∧ ∃ limit rows data, query.limit.count = some limit ∧
      OrderedAnswers.Answer ValidatedRow.height limit (query.matching db) rows ∧
      rows.mapM (validatedTxsResponse L) = some data ∧ outcome = .ok data)

/-- Both scripts of the row have an address. -/
def Addressed (row : ValidatedRow) : Prop :=
  (L.encodeAddress row.fromUser).isSome = true ∧ (L.encodeAddress row.toUser).isSome = true

instance (row : ValidatedRow) : Decidable (Addressed L row) := inferInstanceAs (Decidable (_ ∧ _))

/-! ## Conditions are filters -/

theorem condition_eq_nil_iff {α : Type} {clause : List α → Where} {filter : Option (List α)} :
    condition clause filter = [] ↔ ∀ values ∈ filter, values = [] := by
  rcases filter with _ | _ | ⟨a, values⟩ <;> simp [condition]

theorem all_condition_iff {α : Type} {clause : List α → Where} {filter : Option (List α)}
    {row : ValidatedRow} : (condition clause filter).all (Where.holds row) = true ↔
      ∀ values ∈ filter, values ≠ [] → (clause values).holds row = true := by
  rcases filter with _ | _ | ⟨a, values⟩ <;> simp [condition]

theorem generateValidatedTxWheres_eq_nil_iff {query : Query} :
    generateValidatedTxWheres query = [] ↔ query.Unfiltered := by
  rw [Query.unfiltered_iff, generateValidatedTxWheres]
  simp only [List.append_eq_nil_iff, condition_eq_nil_iff, and_assoc]

theorem all_holds_iff {query : Query} {row : ValidatedRow} :
    (generateValidatedTxWheres query).all (Where.holds row) = true ↔ query.Satisfied row := by
  rw [Query.satisfied_iff, generateValidatedTxWheres]
  simp only [List.all_append, Bool.and_eq_true, all_condition_iff, and_assoc, Where.holds,
    decide_eq_true_iff]

theorem filter_holds {db : Database} {query : Query} :
    (db.validatedTxs.filter fun row => (generateValidatedTxWheres query).all (Where.holds row)) =
      query.matching db := by
  refine List.filter_congr fun row _ => ?_
  rw [Bool.eq_iff_iff, all_holds_iff, decide_eq_true_iff]

/-! ## Rows are shown -/

variable {L}

theorem isSome_validatedTxsResponse {row : ValidatedRow} :
    (validatedTxsResponse L row).isSome = true ↔ Addressed L row := by
  unfold validatedTxsResponse Addressed pkScriptBufferToAddressSchema
  cases L.encodeAddress row.fromUser <;> cases L.encodeAddress row.toUser <;> simp

theorem isSome_mapM {α β : Type} {f : α → Option β} {l : List α} :
    (l.mapM f).isSome = true ↔ ∀ a ∈ l, (f a).isSome = true := by
  induction l with
  | nil => simp
  | cons a l ih =>
      rw [List.mapM_cons, List.forall_mem_cons, ← ih]
      cases f a <;> cases l.mapM f <;> simp

/-! ## Queries are answered -/

variable {db : Database} {query : Query}

theorem queried_of_unfiltered (h : query.Unfiltered) :
    queried L db query = {.failed .join} := by
  rw [queried, generateValidatedTxWheres_eq_nil_iff.mpr h]

theorem queried_of_filtered (h : ¬ query.Unfiltered) : queried L db query =
    match query.parameters with
    | none => {.failed .parameter}
    | some limit => {outcome | ∃ rows,
        OrderedAnswers.Answer ValidatedRow.height limit (query.matching db) rows ∧
        outcome = transformRows L rows} := by
  rw [queried, ← filter_holds]
  rw [← generateValidatedTxWheres_eq_nil_iff] at h
  split
  · next hnil => exact absurd hnil h
  · rfl

theorem transformRows_eq_ok {rows : List ValidatedRow} (h : ∀ row ∈ rows, Addressed L row) :
    ∃ data, rows.mapM (validatedTxsResponse L) = some data ∧ transformRows L rows = .ok data := by
  have hsome : (rows.mapM (validatedTxsResponse L)).isSome = true :=
    isSome_mapM.mpr fun row hrow => isSome_validatedTxsResponse.mpr (h row hrow)
  obtain ⟨data, hdata⟩ := Option.isSome_iff_exists.mp hsome
  exact ⟨data, hdata, by rw [transformRows, hdata]⟩

theorem Right.addressed {rows : List ValidatedRow} (h : Right L db query (transformRows L rows)) :
    ∀ row ∈ rows, Addressed L row := by
  have hsome : (rows.mapM (validatedTxsResponse L)).isSome = true := by
    by_contra hnone
    have hfailed : transformRows L rows = .failed .row := by
      rw [transformRows, Option.not_isSome_iff_eq_none.mp hnone]
    rcases h with ⟨-, h⟩ | ⟨-, _, _, _, -, -, -, h⟩ <;> exact Outcome.noConfusion (hfailed ▸ h)
  exact fun row hrow => isSome_validatedTxsResponse.mp (isSome_mapM.mp hsome row hrow)

theorem not_right_failed {failure : Failure} : ¬ Right L db query (.failed failure) := by
  rintro (⟨-, h⟩ | ⟨-, _, _, _, -, -, -, h⟩) <;> cases h

theorem parameters_eq_some {limit : Nat} :
    query.parameters = some limit ↔ query.Textual ∧ query.limit.count = some limit := by
  unfold Query.parameters
  split
  · next htext => exact (and_iff_right htext).symm
  · next htext => exact iff_of_false (fun h => nomatch h) fun h => htext h.1

/-- A query that reaches the repository is answered as it is to be if it has a filter, its
ticks are texts, its limit is one, and whatever may be in the answer has addresses. -/
theorem queried_right_iff : (∀ outcome ∈ queried L db query, Right L db query outcome) ↔
    ¬ query.Unfiltered ∧ query.Textual ∧ ∃ limit, query.limit.count = some limit ∧
      ∀ row ∈ query.matching db,
        (query.matching db).countP (fun r => row.height < r.height) < limit → Addressed L row := by
  by_cases hfilter : query.Unfiltered
  · rw [queried_of_unfiltered hfilter]
    simp [hfilter, not_right_failed]
  · rw [queried_of_filtered hfilter]
    cases hparameters : query.parameters with
    | none =>
        have hnone : ¬ (query.Textual ∧ ∃ limit, query.limit.count = some limit ∧
            ∀ row ∈ query.matching db, (query.matching db).countP
              (fun r => row.height < r.height) < limit → Addressed L row) := by
          rintro ⟨htext, limit, hlimit, -⟩
          rw [parameters_eq_some.mpr ⟨htext, hlimit⟩] at hparameters
          cases hparameters
        refine iff_of_false (fun h => ?_) fun h => hnone h.2
        exact not_right_failed (h _ rfl)
    | some limit =>
        obtain ⟨htext, hlimit⟩ := parameters_eq_some.mp hparameters
        simp only [Set.mem_ofPred_eq, hfilter, not_false_eq_true, true_and, htext, hlimit,
          Option.some.injEq, exists_eq_left']
        constructor
        · -- a row in reach is in some answer, which has to be shown
          intro h row hrow hlt
          obtain ⟨rows, hrows, hmem⟩ := OrderedAnswers.exists_answer_mem_iff.mpr ⟨hrow, hlt⟩
          exact (h _ ⟨rows, hrows, rfl⟩).addressed row hmem
        · rintro h _ ⟨rows, hrows, rfl⟩
          obtain ⟨data, hdata, hok⟩ := transformRows_eq_ok fun row hrow =>
            h row (hrows.subset hrow) (hrows.countP_lt hrow)
          exact Or.inr ⟨hfilter, limit, rows, data, hlimit, hrows, hdata, hok⟩

/-- The database always has an answer. -/
theorem exists_queried : ∃ outcome, outcome ∈ queried L db query := by
  by_cases hfilter : query.Unfiltered
  · exact ⟨_, by rw [queried_of_unfiltered hfilter]; rfl⟩
  · rw [queried_of_filtered hfilter]
    cases query.parameters with
    | none => exact ⟨_, rfl⟩
    | some limit =>
        obtain ⟨rows, hrows⟩ := OrderedAnswers.exists_answer ValidatedRow.height limit
          (query.matching db)
        exact ⟨_, rows, hrows, rfl⟩

/-! ## Samples -/

/-- A taproot script and its address. -/
def taproot : Bytes × JsString :=
  (0x51 :: 0x20 :: [0x9a, 0x0c, 0x9f, 0x8b, 0x80, 0xcd, 0x19, 0x96, 0x2f, 0x07, 0x4a, 0x36, 0x61,
      0x7f, 0x45, 0x0b, 0xbd, 0x53, 0x47, 0x4d, 0xc1, 0x43, 0xb6, 0x50, 0x64, 0xce, 0xa7, 0x77,
      0x2c, 0x8f, 0xc3, 0xef],
    js "bc1pngxflzuqe5vevtc8fgmxzl69pw74x36dc9pmv5rye6nhwty0c0hsh5tyr3".toList)

def library : Library where
  toUpperCase := List.map Char.toUpper
  decodeAddress := fun address => if address = taproot.2 then some taproot.1 else none
  encodeAddress := fun script =>
    if script = taproot.1 then some (taproot.2.map unitChar) else none

def transferRow : ValidatedRow where
  event := ⟨[0x02], 0, 0⟩
  orderHash := [0xaa]
  amt := 1000
  bitcoinTx := [0x02]
  decimals := 18
  fromUser := taproot.1
  fromBal := 0
  tick := "ORDI".toList
  toUser := taproot.1
  toBal := 1000
  proofHashes := []
  txIndex := 0
  treeDepth := 0
  txId := [0x01]
  height := 814677
  signers := []
  signerPubkeys := []
  signerTypes := []
  signatures := []

def transferTable : Database := { Database.empty with validatedTxs := [transferRow] }

def tickBody : Body := ⟨some ["ordi".toList], none, some [], none, none, none⟩

def tickQuery : Query := ⟨some ["ORDI".toList], none, some [], none, none, .finite 10000⟩

def emptyBody : Body := ⟨none, none, none, none, none, none⟩

def fromOrToBody : Body := ⟨some [], some [], some [], some [taproot.2], none, none⟩

def fromOrToQuery : Query := ⟨some [], some [], some [], some [taproot.1], none, .finite 10000⟩

/-- **A request is rejected for want of a filter, or answered with the rows that satisfy its
filters**, exactly if it has none and the guard sees that, or it has one that the guard does
not take for none, ticks without U+0000, a limit that is a count, and no row without an
address in reach. -/
theorem answers_right_iff {body : Body} (hbody : validatedTxsQuerySchema L body = some query) :
    (∀ outcome ∈ answers L db body, Right L db query outcome) ↔
      (query.Unfiltered ∧ query.Guarded) ∨
        (¬ query.Unfiltered ∧ ¬ query.Guarded ∧ query.Textual ∧
          ∃ limit, query.limit.count = some limit ∧
            ∀ row ∈ query.matching db,
              (query.matching db).countP (fun r => row.height < r.height) < limit →
                Addressed L row) := by
  by_cases hguard : query.Guarded
  · have hanswers : answers L db body = {.rejected invalidArgument} := by
      simp only [answers, hbody, if_pos hguard]
    rw [hanswers]
    simp [hguard, Right]
  · have hanswers : answers L db body = queried L db query := by
      simp only [answers, hbody, if_neg hguard]
    rw [hanswers, queried_right_iff]
    simp [hguard]

theorem answers_right_iff_tick : validatedTxsQuerySchema library tickBody = some tickQuery ∧
    ∀ outcome ∈ answers library transferTable tickBody,
      Right library transferTable tickQuery outcome :=
  have hbody : validatedTxsQuerySchema library tickBody = some tickQuery := by decide +kernel
  ⟨hbody, (answers_right_iff hbody).mpr
    (Or.inr ⟨by decide +kernel, by decide +kernel, by decide +kernel, 10000, by decide +kernel,
      by decide +kernel⟩)⟩

/-- The request without filters is let through, and there is nothing to join; the request
with three empty lists is rejected, though it has a filter. -/
theorem not_answers_right :
    (answers library transferTable emptyBody = {.failed .join} ∧
      ∀ query, ¬ Right library transferTable query (.failed .join)) ∧
    (answers library transferTable fromOrToBody = {.rejected invalidArgument} ∧
      validatedTxsQuerySchema library fromOrToBody = some fromOrToQuery ∧
      ¬ fromOrToQuery.Unfiltered ∧ transferRow ∈ fromOrToQuery.matching transferTable ∧
      ¬ Right library transferTable fromOrToQuery (.rejected invalidArgument)) := by
  refine ⟨⟨rfl, fun _ => not_right_failed⟩, ?_, by decide +kernel, by decide +kernel,
    by decide +kernel, ?_⟩
  · have hbody : validatedTxsQuerySchema library fromOrToBody = some fromOrToQuery := by
      decide +kernel
    have hguard : fromOrToQuery.Guarded := by decide +kernel
    simp only [answers, hbody, if_pos hguard]
  · rintro (⟨h, -⟩ | ⟨-, _, _, _, -, -, -, h⟩)
    · exact absurd h (by decide +kernel)
    · cases h

end IndexingQueries
end BitcoinOracle
