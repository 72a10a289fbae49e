import BitcoinOracle.IndexerTables
import Mathlib.Data.List.Sort

/-! # A round of the relayer

`getPendingSubmitTx` selects the events to relay.  Each is assessed on its own, at
whatever moment its turn comes: it waits for more proofs, it is marked with an error,
it turns out to be indexed already, or it becomes an input of a batch.  The inputs
are submitted in chunks of 25.
-/
namespace BitcoinOracle
open Clarity KeyedTable Indexer

namespace Relayer

def kTxMaxLength : Nat := 8192

def kChunkSize : Nat := 25

/-- The environment of a relayer, its row of `relayer_configs` and the whitelists. -/
structure Config where
  minimalBlockHeight : Int
  minimalAgreementCount : Nat
  maximumAgreementCount : Nat
  minimalProofCount : Nat
  isWhitelistTxsEnabled : Bool
  isWhitelistEnabled : Bool
  whitelistToAddress : List Bytes
  tokenList : List Text
  shardRelayerIndex : Nat
  shardTotalRelayers : Nat
  shardRelayerIndex_lt : shardRelayerIndex < shardTotalRelayers

variable (P : Primitives)

/-! ## The pending events -/

/-- The first ten bytes of the digest, modulo the number of relayers. -/
def shardIndex (c : Config) (key : Text) : Nat :=
  ((P.sha256 (ascii key)).take 10).foldl (fun n b => 256 * n + b.toNat) 0 % c.shardTotalRelayers

def shouldHandleForKey (c : Config) (key : Text) : Bool :=
  shardIndex P c key = c.shardRelayerIndex

/-- The condition under which a proof counts for its event. -/
def Config.counts (c : Config) (proof : ProofRow) : Bool :=
  if c.isWhitelistTxsEnabled then
    decide (proof.toUser ∈ c.whitelistToAddress) || decide (proof.fromUser ∈ c.whitelistToAddress)
  else if c.isWhitelistEnabled then decide (proof.tick ∈ c.tokenList)
  else true

/-- `qualified_txs`. -/
def Qualified (c : Config) (db : Database) (row : TxRow) : Prop :=
  let proofs := db.proofs.filter fun proof => proof.id P = row.id P && c.counts proof
  proofs ≠ [] ∧ c.minimalProofCount ≤ proofs.length

/-- `pending_txs`, but for the rows that have been submitted. -/
def Config.Admits (c : Config) (row : TxRow) : Prop :=
  row.error = none ∧ row.event.txHash.length ≤ kTxMaxLength ∧ c.minimalBlockHeight ≤ row.height

/-- Some row of `submitted_tx` has the id of the event. -/
def IsSubmitted (db : Database) (row : TxRow) : Prop :=
  ∃ submitted ∈ db.submittedTx, submitted.id P = row.id P

instance (c : Config) (db : Database) (row : TxRow) : Decidable (Qualified P c db row) :=
  inferInstanceAs (Decidable (_ ∧ _))

instance (c : Config) (row : TxRow) : Decidable (c.Admits row) :=
  inferInstanceAs (Decidable (_ ∧ _))

instance (db : Database) (row : TxRow) : Decidable (IsSubmitted P db row) :=
  inferInstanceAs (Decidable (∃ submitted ∈ _, _))

/-- A row of `txs` with the proofs of its event. -/
structure PendingTx where
  row : TxRow
  proofs : List ProofRow
  deriving DecidableEq

def getPendingSubmitTx (c : Config) (db : Database) : List PendingTx :=
  let pendingTxs := db.txs.filter fun row =>
    ¬ IsSubmitted P db row ∧ c.Admits row ∧ Qualified P c db row
  let ordered := pendingTxs.insertionSort fun a b => a.height ≤ b.height
  let shardPendingTxs := ordered.filter fun row => shouldHandleForKey P c (hex row.txId)
  shardPendingTxs.map fun row => ⟨row, db.proofs.filter fun proof => proof.id P = row.id P⟩

variable {P} in
theorem mem_getPendingSubmitTx {c : Config} {db : Database} {tx : PendingTx} :
    tx ∈ getPendingSubmitTx P c db ↔
      tx.row ∈ db.txs ∧ ¬ IsSubmitted P db tx.row ∧ c.Admits tx.row ∧ Qualified P c db tx.row ∧
        shouldHandleForKey P c (hex tx.row.txId) = true ∧
        tx.proofs = db.proofs.filter fun proof => proof.id P = tx.row.id P := by
  simp only [getPendingSubmitTx, List.mem_map, List.mem_filter, List.mem_insertionSort,
    decide_eq_true_eq]
  constructor
  · intro ⟨row, ⟨⟨hrow, hnew, hadmits, hqualified⟩, hshard⟩, htx⟩
    subst htx
    exact ⟨hrow, hnew, hadmits, hqualified, hshard, rfl⟩
  · intro ⟨hrow, hnew, hadmits, hqualified, hshard, hproofs⟩
    refine ⟨tx.row, ⟨⟨hrow, hnew, hadmits, hqualified⟩, hshard⟩, ?_⟩
    rw [← hproofs]

/-! ## The majority -/

/-- The array index that a property name is: canonical digits, below `2 ^ 32 - 1`. -/
def arrayIndex (name : Text) : Option Nat :=
  let n := name.foldl (fun (n : Nat) c => 10 * n + (c.toNat - 48)) 0
  if n < 2 ^ 32 - 1 ∧ decimal n = name then some n else none

/-- The keys of an object, made in this order, as `toPairs` lists them: array indices by
their value, then the other names in the order in which they were made. -/
def ownKeys (keys : List Bytes) : List Bytes :=
  let indices := keys.filter fun key => (arrayIndex (hex key)).isSome
  let names := keys.filter fun key => (arrayIndex (hex key)).isNone
  indices.insertionSort
    (fun a b => (arrayIndex (hex a)).getD 0 ≤ (arrayIndex (hex b)).getD 0) ++ names

theorem mem_ownKeys {keys : List Bytes} {key : Bytes} : key ∈ ownKeys keys ↔ key ∈ keys := by
  rw [ownKeys, List.mem_append, List.mem_insertionSort, List.mem_filter, List.mem_filter,
    ← and_or_left, and_iff_left]
  cases arrayIndex (hex key) with
  | none => exact Or.inr rfl
  | some n => exact Or.inl rfl

/-- How often each order hash occurs. -/
def countBy (proofs : List ProofRow) : List (Bytes × Nat) :=
  let hashes := proofs.map ProofRow.orderHash
  (ownKeys hashes.eraseDups).map fun hash => (hash, hashes.count hash)

def getMajorityProofs (proofs : List ProofRow) (minimalProofCount : Nat) :
    Option (List ProofRow) :=
  match ((countBy proofs).insertionSort fun a b => b.2 ≤ a.2).head? with
  | none => none
  | some winnerProofs =>
      if winnerProofs.2 < minimalProofCount then none
      else some (proofs.filter fun p => p.orderHash = winnerProofs.1)

theorem count_orderHash (proofs : List ProofRow) (hash : Bytes) :
    (proofs.map ProofRow.orderHash).count hash =
      (proofs.filter fun p => p.orderHash = hash).length := by
  rw [List.count_eq_countP, List.countP_map, List.countP_eq_length_filter]
  exact congrArg List.length (List.filter_congr fun p _ => Bool.beq_eq_decide_eq ..)

/-- The first entry after sorting: a hash that occurs, with its count, which no other
hash exceeds. -/
theorem head_countBy {proofs : List ProofRow} {winner : Bytes × Nat}
    (h : ((countBy proofs).insertionSort fun a b => b.2 ≤ a.2).head? = some winner) :
    winner.1 ∈ proofs.map ProofRow.orderHash ∧
      winner.2 = (proofs.map ProofRow.orderHash).count winner.1 ∧
      ∀ hash, (proofs.map ProofRow.orderHash).count hash ≤ winner.2 := by
  have hsorted := List.pairwise_insertionSort (fun a b : Bytes × Nat => b.2 ≤ a.2) (countBy proofs)
  have hperm := List.perm_insertionSort (fun a b : Bytes × Nat => b.2 ≤ a.2) (countBy proofs)
  obtain ⟨rest, hrest⟩ := List.head?_eq_some_iff.mp h
  rw [hrest] at hsorted hperm
  obtain ⟨hash, hhash, hwinner⟩ := List.mem_map.mp (hperm.mem_iff.mp List.mem_cons_self)
  rw [mem_ownKeys, List.mem_eraseDups] at hhash
  refine ⟨?_, ?_, fun hash' => ?_⟩
  · rwa [← hwinner]
  · rw [← hwinner]
  · by_cases hmem : hash' ∈ proofs.map ProofRow.orderHash
    · have hentry : (hash', (proofs.map ProofRow.orderHash).count hash') ∈ countBy proofs :=
        List.mem_map.mpr ⟨hash', mem_ownKeys.mpr (List.mem_eraseDups.mpr hmem), rfl⟩
      rcases List.mem_cons.mp (hperm.mem_iff.mpr hentry) with hfirst | hlater
      · rw [← hfirst]
      · exact (List.pairwise_cons.mp hsorted).1 _ hlater
    · rw [List.count_eq_zero_of_not_mem hmem]
      exact Nat.zero_le _

/-- **The majority are the proofs of one hash, enough of them, and no hash has more.** -/
theorem getMajorityProofs_eq_some {proofs majority : List ProofRow} {n : Nat}
    (h : getMajorityProofs proofs n = some majority) :
    ∃ hash, majority = proofs.filter (fun p => p.orderHash = hash) ∧ majority ≠ [] ∧
      n ≤ majority.length ∧
      ∀ hash', (proofs.filter fun p => p.orderHash = hash').length ≤ majority.length := by
  unfold getMajorityProofs at h
  split at h
  · cases h
  · next winner hhead =>
      obtain ⟨hoccurs, hcount, hmost⟩ := head_countBy hhead
      split at h
      · cases h
      · next henough =>
          cases h
          refine ⟨winner.1, rfl, ?_, ?_, fun hash => ?_⟩
          · obtain ⟨proof, hproof, hhash⟩ := List.mem_map.mp hoccurs
            exact List.ne_nil_of_mem (List.mem_filter.mpr ⟨hproof, decide_eq_true hhash⟩)
          · rw [← count_orderHash, ← hcount]
            exact Nat.not_lt.mp henough
          · rw [← count_orderHash, ← count_orderHash, ← hcount]
            exact hmost hash

/-! ## One event -/

def typeName : ValidatorName → Text
  | .bis => "bis".toList
  | .okx => "okx".toList
  | .hiro => "hiro".toList
  | .unisat => "unisat".toList
  | .unknown => "unknown".toList

/-- The line about one field, if it is not the one of the first proof. -/
def mismatch {α : Type} [DecidableEq α] (name : String) (value : ProofRow → α) (text : α → Text)
    (firstProof proof : ProofRow) : Text :=
  if value proof ≠ value firstProof then
    name.toList ++ ": ".toList ++ text (value proof) ++ "[".toList ++ typeName proof.type ++
      "] != ".toList ++ text (value firstProof) ++ "[".toList ++ typeName firstProof.type ++
      "].\n".toList
  else []

/-- What the validators do not agree on. -/
def validateError (firstProof : ProofRow) (proofs : List ProofRow) : Text :=
  proofs.flatMap fun proof =>
    mismatch "from" ProofRow.fromUser hex firstProof proof ++
    mismatch "to" ProofRow.toUser hex firstProof proof ++
    mismatch "amt" ProofRow.amt decimal firstProof proof ++
    mismatch "from_bal" ProofRow.fromBal decimal firstProof proof ++
    mismatch "to_bal" ProofRow.toBal decimal firstProof proof ++
    mismatch "satpoint" (fun p => p.event.satpoint) decimal firstProof proof ++
    mismatch "output" (fun p => p.event.output) decimal firstProof proof ++
    mismatch "tick" ProofRow.tick id firstProof proof ++
    mismatch "decimals" ProofRow.decimals decimal firstProof proof ++
    mismatch "tx_id" ProofRow.txId hex firstProof proof ++
    mismatch "order_hash" ProofRow.orderHash hex firstProof proof

/-- What becomes of a pending event in a round. -/
inductive Outcome where
  | alreadyIndexed
  | waits
  | error (text : Text)
  | input (input : TxManyInput)
  /-- An exception: a call that could not be made. -/
  | throws
  deriving DecidableEq

def Outcome.input? : Outcome → Option TxManyInput
  | .input i => some i
  | _ => none

/-- Whether the registry has a record of the event; `none` if it cannot be asked. -/
def isIndexedTx (w : World) (e : Event) : Option Bool := do
  let key ← encodeKey e.txHash e.output e.satpoint
  match (RegistryV102.getBitcoinTxIndexedOrFail w.registries key.txHash key.output
      key.offset).response with
  | .ok (.ok _) => some true
  | _ => some false

/-- The event as it is relayed: what the validators agree on, for the row's key. -/
def txArgument (row : TxRow) (firstProof : ProofRow) : TxArgument where
  bitcoinTx := row.event.txHash
  output := row.event.output
  offset := row.event.satpoint
  tick := firstProof.tick
  amt := firstProof.amt
  fromUser := firstProof.fromUser
  toUser := firstProof.toUser
  fromBal := firstProof.fromBal
  toBal := firstProof.toBal
  decimals := firstProof.decimals

def signaturePack (proof : ProofRow) : SignaturePackArgument where
  signer := proof.signer
  txHash := proof.orderHash
  signature := proof.signature

def txManyInput (row : TxRow) (firstProof : ProofRow) (majorityProofs : List ProofRow) :
    TxManyInput where
  tx := txArgument row firstProof
  block := ⟨row.header, row.height⟩
  proof := ⟨row.txIndex, row.proofHashes, row.treeDepth⟩
  signaturePacks := majorityProofs.map signaturePack

/-- The check of the majority's hash against the contract's. -/
def checkServerOrderHash (P : Primitives) (row : TxRow) (firstProof : ProofRow)
    (majorityProofs : List ProofRow) : Outcome :=
  match (txArgument row firstProof).encode with
  | none => .throws
  | some tx =>
      let serverOrderHash := (Oracle.hashTx P tx).bytes
      if serverOrderHash ≠ firstProof.orderHash then
        .error ("!server_order_hash-mismatch: server: ".toList ++ hex serverOrderHash ++
          " != proof: ".toList ++ hex firstProof.orderHash)
      else .input (txManyInput row firstProof majorityProofs)

/-- What `syncOnce` does with one pending event, on the chain of the moment. -/
def assess (P : Primitives) (c : Config) (w : World) (tx : PendingTx) : Outcome :=
  if kTxMaxLength < tx.row.event.txHash.length then
    .error ("tx_hash too long (>".toList ++ decimal kTxMaxLength ++ ")".toList)
  else
    match isIndexedTx w tx.row.event with
    | none => .throws
    | some true => .alreadyIndexed
    | some false =>
        match getMajorityProofs tx.proofs c.minimalAgreementCount with
        | none =>
            if tx.proofs.length ≠ c.maximumAgreementCount then .waits
            else
              match tx.proofs with
              | [] => .error []
              | firstProof :: _ => .error (validateError firstProof tx.proofs)
        | some [] => .throws
        | some (firstProof :: rest) =>
            checkServerOrderHash P tx.row firstProof (firstProof :: rest)

variable {P} in
theorem checkServerOrderHash_eq_input {row : TxRow} {firstProof : ProofRow}
    {majority : List ProofRow} {i : TxManyInput}
    (h : checkServerOrderHash P row firstProof majority = .input i) :
    i = txManyInput row firstProof majority ∧ ∃ tx, i.tx.encode = some tx ∧
      (Oracle.hashTx P tx).bytes = firstProof.orderHash := by
  unfold checkServerOrderHash at h
  split at h
  · cases h
  · next tx htx =>
      dsimp only at h
      split at h
      · cases h
      · next hhash =>
          cases h
          exact ⟨rfl, tx, htx, not_not.mp hhash⟩

variable {P} in
/-- **What an input is made of.**  The block and the branch are those of the row of
`txs`; the event is hashed to the hash the majority signed, and the signatures are
those of the majority. -/
theorem assess_eq_input {c : Config} {w : World} {tx : PendingTx} {i : TxManyInput}
    (h : assess P c w tx = .input i) :
    ∃ firstProof hash, i = txManyInput tx.row firstProof
        (tx.proofs.filter fun p => p.orderHash = hash) ∧
      firstProof ∈ tx.proofs ∧ firstProof.orderHash = hash ∧
      c.minimalAgreementCount ≤ (tx.proofs.filter fun p => p.orderHash = hash).length ∧
      isIndexedTx w tx.row.event = some false ∧
      ∃ arg, i.tx.encode = some arg ∧ (Oracle.hashTx P arg).bytes = hash := by
  unfold assess at h
  split at h
  · cases h
  · split at h
    · cases h
    · cases h
    · next hindexed =>
        split at h
        · split at h
          · cases h
          · split at h
            · cases h
            · cases h
        · cases h
        · next firstProof rest hmajority =>
            obtain ⟨hash, hfilter, -, henough, -⟩ := getMajorityProofs_eq_some hmajority
            obtain ⟨hi, arg, harg, hhash⟩ := checkServerOrderHash_eq_input h
            have hfirst : firstProof ∈ tx.proofs.filter fun p => p.orderHash = hash := by
              rw [← hfilter]
              exact List.mem_cons_self
            obtain ⟨hproof, hsame⟩ := List.mem_filter.mp hfirst
            have hsame := of_decide_eq_true hsame
            rw [hfilter] at hi henough
            exact ⟨firstProof, hash, hi, hproof, hsame, henough, hindexed, arg, harg,
              hhash.trans hsame⟩

/-! ## The chunks -/

/-- `chunk` of lodash, on at most `fuel` elements. -/
def chunkFuel {α : Type} : Nat → Nat → List α → List (List α)
  | 0, _, _ => []
  | _ + 1, _, [] => []
  | fuel + 1, n, x :: xs => (x :: xs).take n :: chunkFuel fuel n ((x :: xs).drop n)

def chunk {α : Type} (xs : List α) (n : Nat) : List (List α) := chunkFuel xs.length n xs

theorem flatten_chunk {α : Type} {n : Nat} (hn : 0 < n) (xs : List α) :
    (chunk xs n).flatten = xs := by
  have hfuel : ∀ fuel (xs : List α), xs.length ≤ fuel → (chunkFuel fuel n xs).flatten = xs := by
    intro fuel
    induction fuel with
    | zero => exact fun xs hxs => (List.eq_nil_of_length_eq_zero (Nat.le_zero.mp hxs)).symm
    | succ fuel ih =>
        intro xs hxs
        cases xs with
        | nil => rfl
        | cons x xs =>
            rw [chunkFuel, List.flatten_cons, ih, List.take_append_drop]
            rw [List.length_drop, List.length_cons]
            rw [List.length_cons] at hxs
            omega
  exact hfuel xs.length xs (Nat.le_refl _)

/-- A chunk is the first elements of what the earlier chunks left. -/
theorem exists_of_mem_chunk {α : Type} {n : Nat} {xs ys : List α} (h : ys ∈ chunk xs n) :
    ∃ x zs, ys = (x :: zs).take n := by
  have hfuel : ∀ fuel (xs : List α), ys ∈ chunkFuel fuel n xs → ∃ x zs, ys = (x :: zs).take n := by
    intro fuel
    induction fuel with
    | zero => exact fun xs hys => nomatch hys
    | succ fuel ih =>
        intro xs hys
        cases xs with
        | nil => exact nomatch hys
        | cons x xs =>
            rcases List.mem_cons.mp hys with hfirst | hlater
            · exact ⟨x, xs, hfirst⟩
            · exact ih _ hlater
  exact hfuel xs.length xs h

theorem length_le_of_mem_chunk {α : Type} {n : Nat} {xs ys : List α} (h : ys ∈ chunk xs n) :
    ys.length ≤ n := by
  obtain ⟨x, zs, rfl⟩ := exists_of_mem_chunk h
  rw [List.length_take]
  exact Nat.min_le_left ..

theorem ne_nil_of_mem_chunk {α : Type} {n : Nat} (hn : 0 < n) {xs ys : List α}
    (h : ys ∈ chunk xs n) : ys ≠ [] := by
  obtain ⟨x, zs, rfl⟩ := exists_of_mem_chunk h
  cases n with
  | zero => exact absurd hn (Nat.lt_irrefl 0)
  | succ n => exact List.cons_ne_nil x (zs.take n)

theorem mem_of_mem_chunk {α : Type} {n : Nat} (hn : 0 < n) {xs ys : List α} {x : α}
    (hys : ys ∈ chunk xs n) (hx : x ∈ ys) : x ∈ xs := by
  rw [← flatten_chunk hn xs]
  exact List.mem_flatten.mpr ⟨ys, hys, hx⟩

end Relayer
end BitcoinOracle
