import BitcoinOracle.HexInput
import BitcoinOracle.HonestValidators

/-! # What the validators do with an activity

A validator takes the transfers out of the activities of a block.  For each it asks for
two balances, then for the Bitcoin transaction, and posts what it has.  At every stage it
may leave the transfer out, or throw.

The three of them differ in what they leave out.  `bis` goes on without a transfer whose
Bitcoin transaction cannot be got, and an exception of a post ends its block; with `hiro`
and `unisat` it is the other way round.
-/
namespace BitcoinOracle
open Clarity Indexer

namespace Validator

/-- What an operator does with a value. -/
inductive Step (κ : Type) where
  | emits (k : κ)
  /-- `EMPTY`. -/
  | empty
  | throws
  deriving DecidableEq

/-- What `submitIndexerTx` does. -/
inductive Submission where
  | posts (tx : TxRequest)
  | skips
  | throws
  deriving DecidableEq

/-- The stages of `processBlock$`, for activities `α`, answers `ρ` of the source that give
balances `κ`, and answers `σ` about the Bitcoin transaction. -/
structure Processor (α ρ κ σ : Type) where
  type : ValidatorName
  /-- The `filter`. -/
  isTransfer : α → Bool
  /-- What comes before the balances are asked for. -/
  check : α → Step Unit
  balances : α → ρ → Step κ
  data : σ → BitcoinTxData
  submit : α → κ → σ → Submission
  /-- An error of `getBitcoinTx$` is caught. -/
  catchesBitcoin : Bool
  /-- An error of `submitIndexerTx` is caught. -/
  catchesSubmit : Bool
  /-- Posts are of the type of the validator, and of the block of the Bitcoin transaction. -/
  submit_posts : ∀ {a k r tx}, submit a k r = .posts tx →
    tx.type = type ∧ tx.height = (data r).height

variable (P : Primitives) (lib : BitcoinLib) (account : ValidatorAccount)

/-- A post, or what is thrown where there is none. -/
def submitted : Option TxRequest → Submission
  | some tx => .posts tx
  | none => .throws

theorem submitted_eq_posts {post : Option TxRequest} {tx : TxRequest} :
    submitted post = .posts tx ↔ post = some tx := by
  cases post with
  | none => exact ⟨nofun, nofun⟩
  | some tx' => simp [submitted]

theorem submitted_ne_skips (post : Option TxRequest) : submitted post ≠ .skips := by
  cases post with
  | none => exact nofun
  | some tx => exact nofun

variable {P} in
theorem submission_posts {type : ValidatorName} {tx : IndexerTx} {post : TxRequest}
    (h : submission P type account tx = some post) :
    post.type = type ∧ post.height = tx.data.height := by
  obtain ⟨orderHash, -, rfl⟩ := Option.map_eq_some_iff.mp h
  exact ⟨rfl, rfl⟩

/-! ## BestInSlot -/

namespace Bis

inductive ActivityType where
  | transferTransfer
  | transferInscribe
  | mintInscribe
  deriving DecidableEq

structure Activity where
  oldPkscript : Option JsString
  newPkscript : JsString
  newSatpoint : Text
  tick : Text
  amount : Text
  activityType : ActivityType
  deriving DecidableEq

structure Satpoint where
  txId : Text
  vout : Text
  satpoint : Text
  deriving DecidableEq

/-- `getSatpoint`, or `none` where it throws. -/
def getSatpoint (tx : Text) : Option Satpoint :=
  match tx.splitOn ':' with
  | [txId, vout, satpoint] => some ⟨txId, vout, satpoint⟩
  | _ => none

/-- The two balances, as the source writes them. -/
structure Balances where
  fromBal : Text
  toBal : Text
  deriving DecidableEq

/-- A transfer with its balances and the parts of its satpoint. -/
structure Located where
  balances : Balances
  satpoint : Satpoint
  deriving DecidableEq

/-- The Bitcoin transaction, and the decimals of the token. -/
structure Indexed where
  data : BitcoinTxData
  decimals : Int

def isTransfer (activity : Activity) : Bool := activity.activityType = .transferTransfer

/-- A script that is not there and an amount that is not positive are left out. -/
def check (activity : Activity) : Step Unit :=
  match activity.oldPkscript with
  | none => .empty
  | some _ =>
      match bigInt activity.amount with
      | none => .throws
      | some amount => if amount ≤ 0 then .empty else .emits ()

/-- `BigInt(balance) < 0`, or `none` where it throws. -/
def isNegative (balance : Text) : Option Bool := (bigInt balance).map fun n => decide (n < 0)

def balances (activity : Activity) (b : Balances) : Step Located :=
  match isNegative b.fromBal with
  | none => .throws
  | some true => .empty
  | some false =>
      match isNegative b.toBal with
      | none => .throws
      | some true => .empty
      | some false =>
          match getSatpoint activity.newSatpoint with
          | none => .throws
          | some satpoint => .emits ⟨b, satpoint⟩

/-- The argument of `generateOrderHash`, or `none` for an exception. -/
def indexerTx (activity : Activity) (located : Located) (indexed : Indexed) :
    Option IndexerTx := do
  let oldPkscript ← activity.oldPkscript
  let amount ← bigInt activity.amount
  let fromScript ← (HexInput.bufferHexSchema (.string oldPkscript)).toOption
  let toScript ← (HexInput.bufferHexSchema (.string activity.newPkscript)).toOption
  let fromBal ← bigInt located.balances.fromBal
  let toBal ← bigInt located.balances.toBal
  let vout ← bigInt located.satpoint.vout
  let satpoint ← bigInt located.satpoint.satpoint
  some
    { amount := amount
      decimals := indexed.decimals
      fromScript := fromScript
      toScript := toScript
      fromBal := fromBal
      toBal := toBal
      tick := activity.tick
      vout := vout
      satpoint := satpoint
      data := indexed.data }

/-- `submitIndexerTx`: the hash comes first, then the transaction is parsed. -/
def submit (activity : Activity) (located : Located) (indexed : Indexed) : Submission :=
  match (indexerTx activity located indexed).bind (submission P .bis account) with
  | none => .throws
  | some post => if (lib.txId indexed.data.tx).isSome then .posts post else .skips

variable {P lib account} {activity : Activity} {located : Located} {indexed : Indexed}

theorem indexerTx_eq_some {tx : IndexerTx} (h : indexerTx activity located indexed = some tx) :
    tx.data = indexed.data ∧ bigInt activity.amount = some tx.amount ∧
      bigInt located.balances.fromBal = some tx.fromBal ∧
      bigInt located.balances.toBal = some tx.toBal := by
  simp only [indexerTx, Option.bind_eq_bind, Option.bind_eq_some_iff] at h
  obtain ⟨_, -, amount, hamount, _, -, _, -, fromBal, hfrom, toBal, hto, _, -, _, -, heq⟩ := h
  obtain rfl := Option.some.inj heq
  exact ⟨rfl, hamount, hfrom, hto⟩

theorem submit_eq_posts {post : TxRequest} :
    submit P lib account activity located indexed = .posts post ↔
      ∃ tx, indexerTx activity located indexed = some tx ∧
        submitIndexerTx P lib account tx = some post := by
  unfold submit
  cases htx : indexerTx activity located indexed with
  | none => simp
  | some tx =>
      have hdata := (indexerTx_eq_some htx).1
      cases hpost : submission P .bis account tx with
      | none => simp [bis_eq_some, hpost]
      | some post' =>
          cases hparsed : (lib.txId indexed.data.tx).isSome with
          | true => simp [bis_eq_some, hpost, hdata, hparsed]
          | false => simp [bis_eq_some, hpost, hdata, hparsed]

/-- What is skipped is a transaction that does not parse. -/
theorem submit_eq_skips (h : submit P lib account activity located indexed = .skips) :
    lib.txId indexed.data.tx = none := by
  unfold submit at h
  split at h
  · cases h
  · split at h
    · cases h
    · next hparsed => exact Option.not_isSome_iff_eq_none.mp hparsed

variable (P lib account) in
def processor : Processor Activity Balances Located Indexed where
  type := .bis
  isTransfer := isTransfer
  check := check
  balances := balances
  data := Indexed.data
  submit := submit P lib account
  catchesBitcoin := true
  catchesSubmit := false
  submit_posts h := by
    obtain ⟨tx, htx, hpost⟩ := submit_eq_posts.mp h
    obtain ⟨htype, hheight⟩ := submission_posts account (bis_eq_some.mp hpost).1
    exact ⟨htype, hheight.trans (by rw [(indexerTx_eq_some htx).1])⟩

end Bis

/-! ## Hiro -/

namespace Hiro

/-- An activity of the source, as the schema leaves it.  The script of an address that is
empty is empty. -/
structure Activity where
  txId : Text
  vout : Int
  satpoint : Int
  ticker : Text
  amount : Int
  fromScript : Bytes
  toScript : Bytes
  deriving DecidableEq

structure Balance where
  ticker : Text
  overallBalance : Int
  deriving DecidableEq

/-- The balances of the two addresses, and the decimals of the token. -/
structure Answer where
  oldBalances : List Balance
  newBalances : List Balance
  decimals : Int
  deriving DecidableEq

structure Balances where
  fromBal : Int
  toBal : Int
  decimals : Int
  deriving DecidableEq

def isTransfer (activity : Activity) : Bool :=
  decide (activity.fromScript ≠ []) && decide (activity.toScript ≠ [])

/-- Both scripts must have an address, since the balances are asked for by address. -/
def check (activity : Activity) : Step Unit :=
  match lib.address activity.fromScript, lib.address activity.toScript with
  | .ok _, .ok _ => .emits ()
  | _, _ => .throws

def getBalance (balances : List Balance) (tick : Text) : Option Balance :=
  balances.find? fun balance => balance.ticker = tick

/-- A balance that is not there is zero. -/
def balances (activity : Activity) (answer : Answer) : Step Balances :=
  let oldBalance := getBalance answer.oldBalances activity.ticker
  let newBalance := getBalance answer.newBalances activity.ticker
  .emits
    { fromBal := (oldBalance.map Balance.overallBalance).getD 0
      toBal := (newBalance.map Balance.overallBalance).getD 0
      decimals := answer.decimals }

def indexerTx (activity : Activity) (b : Balances) (data : BitcoinTxData) : IndexerTx where
  amount := activity.amount
  decimals := b.decimals
  fromScript := activity.fromScript
  toScript := activity.toScript
  fromBal := b.fromBal
  toBal := b.toBal
  tick := activity.ticker
  vout := activity.vout
  satpoint := activity.satpoint
  data := data

def processor : Processor Activity Answer Balances BitcoinTxData where
  type := .hiro
  isTransfer := isTransfer
  check := check lib
  balances := balances
  data := id
  submit activity b data := submitted (submitIndexerTx P account (indexerTx activity b data))
  catchesBitcoin := false
  catchesSubmit := true
  submit_posts h := submission_posts account (submitted_eq_posts.mp h)

end Hiro

/-! ## Unisat -/

namespace Unisat

inductive ActivityType where
  | transfer
  | inscribeTransfer
  | inscribeMint
  | inscribeDeploy
  deriving DecidableEq

/-- An activity of the source, as the schema leaves it.  The script of an address that is
empty, or cannot be decoded, is empty. -/
structure Activity where
  type : ActivityType
  ticker : Text
  fromScript : Bytes
  toScript : Bytes
  txid : Text
  amount : Text
  vout : Int
  offset : Int
  deriving DecidableEq

structure Balance where
  ticker : Text
  overallBalance : Text
  decimal : Nat
  deriving DecidableEq

/-- The balances of the two addresses. -/
structure Answer where
  oldBalances : List Balance
  newBalances : List Balance
  deriving DecidableEq

structure Balances where
  fromBal : Text
  toBal : Text
  decimals : Nat
  deriving DecidableEq

def isTransfer (activity : Activity) : Bool :=
  decide (activity.type = .transfer) && decide (activity.fromScript ≠ []) &&
    decide (activity.toScript ≠ [])

/-- An address that cannot be encoded is asked for as an empty one. -/
def check (_ : Activity) : Step Unit := .emits ()

def getBalance (balances : List Balance) (tick : Text) : Option Balance :=
  balances.find? fun balance => balance.ticker = tick

/-- A transfer without one of its balances is left out. -/
def balances (activity : Activity) (answer : Answer) : Step Balances :=
  match getBalance answer.oldBalances activity.ticker,
      getBalance answer.newBalances activity.ticker with
  | some oldBalance, some newBalance =>
      .emits ⟨oldBalance.overallBalance, newBalance.overallBalance, newBalance.decimal⟩
  | _, _ => .empty

def unisatTx (activity : Activity) (b : Balances) (data : BitcoinTxData) : UnisatTx where
  amount := activity.amount
  decimals := b.decimals
  fromScript := activity.fromScript
  toScript := activity.toScript
  fromBal := b.fromBal
  toBal := b.toBal
  ticker := activity.ticker
  vout := activity.vout
  offset := activity.offset
  data := data

def processor (parseUnits : Text → Nat → Int) :
    Processor Activity Answer Balances BitcoinTxData where
  type := .unisat
  isTransfer := isTransfer
  check := check
  balances := balances
  data := id
  submit activity b data :=
    submitted (submitIndexerTx P parseUnits account (unisatTx activity b data))
  catchesBitcoin := false
  catchesSubmit := true
  submit_posts h := submission_posts account (submitted_eq_posts.mp h)

end Unisat

end Validator
end BitcoinOracle
