import BitcoinOracle.BlockProcessing

/-! # No transfer is lost

When a sync is over, every block from the genesis block on has been processed, and of
each activity that was served for it one can tell what has become of it.

With `bis` a transfer of a positive amount is stored, unless the source has shown a
negative balance, or the Bitcoin transaction could not be got or parsed, or a script has no
address, or the login was answered 400 (`bis_accounted`).  With `hiro` and `unisat` a block
completes although a post has failed, so that a transfer may also be missing because an
answer of the API was lost or an error (`hiro_accounted`, `unisat_accounted`).  The reason
is always what was answered for that very transfer.
-/
namespace BitcoinOracle
open Clarity KeyedTable Indexer StagedWork

namespace Validator

section Refusals
variable {P : Primitives} {lib : BitcoinLib} {parseUnits : Text → Nat → Int}
  {account : ValidatorAccount} {post : TxRequest} {db : Database}

/-- A script that has no address. -/
def NoAddress (lib : BitcoinLib) (script : Bytes) : Prop := ∃ e, lib.address script = .error e

theorem encodeAddress_error {script : Bytes} {e : UpsertError}
    (h : encodeAddress lib script = .error e) : NoAddress lib script := by
  unfold encodeAddress at h
  split at h
  · cases h
  · next message haddress => exact ⟨message, haddress⟩

/-- A post that is answered 400 has a script without an address: the hash is its own. -/
theorem Submits.noAddress (hpost : Submits P lib parseUnits account post) {message : Text}
    (h : postTx P lib db post = .error (.indexer message)) :
    NoAddress lib post.fromUser ∨ NoAddress lib post.toUser := by
  cases harg : post.txArgument.encode with
  | none => simp [postTx, validateOrderHash, harg, bind, Except.bind] at h
  | some arg =>
      have hvalid : validateOrderHash P post = .ok () :=
        hpost.validateOrderHash_iff.mpr ⟨arg, harg⟩
      have hupsert : upsertTxWithProof P lib db post = .error (.indexer message) := by
        simpa only [postTx, hvalid, bind, Except.bind] using h
      unfold upsertTxWithProof proofRow at hupsert
      cases htxId : lib.txId post.txHash with
      | none => simp [htxId, bind, Except.bind] at hupsert
      | some txId =>
          cases hfrom : encodeAddress lib post.fromUser with
          | error e => exact Or.inl (encodeAddress_error hfrom)
          | ok fromAddress =>
              cases hto : encodeAddress lib post.toUser with
              | error e => exact Or.inr (encodeAddress_error hto)
              | ok toAddress =>
                  -- what is left are checks of columns
                  simp only [htxId, hfrom, hto, bind, Except.bind, Option.elim_some,
                    checkColumns] at hupsert
                  split at hupsert
                  · next herror =>
                    split at herror
                    · cases herror
                    · cases herror
                      cases hupsert
                  · split at hupsert
                    · cases hupsert
                    · unfold txRow checkColumns at hupsert
                      split at hupsert
                      · next herror =>
                        split at herror
                        · cases herror
                        · cases herror
                          cases hupsert
                      · cases hupsert

end Refusals

/-! ## BestInSlot -/

namespace Bis
variable {P : Primitives} {lib : BitcoinLib} {account : ValidatorAccount} {activity : Activity}

theorem isTransfer_iff : isTransfer activity = true ↔
    activity.activityType = .transferTransfer := decide_eq_true_iff

theorem check_eq_emits (h : check activity = .emits ()) :
    ∃ amount, bigInt activity.amount = some amount ∧ 0 < amount := by
  unfold check at h
  split at h
  · cases h
  · split at h
    · cases h
    · next amount hamount =>
      split at h
      · cases h
      · next hpositive => exact ⟨amount, hamount, by omega⟩

theorem check_eq_empty (h : check activity = .empty) : activity.oldPkscript = none ∨
    ∃ amount, bigInt activity.amount = some amount ∧ amount ≤ 0 := by
  unfold check at h
  split at h
  · next hscript => exact Or.inl hscript
  · split at h
    · cases h
    · next amount hamount =>
      split at h
      · next hnot => exact Or.inr ⟨amount, hamount, hnot⟩
      · cases h

theorem isNegative_eq_false {balance : Text} (h : isNegative balance = some false) {n : Int}
    (hn : bigInt balance = some n) : 0 ≤ n := by
  rw [isNegative, hn, Option.map_some, Option.some.injEq, decide_eq_false_iff_not] at h
  omega

theorem balances_eq_emits {b : Balances} {located : Located}
    (h : balances activity b = .emits located) : located.balances = b ∧
      isNegative b.fromBal = some false ∧ isNegative b.toBal = some false := by
  unfold balances at h
  split at h
  · cases h
  · cases h
  · next hfrom =>
    split at h
    · cases h
    · cases h
    · next hto =>
      split at h
      · cases h
      · obtain rfl := Step.emits.inj h
        exact ⟨rfl, hfrom, hto⟩

theorem balances_eq_empty {b : Balances} (h : balances activity b = .empty) :
    isNegative b.fromBal = some true ∨ isNegative b.toBal = some true := by
  unfold balances at h
  split at h
  · cases h
  · next hfrom => exact Or.inl hfrom
  · split at h
    · cases h
    · next hto => exact Or.inr hto
    · split at h
      · cases h
      · cases h

abbrev Action := ProcessAction Activity Balances Indexed

/-- A post of a transfer of a positive amount, with balances that are not negative.  It is
made of the balances and the Bitcoin transaction that were answered for the transfer. -/
structure PostOf (P : Primitives) (lib : BitcoinLib) (account : ValidatorAccount)
    (actions : List Action) (height : Int) (activity : Activity) (post : TxRequest) : Prop where
  transfer : activity.activityType = .transferTransfer
  submitted : ∃ located indexed tx,
    (processor P lib account).Queued (· ∈ actions) height activity located indexed ∧
      indexerTx activity located indexed = some tx ∧ submitIndexerTx P lib account tx = some post
  amt : 0 < post.amt
  fromBal : 0 ≤ post.fromBal
  toBal : 0 ≤ post.toBal

variable {actions : List Action} {height : Int} {db : Database} {fate : Fate}

theorem Queued.postOf {located : Located} {indexed : Indexed} {post : TxRequest}
    (h : (processor P lib account).Queued (· ∈ actions) height activity located indexed)
    (hposts : submit P lib account activity located indexed = .posts post) :
    PostOf P lib account actions height activity post := by
  obtain ⟨⟨htransfer, hcheck⟩, n, b, -, hemits⟩ := h.balanced
  obtain ⟨tx, htx, hpost⟩ := submit_eq_posts.mp hposts
  obtain ⟨-, hamount, hfrom, hto⟩ := indexerTx_eq_some htx
  obtain ⟨amount, hbig, hpositive⟩ := check_eq_emits hcheck
  obtain ⟨rfl, hfromBal, htoBal⟩ := balances_eq_emits hemits
  obtain ⟨orderHash, -, rfl⟩ := Option.map_eq_some_iff.mp (bis_eq_some.mp hpost).1
  refine ⟨isTransfer_iff.mp htransfer, ⟨located, indexed, tx, h, htx, hpost⟩, ?_, ?_, ?_⟩
  · obtain rfl := Option.some.inj (hbig.symm.trans hamount)
    exact hpositive
  · exact isNegative_eq_false hfromBal hfrom
  · exact isNegative_eq_false htoBal hto

/-- What may have become of an activity of `bis` at a height, given the answers for it. -/
def Right (P : Primitives) (lib : BitcoinLib) (account : ValidatorAccount) (actions : List Action)
    (height : Int) (db : Database) (activity : Activity) : Fate → Prop
  | .filtered => activity.activityType ≠ .transferTransfer
  | .skipped => activity.oldPkscript = none ∨
      (∃ amount, bigInt activity.amount = some amount ∧ amount ≤ 0) ∨
      ∃ n b, .balances height activity n (some b) ∈ actions ∧
        (isNegative b.fromBal = some true ∨ isNegative b.toBal = some true)
  | .unavailable => ∃ n, .bitcoin height activity n none ∈ actions
  | .unparsed => ∃ n indexed, .bitcoin height activity n (some indexed) ∈ actions ∧
      lib.txId indexed.data.tx = none
  | .stored tx => PostOf P lib account actions height activity tx ∧ Kept P db tx
  | .refused tx => PostOf P lib account actions height activity tx ∧
      .submit height activity .answered ∈ actions ∧
      (NoAddress lib tx.fromUser ∨ NoAddress lib tx.toUser)
  | .unauthorised tx => PostOf P lib account actions height activity tx ∧
      .submit height activity .unauthorised ∈ actions
  | .failed => False

theorem PostOf.submits (htype : account.type = .bis) (parseUnits : Text → Nat → Int)
    {post : TxRequest} (h : PostOf P lib account actions height activity post) :
    Submits P lib parseUnits account post := by
  obtain ⟨_, _, tx, -, -, hpost⟩ := h.submitted
  exact .bis htype hpost

theorem Fated.right (htype : account.type = .bis)
    (h : (processor P lib account).Fated P lib (· ∈ actions) height db activity fate) :
    Right P lib account actions height db activity fate := by
  cases h with
  | filtered h =>
    intro htransfer
    cases h.symm.trans (isTransfer_iff.mpr htransfer)
  | dropped h hcheck =>
    rcases check_eq_empty hcheck with hscript | hamount
    · exact Or.inl hscript
    · exact Or.inr (Or.inl hamount)
  | skipped h hanswer hbalances =>
    exact Or.inr (Or.inr ⟨_, _, hanswer, balances_eq_empty hbalances⟩)
  | unavailable hcatches h hanswer => exact ⟨_, hanswer⟩
  | unparsed h hskips =>
    obtain ⟨n, hanswer⟩ := h.answered
    exact ⟨n, _, hanswer, submit_eq_skips hskips⟩
  | stored h hposts hkept => exact ⟨Queued.postOf h hposts, hkept⟩
  | refused h hposts hrejected =>
    have hpostOf := Queued.postOf h hposts
    exact ⟨hpostOf, hrejected.1, (hpostOf.submits htype fun _ _ => 0).noAddress hrejected.2⟩
  | unauthorised h hposts hanswer => exact ⟨Queued.postOf h hposts, hanswer⟩
  | failed hcatches h hfails => cases hcatches

end Bis

/-- **All proofs of `bis` are of transfers that its source has served** for their height, of
positive amounts and with balances that are not negative, and are made of what was answered
for the transfer. -/
theorem bis_proofs_served (P : Primitives) (lib : BitcoinLib) (account : ValidatorAccount)
    {c : IntervalSync.Config} (hc : c.name = .bis) {actions : List Bis.Action}
    (h : ∀ a ∈ actions, (Bis.processor P lib account).InOrder a)
    {s : Processing Bis.Activity Bis.Located Bis.Indexed}
    (hs : (Processing.machine P lib c (Bis.processor P lib account)).run
      Processing.start actions = s) :
    ∀ row ∈ s.sync.db.proofs, row.type = .bis → 0 < row.amt ∧ 0 ≤ row.fromBal ∧ 0 ≤ row.toBal ∧
      ∃ activities activity tx, (row.height, activities) ∈ s.served ∧ activity ∈ activities ∧
        Bis.PostOf P lib account actions row.height activity tx ∧ proofRow lib tx = .ok row := by
  subst hs
  intro row hrow htype
  have haccounted : Processing.Accounted P lib c (Bis.processor P lib account) (· ∈ actions) _ :=
    Processing.accounted_run P lib hc h fun _ => id
  obtain ⟨tx, ⟨activities, activity, located, indexed, hserved, hmem, hqueued, hposts⟩, hproof⟩ :=
    haccounted.proofs row hrow htype
  have hpostOf := Bis.Queued.postOf hqueued hposts
  obtain ⟨_, _, _, rfl⟩ := exists_proofRow hproof
  exact ⟨hpostOf.amt, hpostOf.fromBal, hpostOf.toBal, activities, activity, tx, hserved, hmem,
    hpostOf, hproof⟩

/-! ## Hiro and Unisat -/

section Submitted
variable {α ρ κ σ : Type} (P : Primitives) (lib : BitcoinLib) (p : Processor α ρ κ σ)
  (actions : List (ProcessAction α ρ σ)) (height : Int) (a : α)

/-- What `submitIndexerTx` does with an activity and the answers to its requests. -/
def Processor.Submits (submission : Submission) : Prop :=
  ∃ k r, p.Queued (· ∈ actions) height a k r ∧ p.submit a k r = submission

/-- `submitIndexerTx` throws, or the answer of the API to the post of the activity is lost, or
an error of its own. -/
def Processor.SubmitFails : Prop :=
  p.Submits actions height a .throws ∨ ∃ tx, p.Submits actions height a (.posts tx) ∧
    ((∃ reached, .submit height a (.lost reached) ∈ actions) ∨
      ∃ e, Processor.Rejected P lib (· ∈ actions) height a tx e ∧ ∀ message, e ≠ .indexer message)

variable {P lib p actions height a} in
theorem Processor.Fails.submitFails {k : κ} {r : σ}
    (hqueued : p.Queued (· ∈ actions) height a k r)
    (h : p.Fails P lib (· ∈ actions) height a k r) : p.SubmitFails P lib actions height a := by
  rcases h with hthrows | ⟨tx, hposts, hwhy⟩
  · exact Or.inl ⟨k, r, hqueued, hthrows⟩
  · exact Or.inr ⟨tx, ⟨k, r, hqueued, hposts⟩, hwhy⟩

end Submitted

namespace Hiro
variable {P : Primitives} {lib : BitcoinLib} {account : ValidatorAccount} {activity : Activity}

theorem isTransfer_eq_false (h : isTransfer activity = false) :
    activity.fromScript = [] ∨ activity.toScript = [] := by
  by_contra hnot
  obtain ⟨hfrom, hto⟩ := not_or.mp hnot
  simp [isTransfer, hfrom, hto] at h

theorem check_eq_emits (h : check lib activity = .emits ()) :
    ¬ NoAddress lib activity.fromScript ∧ ¬ NoAddress lib activity.toScript := by
  unfold check at h
  split at h
  · next text text' hfrom hto =>
    constructor
    · rintro ⟨e, he⟩
      cases hfrom.symm.trans he
    · rintro ⟨e, he⟩
      cases hto.symm.trans he
  · cases h

theorem check_ne_empty : check lib activity ≠ .empty := by
  unfold check
  split
  · exact nofun
  · exact nofun

abbrev Action := ProcessAction Activity Answer BitcoinTxData

/-- What may have become of an activity of `hiro` at a height, given the answers for it. -/
def Right (P : Primitives) (lib : BitcoinLib) (account : ValidatorAccount) (actions : List Action)
    (height : Int) (db : Database) (activity : Activity) : Fate → Prop
  | .filtered => activity.fromScript = [] ∨ activity.toScript = []
  | .stored tx =>
      (processor P lib account).Submits actions height activity (.posts tx) ∧ Kept P db tx
  | .unauthorised tx =>
      (processor P lib account).Submits actions height activity (.posts tx) ∧
        .submit height activity .unauthorised ∈ actions
  | .failed => (processor P lib account).SubmitFails P lib actions height activity
  | _ => False

theorem Fated.right (htype : account.type = .hiro) {actions : List Action} {height : Int}
    {db : Database} {fate : Fate}
    (h : (processor P lib account).Fated P lib (· ∈ actions) height db activity fate) :
    Right P lib account actions height db activity fate := by
  cases h with
  | filtered h => exact isTransfer_eq_false h
  | dropped h hcheck => exact absurd hcheck check_ne_empty
  | skipped h hanswer hbalances => cases hbalances
  | unavailable hcatches h hanswer => cases hcatches
  | unparsed h hskips => exact absurd hskips (submitted_ne_skips _)
  | stored h hposts hkept => exact ⟨⟨_, _, h, hposts⟩, hkept⟩
  | refused h hposts hrejected =>
    -- the scripts have addresses, or the balances would not have been asked for
    obtain ⟨hfrom, hto⟩ := check_eq_emits h.balanced.1.2
    have hpost := submitted_eq_posts.mp hposts
    have hsubmits : Submits P lib (fun _ _ => 0) account _ := .hiro htype hpost
    have hno := hsubmits.noAddress hrejected.2
    obtain ⟨orderHash, -, rfl⟩ := Option.map_eq_some_iff.mp hpost
    rcases hno with hno | hno
    · exact absurd hno hfrom
    · exact absurd hno hto
  | unauthorised h hposts hanswer => exact ⟨⟨_, _, h, hposts⟩, hanswer⟩
  | failed hcatches h hfails => exact hfails.submitFails h

end Hiro

namespace Unisat
variable {P : Primitives} {lib : BitcoinLib} {account : ValidatorAccount}
  {parseUnits : Text → Nat → Int} {activity : Activity}

theorem isTransfer_eq_false (h : isTransfer activity = false) :
    activity.type ≠ .transfer ∨ activity.fromScript = [] ∨ activity.toScript = [] := by
  by_contra hnot
  simp only [not_or, not_not] at hnot
  simp [isTransfer, hnot] at h

theorem balances_eq_empty {answer : Answer} (h : balances activity answer = .empty) :
    getBalance answer.oldBalances activity.ticker = none ∨
      getBalance answer.newBalances activity.ticker = none := by
  unfold balances at h
  split at h
  · cases h
  · next hnot =>
    by_contra hboth
    obtain ⟨hold, hnew⟩ := not_or.mp hboth
    obtain ⟨oldBalance, hold⟩ := Option.ne_none_iff_exists'.mp hold
    obtain ⟨newBalance, hnew⟩ := Option.ne_none_iff_exists'.mp hnew
    exact hnot oldBalance newBalance hold hnew

abbrev Action := ProcessAction Activity Answer BitcoinTxData

/-- What may have become of an activity of `unisat` at a height, given the answers for it. -/
def Right (P : Primitives) (lib : BitcoinLib) (account : ValidatorAccount)
    (parseUnits : Text → Nat → Int) (actions : List Action) (height : Int) (db : Database)
    (activity : Activity) : Fate → Prop
  | .filtered => activity.type ≠ .transfer ∨ activity.fromScript = [] ∨ activity.toScript = []
  | .skipped => ∃ n answer, .balances height activity n (some answer) ∈ actions ∧
      (getBalance answer.oldBalances activity.ticker = none ∨
        getBalance answer.newBalances activity.ticker = none)
  | .stored tx =>
      (processor P account parseUnits).Submits actions height activity (.posts tx) ∧ Kept P db tx
  | .refused tx =>
      (processor P account parseUnits).Submits actions height activity (.posts tx) ∧
        .submit height activity .answered ∈ actions ∧
        (NoAddress lib activity.fromScript ∨ NoAddress lib activity.toScript)
  | .unauthorised tx =>
      (processor P account parseUnits).Submits actions height activity (.posts tx) ∧
        .submit height activity .unauthorised ∈ actions
  | .failed => (processor P account parseUnits).SubmitFails P lib actions height activity
  | _ => False

theorem Fated.right (htype : account.type = .unisat) {actions : List Action} {height : Int}
    {db : Database} {fate : Fate}
    (h : (processor P account parseUnits).Fated P lib (· ∈ actions) height db activity fate) :
    Right P lib account parseUnits actions height db activity fate := by
  cases h with
  | filtered h => exact isTransfer_eq_false h
  | dropped h hcheck => cases hcheck
  | skipped h hanswer hbalances => exact ⟨_, _, hanswer, balances_eq_empty hbalances⟩
  | unavailable hcatches h hanswer => cases hcatches
  | unparsed h hskips => exact absurd hskips (submitted_ne_skips _)
  | stored h hposts hkept => exact ⟨⟨_, _, h, hposts⟩, hkept⟩
  | refused h hposts hrejected =>
    have hpost := submitted_eq_posts.mp hposts
    have hsubmits : Submits P lib parseUnits account _ := .unisat htype hpost
    refine ⟨⟨_, _, h, hposts⟩, hrejected.1, ?_⟩
    have hno := hsubmits.noAddress hrejected.2
    obtain ⟨orderHash, -, rfl⟩ := Option.map_eq_some_iff.mp hpost
    exact hno
  | unauthorised h hposts hanswer => exact ⟨⟨_, _, h, hposts⟩, hanswer⟩
  | failed hcatches h hfails => exact hfails.submitFails h

end Unisat

end Validator

namespace Sample
open Oracle Relayer Validator

def bisActivity : Bis.Activity where
  oldPkscript := some (js (hex aliceScript))
  newPkscript := js (hex bobScript)
  newSatpoint := hex orderHash ++ ":0:0".toList
  tick := ['O', 'R', 'D', 'I']
  amount := ['5']
  activityType := .transferTransfer

def bisConfig : IntervalSync.Config := ⟨.bis, 800000, 0⟩

abbrev bisMachine : Machine (Processing Bis.Activity Bis.Located Bis.Indexed) Bis.Action Unit :=
  Processing.machine relayPrimitives bitcoinLib bisConfig
    (Bis.processor relayPrimitives bitcoinLib bisAccount)

theorem height_transferData : transferData.height = 800000 := rfl

/-- A transfer whose source answers with a negative balance. -/
def negativeActivity : Bis.Activity := { bisActivity with amount := ['7'] }

/-- A block with two transfers, and one without. -/
def bisActions : List Bis.Action :=
  [.start, .syncOnce 800001, .activities (some [bisActivity, negativeActivity]),
    .balances 800000 negativeActivity 1 (some ⟨['-', '2'], ['7']⟩),
    .balances 800000 bisActivity 0 (some ⟨['9', '5'], ['5']⟩),
    .bitcoin 800000 bisActivity 0 (some ⟨transferData, 18⟩),
    .submit 800000 bisActivity .answered, .complete, .activities (some []), .complete]

theorem inOrder_bisActions :
    ∀ a ∈ bisActions, (Bis.processor relayPrimitives bitcoinLib bisAccount).InOrder a := by
  simp [bisActions, Processor.InOrder, Bis.processor, height_transferData]

theorem stored_bisActions :
    (bisMachine.run Processing.start bisActions).sync.synced = [800001] ∧
    (bisMachine.run Processing.start bisActions).sync.db.proofs.map ProofRow.key =
      [bisPost.proofKey] := by
  decide +kernel

theorem bis_proofs_served_transfer :
    (bisMachine.run Processing.start bisActions).sync.db.proofs.map ProofRow.key =
      [bisPost.proofKey] ∧
    ∀ row ∈ (bisMachine.run Processing.start bisActions).sync.db.proofs, row.type = .bis →
      0 < row.amt ∧ 0 ≤ row.fromBal ∧ 0 ≤ row.toBal ∧ ∃ activities activity tx,
        (row.height, activities) ∈ (bisMachine.run Processing.start bisActions).served ∧
          activity ∈ activities ∧
            Bis.PostOf relayPrimitives bitcoinLib bisAccount bisActions row.height activity tx ∧
              proofRow bitcoinLib tx = .ok row := by
  refine ⟨stored_bisActions.2, ?_⟩
  generalize hs : bisMachine.run Processing.start bisActions = s
  exact bis_proofs_served relayPrimitives bitcoinLib bisAccount rfl inOrder_bisActions hs

/-! The answer to a post is lost, or its login is answered 400: the blocks complete all the
same. -/

end Sample
end BitcoinOracle
