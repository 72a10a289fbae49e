import BitcoinOracle.IntervalSync
import BitcoinOracle.Processors
import BitcoinOracle.StagedWork

/-! # From the activities of a block to the tables

A validator goes through the blocks, and for each of them its source answers when it
likes: with the activities, with the balances and the Bitcoin transaction of each of them
in any order, or not at all.  Posts are made one after the other.  An error ends the block,
and with it the sync, until the validator is started again; one post may then still be on
its way.

When a block completes, every activity that was served for it has been accounted for, and
what is noted to be stored is in the tables and stays there (`Accounted.next`).
-/
namespace BitcoinOracle
open Clarity KeyedTable Indexer StagedWork

namespace Validator

/-- What has become of an activity. -/
inductive Fate where
  /-- No transfer. -/
  | filtered
  | skipped
  /-- Its Bitcoin transaction could not be got. -/
  | unavailable
  /-- Its Bitcoin transaction does not parse. -/
  | unparsed
  | stored (tx : TxRequest)
  /-- The API has answered 400, which its client only logs. -/
  | refused (tx : TxRequest)
  /-- The login has been answered 400, which the client takes for an answer to the post. -/
  | unauthorised (tx : TxRequest)
  /-- `submitIndexerTx` has thrown, which has been caught. -/
  | failed
  deriving DecidableEq

/-- The block that `processBlock$` is at. -/
inductive Block (α κ σ : Type) where
  | idle
  | fetching
  | running (activities : List α) (work : Work α κ σ Fate)
  | errored (inFlight : Option (α × κ × σ))

/-- The activity that `submitIndexerTx` is called for next, or has been last. -/
def Block.posting {α κ σ : Type} : Block α κ σ → Option (α × κ × σ)
  | .running _ work => work.queue.head?
  | .errored inFlight => inFlight
  | _ => none

/-- A block that has completed. -/
structure Processed (α : Type) where
  height : Int
  activities : List α
  fates : List (α × Fate)

structure Processing (α κ σ : Type) where
  sync : IntervalSync.State
  block : Block α κ σ
  /-- What the source has answered for which height. -/
  served : List (Int × List α)
  processed : List (Processed α)

/-- How the API answers a post. -/
inductive Reply where
  | answered
  /-- The login that comes before it, at the API or at the vault, is answered 400. -/
  | unauthorised
  /-- Not at all, or with an error of its own, whether or not it has got the post. -/
  | lost (reached : Bool)
  deriving DecidableEq

/-- Answers are `none` for an error.  Each is to an activity of a block, and `n` says to
which of those that wait, since some may be alike. -/
inductive ProcessAction (α ρ σ : Type) where
  | start
  | syncOnce (toBlockHeight : Int)
  | activities (answer : Option (List α))
  | balances (height : Int) (a : α) (n : Nat) (answer : Option ρ)
  | bitcoin (height : Int) (a : α) (n : Nat) (answer : Option σ)
  | submit (height : Int) (a : α) (reply : Reply)
  | complete
  | interval
  /-- A crash, or a restart. -/
  | stop
  /-- Another validator posts. -/
  | post (tx : TxRequest)

section Stages
variable {α ρ κ σ : Type} [DecidableEq α] (p : Processor α ρ κ σ)

namespace Processor

/-- What has become of an activity that is not asked about. -/
def fate (a : α) : Option Fate :=
  if p.isTransfer a then
    match p.check a with
    | .empty => some .skipped
    | _ => none
  else some .filtered

/-- The stream throws at an activity. -/
def Throws (a : α) : Prop := p.isTransfer a = true ∧ p.check a = .throws

instance : DecidablePred p.Throws := fun _ => inferInstanceAs (Decidable (_ ∧ _))

/-- The balances of a transfer arrive: the stages afterwards, or `none` for an error. -/
def onBalances (work : Work α κ σ Fate) (a : α) (n : Nat) (answer : Option ρ) :
    Option (Work α κ σ Fate) :=
  if work.first[n]? = some a then
    match answer.map (p.balances a) with
    | some (.emits k) =>
        some { work with first := work.first.eraseIdx n, second := work.second ++ [(a, k)] }
    | some .empty =>
        some { work with first := work.first.eraseIdx n, left := work.left ++ [(a, .skipped)] }
    | _ => none
  else some work

def onBitcoin (work : Work α κ σ Fate) (a : α) (n : Nat) (answer : Option σ) :
    Option (Work α κ σ Fate) :=
  match work.second[n]? with
  | none => some work
  | some (a', k) =>
      if a' = a then
        match answer with
        | some r =>
            some { work with second := work.second.eraseIdx n, queue := work.queue ++ [(a, k, r)] }
        | none =>
            if p.catchesBitcoin then
              some { work with
                second := work.second.eraseIdx n
                left := work.left ++ [(a, .unavailable)] }
            else none
      else some work

/-- A transfer that is posted leaves the queue. -/
def leaveQueue (activities : List α) (work : Work α κ σ Fate) (fate : Fate) : Block α κ σ :=
  match work.queue with
  | [] => .running activities work
  | (a, _, _) :: rest =>
      .running activities { work with queue := rest, left := work.left ++ [(a, fate)] }

/-- `submitIndexerTx` throws. -/
def catches (activities : List α) (work : Work α κ σ Fate) : Block α κ σ :=
  if p.catchesSubmit then leaveQueue activities work .failed else .errored none

end Processor

/-- The stages go on, or the stream ends; the post at the head of the queue has begun. -/
def Block.resume (activities : List α) (work : Work α κ σ Fate) :
    Option (Work α κ σ Fate) → Block α κ σ
  | some work' => .running activities work'
  | none => .errored work.queue.head?

end Stages

namespace Processing
variable {α ρ κ σ : Type} [DecidableEq α] (P : Primitives) (lib : BitcoinLib)
  (c : IntervalSync.Config) (p : Processor α ρ κ σ) (s : Processing α κ σ)

def start : Processing α κ σ := ⟨IntervalSync.start, .idle, [], []⟩

/-- The sync comes to a block, or is over. -/
def enter (sync : IntervalSync.State) : Processing α κ σ :=
  { s with
    sync := sync
    block := if sync.process.current.isSome then .fetching else .idle }

def setDatabase (db : Database) : Processing α κ σ := { s with sync := { s.sync with db := db } }

/-- A post reaches the API. -/
def store (tx : TxRequest) : Processing α κ σ :=
  match postTx P lib s.sync.db tx with
  | .ok db => s.setDatabase db
  | .error _ => s

/-- A post that the API answers.  A failure of its own it calls internal. -/
def answer (activities : List α) (work : Work α κ σ Fate) (tx : TxRequest) : Processing α κ σ :=
  match postTx P lib s.sync.db tx with
  | .ok db => { s.setDatabase db with block := Processor.leaveQueue activities work (.stored tx) }
  | .error (.indexer _) =>
      { s with block := Processor.leaveQueue activities work (.refused tx) }
  | .error _ => { s with block := p.catches activities work }

/-- What has been served for a height, and its stages. -/
def stages (height : Int) : Option (List α × Work α κ σ Fate) :=
  match s.block with
  | .running activities work =>
      if s.sync.process.current = some height then some (activities, work) else none
  | _ => none

/-- The post of an activity is the one that is made. -/
def Posts (height : Int) (a : α) : Prop :=
  s.sync.process.current = some height ∧ s.block.posting.map Prod.fst = some a

instance (height : Int) (a : α) : Decidable (s.Posts height a) :=
  inferInstanceAs (Decidable (_ ∧ _))

/-- The post at the head of the queue. -/
def submit (activities : List α) (work : Work α κ σ Fate) (reply : Reply) : Submission →
    Processing α κ σ
  | .throws => { s with block := p.catches activities work }
  | .skips => { s with block := Processor.leaveQueue activities work .unparsed }
  | .posts tx =>
      match reply with
      | .answered => s.answer P lib p activities work tx
      | .unauthorised =>
          { s with block := Processor.leaveQueue activities work (.unauthorised tx) }
      | .lost true => { s.store P lib tx with block := p.catches activities work }
      | .lost false => { s with block := p.catches activities work }

/-- A post is made, or one that was on its way when the block ended arrives. -/
def post (reply : Reply) : Processing α κ σ :=
  match s.block with
  | .running activities work =>
      match work.queue with
      | [] => s
      | (a, k, r) :: _ => s.submit P lib p activities work reply (p.submit a k r)
  | .errored (some (a, k, r)) =>
      match p.submit a k r, reply with
      | .posts tx, .answered | .posts tx, .lost true =>
          { s.store P lib tx with block := .errored none }
      | _, _ => { s with block := .errored none }
  | _ => s

/-- An action that is not possible changes nothing. -/
def next : ProcessAction α ρ σ → Processing α κ σ
  | .start => { s with sync := s.sync.next P lib c .start }
  | .syncOnce toBlockHeight =>
      match s.sync.process with
      | .ready => s.enter (s.sync.next P lib c (.syncOnce toBlockHeight))
      | _ => s
  | .activities answer =>
      match s.block, s.sync.process.current with
      | .fetching, some height =>
          match answer with
          | none => { s with block := .errored none }
          | some activities =>
              { s with
                served := s.served ++ [(height, activities)]
                block := if ∃ a ∈ activities, p.Throws a then .errored none
                  else .running activities (.sort p.fate activities) }
      | _, _ => s
  | .balances height a n answer =>
      match s.stages height with
      | some (activities, work) =>
          { s with block := .resume activities work (p.onBalances work a n answer) }
      | none => s
  | .bitcoin height a n answer =>
      match s.stages height with
      | some (activities, work) =>
          { s with block := .resume activities work (p.onBitcoin work a n answer) }
      | none => s
  | .submit height a reply => if s.Posts height a then s.post P lib p reply else s
  | .complete =>
      match s.block, s.sync.process.current with
      | .running activities work, some height =>
          if work.Done then
            { s.enter (s.sync.next P lib c .complete) with
              processed := s.processed ++ [⟨height, activities, work.left⟩] }
          else s
      | _, _ => s
  | .interval => { s with sync := s.sync.next P lib c .interval }
  | .stop => { s with sync := s.sync.next P lib c .stop, block := .idle }
  | .post tx => s.store P lib tx

def machine : Machine (Processing α κ σ) (ProcessAction α ρ σ) Unit where
  next := next P lib c p
  log _ _ := []

end Processing

/-- What is answered about the Bitcoin transaction of an activity is of the block whose
activity it is, and the other validators are of other types. -/
def Processor.InOrder {α ρ κ σ : Type} (p : Processor α ρ κ σ) : ProcessAction α ρ σ → Prop
  | .bitcoin height _ _ (some r) => height = (p.data r).height
  | .post tx => tx.type ≠ p.type
  | _ => True

/-! ## What is right -/

/-- The proof of a post is stored, and so is its event. -/
structure Kept (P : Primitives) (db : Database) (tx : TxRequest) : Prop where
  proof : Stored ProofRow.key db.proofs tx.proofKey
  event : Stored (TxRow.id P) db.txs (tx.id P)

section Kept
variable {P : Primitives} {lib : BitcoinLib} {db db' : Database} {tx : TxRequest}

theorem kept_of_postTx (h : postTx P lib db tx = .ok db') : Kept P db' tx := by
  obtain ⟨proof, hproof, hdb⟩ := upsertTxWithProof_eq_ok.mp (postTx_eq_ok h)
  refine ⟨(stored_proofs_upsert (postTx_eq_ok h)).mpr (Or.inr rfl), ?_⟩
  rcases hdb with ⟨hstored, rfl⟩ | ⟨-, row, hrow, rfl⟩
  · exact hstored
  · rw [← txRow_id hrow]
    exact stored_append_iff.mpr (Or.inr (stored_singleton_iff.mpr rfl))

/-- What is stored stays stored. -/
theorem Kept.post {tx' : TxRequest} (hkept : Kept P db tx) (h : postTx P lib db tx' = .ok db') :
    Kept P db' tx := by
  obtain ⟨proof, -, hdb⟩ := upsertTxWithProof_eq_ok.mp (postTx_eq_ok h)
  refine ⟨(stored_proofs_upsert (postTx_eq_ok h)).mpr (Or.inl hkept.proof), ?_⟩
  rcases hdb with ⟨-, rfl⟩ | ⟨-, row, -, rfl⟩
  · exact hkept.event
  · exact stored_append_iff.mpr (Or.inl hkept.event)

/-- A proof was there before a post, or is the one of the post. -/
theorem proofRow_of_postTx (h : postTx P lib db tx = .ok db') {row : ProofRow}
    (hrow : row ∈ db'.proofs) : row ∈ db.proofs ∨ proofRow lib tx = .ok row := by
  obtain ⟨proof, hproof, hdb⟩ := upsertTxWithProof_eq_ok.mp (postTx_eq_ok h)
  have hproofs : db'.proofs = insertNew ProofRow.key db.proofs proof := by
    rcases hdb with ⟨-, rfl⟩ | ⟨-, _, -, rfl⟩
    · rfl
    · rfl
  rw [hproofs] at hrow
  rcases mem_of_mem_insertNew hrow with hold | rfl
  · exact Or.inl hold
  · exact Or.inr hproof

/-- An error of a post is its own: the same post fails in the same way where nothing is
stored. -/
theorem postTx_empty_eq_error {e : UpsertError} (h : postTx P lib db tx = .error e) :
    postTx P lib .empty tx = .error e := by
  unfold postTx at h ⊢
  cases hvalid : validateOrderHash P tx with
  | error e' => simpa only [hvalid, bind, Except.bind] using h
  | ok u =>
    simp only [hvalid, bind, Except.bind] at h ⊢
    unfold upsertTxWithProof at h ⊢
    cases hproof : proofRow lib tx with
    | error e' => simpa only [hproof, bind, Except.bind] using h
    | ok proof =>
      simp only [hproof, bind, Except.bind] at h ⊢
      split at h
      · cases h
      · cases hrow : txRow proof.txId tx with
        | error e' => simpa [hrow, lookup, Database.empty] using h
        | ok row => simp [hrow] at h

end Kept

section Right
variable {α ρ κ σ : Type} (P : Primitives) (lib : BitcoinLib) (p : Processor α ρ κ σ)
  (Ans : ProcessAction α ρ σ → Prop)

namespace Processor

/-- The balances of an activity are asked for. -/
def Asked (a : α) : Prop := p.isTransfer a = true ∧ p.check a = .emits ()

/-- An activity has got its balances. -/
def Balanced (height : Int) (a : α) (k : κ) : Prop :=
  p.Asked a ∧ ∃ n r, Ans (.balances height a n (some r)) ∧ p.balances a r = .emits k

/-- An activity has got its Bitcoin transaction too. -/
structure Queued (height : Int) (a : α) (k : κ) (r : σ) : Prop where
  balanced : p.Balanced Ans height a k
  answered : ∃ n, Ans (.bitcoin height a n (some r))
  height : height = (p.data r).height

/-- The API has answered a post with an error, which is the post's own. -/
def Rejected (height : Int) (a : α) (tx : TxRequest) (e : UpsertError) : Prop :=
  Ans (.submit height a .answered) ∧ postTx P lib .empty tx = .error e

/-- A post fails: it is not made, or its answer is lost or an error that is not 400. -/
def Fails (height : Int) (a : α) (k : κ) (r : σ) : Prop :=
  p.submit a k r = .throws ∨ ∃ tx, p.submit a k r = .posts tx ∧
    ((∃ reached, Ans (.submit height a (.lost reached))) ∨
      ∃ e, Rejected P lib Ans height a tx e ∧ ∀ message, e ≠ .indexer message)

/-- What may become of an activity, and why. -/
inductive Fated (height : Int) (db : Database) (a : α) : Fate → Prop
  | filtered (h : p.isTransfer a = false) : Fated height db a .filtered
  | dropped (h : p.isTransfer a = true) (hcheck : p.check a = .empty) :
      Fated height db a .skipped
  | skipped {n : Nat} {r : ρ} (h : p.Asked a) (hanswer : Ans (.balances height a n (some r)))
      (hbalances : p.balances a r = .empty) : Fated height db a .skipped
  | unavailable {k : κ} {n : Nat} (hcatches : p.catchesBitcoin = true)
      (h : p.Balanced Ans height a k) (hanswer : Ans (.bitcoin height a n none)) :
      Fated height db a .unavailable
  | unparsed {k : κ} {r : σ} (h : p.Queued Ans height a k r) (hskips : p.submit a k r = .skips) :
      Fated height db a .unparsed
  | stored {k : κ} {r : σ} {tx : TxRequest} (h : p.Queued Ans height a k r)
      (hposts : p.submit a k r = .posts tx) (hkept : Kept P db tx) :
      Fated height db a (.stored tx)
  | refused {k : κ} {r : σ} {tx : TxRequest} {message : Text} (h : p.Queued Ans height a k r)
      (hposts : p.submit a k r = .posts tx)
      (hrejected : Rejected P lib Ans height a tx (.indexer message)) :
      Fated height db a (.refused tx)
  | unauthorised {k : κ} {r : σ} {tx : TxRequest} (h : p.Queued Ans height a k r)
      (hposts : p.submit a k r = .posts tx) (hanswer : Ans (.submit height a .unauthorised)) :
      Fated height db a (.unauthorised tx)
  | failed {k : κ} {r : σ} (hcatches : p.catchesSubmit = true) (h : p.Queued Ans height a k r)
      (hfails : p.Fails P lib Ans height a k r) : Fated height db a .failed

/-- What the activities have got is right for them. -/
abbrev Holds (height : Int) (db : Database) (work : Work α κ σ Fate) : Prop :=
  work.Holds p.Asked (p.Balanced Ans height) (p.Queued Ans height) (p.Fated P lib Ans height db)

/-- An activity goes to the next stage, or leaves. -/
abbrev Moves (height : Int) (db : Database) : Work α κ σ Fate → Work α κ σ Fate → Prop :=
  Move (p.Balanced Ans height) (p.Queued Ans height) (p.Fated P lib Ans height db)

/-- A post is of an activity that has been served for its height. -/
def Serves (served : List (Int × List α)) (tx : TxRequest) : Prop :=
  ∃ activities a k r, (tx.height, activities) ∈ served ∧ a ∈ activities ∧
    p.Queued Ans tx.height a k r ∧ p.submit a k r = .posts tx

end Processor

/-- What is going on at a height is right for what has been served. -/
def Block.Right (served : List (Int × List α)) (db : Database) (height : Option Int) :
    Block α κ σ → Prop
  | .running activities work => ∃ h, height = some h ∧ (h, activities) ∈ served ∧
      work.items.Perm activities ∧
      p.Holds P lib Ans h db work
  | .errored (some (a, k, r)) => ∃ h activities, height = some h ∧ (h, activities) ∈ served ∧
      a ∈ activities ∧ p.Queued Ans h a k r
  | _ => True

variable {P lib p Ans} {db db' : Database} {served : List (Int × List α)} {height : Int}
  {activities : List α} {work work' : Work α κ σ Fate}

theorem Processor.Fated.post {tx : TxRequest} (h : postTx P lib db tx = .ok db') {a : α}
    {fate : Fate} (hfate : p.Fated P lib Ans height db a fate) :
    p.Fated P lib Ans height db' a fate := by
  cases hfate with
  | filtered h => exact .filtered h
  | dropped h hcheck => exact .dropped h hcheck
  | skipped h hanswer hbalances => exact .skipped h hanswer hbalances
  | unavailable hcatches h hanswer => exact .unavailable hcatches h hanswer
  | unparsed h hskips => exact .unparsed h hskips
  | stored hqueued hposts hkept => exact .stored hqueued hposts (hkept.post h)
  | refused h hposts hrejected => exact .refused h hposts hrejected
  | unauthorised h hposts hanswer => exact .unauthorised h hposts hanswer
  | failed hcatches h hfails => exact .failed hcatches h hfails

theorem Processor.Serves.mono {served' : List (Int × List α)} {tx : TxRequest}
    (h : p.Serves Ans served tx) (hsub : served ⊆ served') : p.Serves Ans served' tx := by
  obtain ⟨activities, a, k, r, hserved, hrest⟩ := h
  exact ⟨activities, a, k, r, hsub hserved, hrest⟩

/-- An activity that the stream does not throw at is asked about, or has its fate. -/
theorem Processor.fate_eq_none {a : α} (hthrows : ¬ p.Throws a) (h : p.fate a = none) :
    p.Asked a := by
  unfold Processor.fate at h
  cases htransfer : p.isTransfer a with
  | false => simp [htransfer] at h
  | true =>
    refine ⟨htransfer, ?_⟩
    cases hcheck : p.check a with
    | emits u => rfl
    | empty => simp [htransfer, hcheck] at h
    | throws => exact absurd ⟨htransfer, hcheck⟩ hthrows

theorem Processor.fated_of_fate {a : α} {fate : Fate} (h : p.fate a = some fate) :
    p.Fated P lib Ans height db a fate := by
  unfold Processor.fate at h
  cases htransfer : p.isTransfer a with
  | false =>
    rw [htransfer] at h
    obtain rfl := Option.some.inj h
    exact .filtered htransfer
  | true =>
    cases hcheck : p.check a with
    | emits u => simp [htransfer, hcheck] at h
    | throws => simp [htransfer, hcheck] at h
    | empty =>
      simp only [htransfer, hcheck, if_true, Option.some.injEq] at h
      subst h
      exact .dropped htransfer hcheck

theorem holds_sort (hthrows : ¬ ∃ a ∈ activities, p.Throws a) :
    p.Holds P lib Ans height db (.sort p.fate activities) :=
  Work.holds_sort (fun a ha hnone => p.fate_eq_none (fun h => hthrows ⟨a, ha, h⟩) hnone)
    fun _ _ _ => Processor.fated_of_fate

theorem onBalances_move [DecidableEq α] (hw : p.Holds P lib Ans height db work)
    {a : α} {n : Nat} {answer : Option ρ} (hanswer : Ans (.balances height a n answer))
    (h : p.onBalances work a n answer = some work') :
    work' = work ∨ p.Moves P lib Ans height db work work' := by
  unfold Processor.onBalances at h
  split at h
  · next ha =>
    have hasked : p.Asked a := hw.first a (List.mem_of_getElem? ha)
    cases answer with
    | none => cases h
    | some r =>
      cases hr : p.balances a r with
      | emits k =>
        simp only [Option.map_some, hr, Option.some.injEq] at h
        subst h
        exact Or.inr (.pass ha ⟨hasked, n, r, hanswer, hr⟩)
      | empty =>
        simp only [Option.map_some, hr, Option.some.injEq] at h
        subst h
        exact Or.inr (.leave ha (.skipped hasked hanswer hr))
      | throws => simp [hr] at h
  · exact Or.inl (Option.some.inj h).symm

theorem onBitcoin_move [DecidableEq α] (hw : p.Holds P lib Ans height db work)
    {a : α} {n : Nat} {answer : Option σ} (hanswer : Ans (.bitcoin height a n answer))
    (horder : p.InOrder (.bitcoin height a n answer))
    (h : p.onBitcoin work a n answer = some work') :
    work' = work ∨ p.Moves P lib Ans height db work work' := by
  unfold Processor.onBitcoin at h
  split at h
  · exact Or.inl (Option.some.inj h).symm
  · next a' k hx =>
    split at h
    · next ha =>
      subst ha
      have hbalanced : p.Balanced Ans height a' k := hw.second _ (List.mem_of_getElem? hx)
      cases answer with
      | some r =>
        obtain rfl := Option.some.inj h
        exact Or.inr (.passSecond hx ⟨hbalanced, ⟨n, hanswer⟩, horder⟩)
      | none =>
        dsimp only at h
        split at h
        · next hcatches =>
          obtain rfl := Option.some.inj h
          exact Or.inr (.leaveSecond hx (.unavailable hcatches hbalanced hanswer))
        · cases h
    · exact Or.inl (Option.some.inj h).symm

/-! ## Blocks -/

theorem right_resume (hserved : (height, activities) ∈ served)
    (hperm : work.items.Perm activities)
    (hw : p.Holds P lib Ans height db work)
    {next : Option (Work α κ σ Fate)}
    (h : ∀ work', next = some work' →
      work' = work ∨ p.Moves P lib Ans height db work work') :
    (Block.resume activities work next).Right P lib p Ans served db (some height) := by
  cases next with
  | some work' =>
    rcases h work' rfl with rfl | hmove
    · exact ⟨height, rfl, hserved, hperm, hw⟩
    · exact ⟨height, rfl, hserved, hmove.perm.trans hperm, hmove.holds hw⟩
  | none =>
    show Block.Right P lib p Ans served db _ (.errored work.queue.head?)
    cases hhead : work.queue.head? with
    | none => trivial
    | some x =>
      have hx : x ∈ work.queue := List.mem_of_head? hhead
      refine ⟨height, activities, rfl, hserved, hperm.mem_iff.mp ?_, hw.queue x hx⟩
      exact List.mem_append_left _ (List.mem_append_right _ (List.mem_map_of_mem hx))

theorem right_leaveQueue {a : α} {k : κ} {r : σ} {rest : List (α × κ × σ)}
    (hserved : (height, activities) ∈ served) (hperm : work.items.Perm activities)
    (hw : p.Holds P lib Ans height db work)
    (hqueue : work.queue = (a, k, r) :: rest) {fate : Fate}
    (hfate : p.Fated P lib Ans height db a fate) :
    (Processor.leaveQueue activities work fate).Right P lib p Ans served db (some height) := by
  have hmove : p.Moves P lib Ans height db work _ :=
    .leaveQueue hqueue hfate
  unfold Processor.leaveQueue
  rw [hqueue]
  exact ⟨height, rfl, hserved, hmove.perm.trans hperm, hmove.holds hw⟩

theorem right_catches {a : α} {k : κ} {r : σ} {rest : List (α × κ × σ)}
    (hserved : (height, activities) ∈ served) (hperm : work.items.Perm activities)
    (hw : p.Holds P lib Ans height db work)
    (hqueue : work.queue = (a, k, r) :: rest) (hfails : p.Fails P lib Ans height a k r) :
    (p.catches activities work).Right P lib p Ans served db (some height) := by
  unfold Processor.catches
  split
  · next hcatches =>
    have hqueued : p.Queued Ans height a k r :=
      hw.queue (a, k, r) (hqueue ▸ List.mem_cons_self)
    exact right_leaveQueue hserved hperm hw hqueue (.failed hcatches hqueued hfails)
  · trivial

/-- A post changes nothing about what is going on. -/
theorem Block.Right.post {tx : TxRequest} (h : postTx P lib db tx = .ok db')
    {block : Block α κ σ} {current : Option Int}
    (hblock : block.Right P lib p Ans served db current) :
    block.Right P lib p Ans served db' current := by
  cases block with
  | idle => trivial
  | fetching => trivial
  | running activities work =>
    obtain ⟨height, hheight, hserved, hperm, hw⟩ := hblock
    exact ⟨height, hheight, hserved, hperm, hw.mono fun _ _ => Processor.Fated.post h⟩
  | errored inFlight =>
    cases inFlight with
    | none => trivial
    | some x => exact hblock

theorem Block.Right.mono {served' : List (Int × List α)} {block : Block α κ σ}
    {current : Option Int} (hblock : block.Right P lib p Ans served db current)
    (hsub : served ⊆ served') : block.Right P lib p Ans served' db current := by
  cases block with
  | idle => trivial
  | fetching => trivial
  | running activities work =>
    obtain ⟨height, hheight, hserved, hrest⟩ := hblock
    exact ⟨height, hheight, hsub hserved, hrest⟩
  | errored inFlight =>
    cases inFlight with
    | none => trivial
    | some x =>
      obtain ⟨height, activities, hheight, hserved, hrest⟩ := hblock
      exact ⟨height, activities, hheight, hsub hserved, hrest⟩

end Right

/-! ## What holds of every run -/

namespace Processing
variable {α ρ κ σ : Type}

/-- All that has been processed is accounted for, and all that is stored has been served. -/
structure Accounted (P : Primitives) (lib : BitcoinLib) (c : IntervalSync.Config)
    (p : Processor α ρ κ σ) (Ans : ProcessAction α ρ σ → Prop) (s : Processing α κ σ) : Prop where
  sound : IntervalSync.Sound c s.sync
  block : s.block.Right P lib p Ans s.served s.sync.db s.sync.process.current
  completed : ∀ height ∈ s.sync.completed, ∃ b ∈ s.processed, b.height = height
  processed : ∀ b ∈ s.processed, (b.height, b.activities) ∈ s.served ∧
    (b.fates.map Prod.fst).Perm b.activities ∧
    ∀ x ∈ b.fates, p.Fated P lib Ans b.height s.sync.db x.1 x.2
  proofs : ∀ row ∈ s.sync.db.proofs, row.type = p.type →
    ∃ tx, p.Serves Ans s.served tx ∧ proofRow lib tx = .ok row

section
variable {P : Primitives} {lib : BitcoinLib} {c : IntervalSync.Config} {p : Processor α ρ κ σ}
  {Ans : ProcessAction α ρ σ → Prop} {s : Processing α κ σ} {height : Int}
  {activities : List α} {work : Work α κ σ Fate}

theorem accounted_start (P : Primitives) (lib : BitcoinLib) (c : IntervalSync.Config)
    (p : Processor α ρ κ σ) (Ans : ProcessAction α ρ σ → Prop) :
    Accounted P lib c p Ans (start : Processing α κ σ) where
  sound := IntervalSync.sound_start c
  block := trivial
  completed _ hmem := (nomatch hmem)
  processed _ hmem := (nomatch hmem)
  proofs _ hmem := (nomatch hmem)

theorem Accounted.setBlock (h : Accounted P lib c p Ans s) {block : Block α κ σ}
    (hblock : block.Right P lib p Ans s.served s.sync.db s.sync.process.current) :
    Accounted P lib c p Ans { s with block := block } :=
  ⟨h.sound, hblock, h.completed, h.processed, h.proofs⟩

/-- A post of the block, or of another validator. -/
theorem Accounted.setDatabase (h : Accounted P lib c p Ans s) {tx : TxRequest} {db : Database}
    (hpost : postTx P lib s.sync.db tx = .ok db) (hcan : s.sync.CanPost c tx)
    (hserves : tx.type = p.type → p.Serves Ans s.served tx) :
    Accounted P lib c p Ans (s.setDatabase db) where
  sound := h.sound.post hcan hpost
  block := h.block.post hpost
  completed := h.completed
  processed b hb := by
    obtain ⟨hserved, hperm, hfates⟩ := h.processed b hb
    exact ⟨hserved, hperm, fun x hx => (hfates x hx).post hpost⟩
  proofs row hrow htype := by
    rcases proofRow_of_postTx hpost hrow with hold | hnew
    · exact h.proofs row hold htype
    · refine ⟨tx, hserves ?_, hnew⟩
      obtain ⟨_, _, _, rfl⟩ := exists_proofRow hnew
      exact htype

theorem Accounted.store (h : Accounted P lib c p Ans s) {tx : TxRequest}
    (hcan : s.sync.CanPost c tx) (hserves : tx.type = p.type → p.Serves Ans s.served tx) :
    Accounted P lib c p Ans (s.store P lib tx) := by
  unfold Processing.store
  split
  · next db hpost => exact h.setDatabase hpost hcan hserves
  · exact h

variable (P lib s) in
theorem store_frame (tx : TxRequest) : (s.store P lib tx).served = s.served ∧
    (s.store P lib tx).sync.process = s.sync.process ∧
    ((s.store P lib tx).sync.db = s.sync.db ∨
      postTx P lib s.sync.db tx = .ok (s.store P lib tx).sync.db) := by
  unfold Processing.store
  split
  · next db hpost => exact ⟨rfl, rfl, Or.inr hpost⟩
  · exact ⟨rfl, rfl, Or.inl rfl⟩

/-- What an activity of the present block posts may be posted. -/
theorem Processor.Queued.posts {a : α} {k : κ} {r : σ} {tx : TxRequest}
    (hqueued : p.Queued Ans height a k r) (hposts : p.submit a k r = .posts tx)
    (hcurrent : s.sync.process.current = some height)
    (hserved : (height, activities) ∈ s.served) (ha : a ∈ activities) :
    s.sync.CanPost c tx ∧ p.Serves Ans s.served tx := by
  have htx : tx.height = height := (p.submit_posts hposts).2.trans hqueued.height.symm
  refine ⟨fun _ => ?_, activities, a, k, r, ?_, ha, ?_, hposts⟩
  · rw [hcurrent, htx]
  · rwa [htx]
  · rwa [htx]

theorem stages_eq_some {height : Int} : s.stages height = some (activities, work) ↔
    s.block = .running activities work ∧ s.sync.process.current = some height := by
  unfold stages
  cases s.block with
  | running activities' work' => simp [and_comm]
  | idle | fetching | errored => simp

/-- What the activities of a height have got is right for them. -/
theorem Accounted.running (h : Accounted P lib c p Ans s)
    (hstages : s.stages height = some (activities, work)) :
    (height, activities) ∈ s.served ∧ work.items.Perm activities ∧
      p.Holds P lib Ans height s.sync.db work := by
  obtain ⟨hblock, hcurrent⟩ := stages_eq_some.mp hstages
  have hright := h.block
  rw [hblock] at hright
  obtain ⟨height', hheight, hrest⟩ := hright
  obtain rfl := Option.some.inj (hcurrent.symm.trans hheight)
  exact hrest

theorem Accounted.submit (h : Accounted P lib c p Ans s)
    (hstages : s.stages height = some (activities, work)) {a : α} {k : κ} {r : σ}
    {rest : List (α × κ × σ)} (hqueue : work.queue = (a, k, r) :: rest) {reply : Reply}
    (hreply : Ans (.submit height a reply)) :
    Accounted P lib c p Ans (s.submit P lib p activities work reply (p.submit a k r)) := by
  obtain ⟨hserved, hperm, hw⟩ := h.running hstages
  have hcurrent := (stages_eq_some.mp hstages).2
  have hqueued : p.Queued Ans height a k r := hw.queue (a, k, r) (hqueue ▸ List.mem_cons_self)
  have ha : a ∈ activities := by
    refine hperm.mem_iff.mp (List.mem_append_left _ (List.mem_append_right _ ?_))
    rw [hqueue]
    exact List.mem_cons_self
  have hcatches : p.Fails P lib Ans height a k r → (p.catches activities work).Right P lib p Ans
      s.served s.sync.db s.sync.process.current := by
    intro hfails
    rw [hcurrent]
    exact right_catches hserved hperm hw hqueue hfails
  have hleave : ∀ fate, p.Fated P lib Ans height s.sync.db a fate →
      (Processor.leaveQueue activities work fate).Right P lib p Ans s.served s.sync.db
        s.sync.process.current := by
    intro fate hfate
    rw [hcurrent]
    exact right_leaveQueue hserved hperm hw hqueue hfate
  cases hsubmit : p.submit a k r with
  | throws => exact h.setBlock (hcatches (Or.inl hsubmit))
  | skips => exact h.setBlock (hleave .unparsed (.unparsed hqueued hsubmit))
  | posts tx =>
    obtain ⟨hcan, hserves⟩ := Processor.Queued.posts (c := c) hqueued hsubmit hcurrent hserved ha
    cases reply with
    | answered =>
      have hrejected : ∀ {e}, postTx P lib s.sync.db tx = .error e →
          Processor.Rejected P lib Ans height a tx e :=
        fun he => ⟨hreply, postTx_empty_eq_error he⟩
      show Accounted P lib c p Ans (s.answer P lib p activities work tx)
      unfold Processing.answer
      split
      · next db hpost =>
        refine (h.setDatabase hpost hcan fun _ => hserves).setBlock ?_
        show Block.Right P lib p Ans s.served db s.sync.process.current _
        rw [hcurrent]
        have hw' := hw.mono fun _ _ => Processor.Fated.post hpost
        exact right_leaveQueue hserved hperm hw' hqueue
          (.stored hqueued hsubmit (kept_of_postTx hpost))
      · next message hrefused =>
        exact h.setBlock (hleave _ (.refused hqueued hsubmit (hrejected hrefused)))
      · next e hother hrefused =>
        exact h.setBlock (hcatches (Or.inr ⟨tx, hsubmit, Or.inr ⟨e, hrejected hrefused, hother⟩⟩))
    | unauthorised => exact h.setBlock (hleave _ (.unauthorised hqueued hsubmit hreply))
    | lost reached =>
      have hfails : p.Fails P lib Ans height a k r :=
        Or.inr ⟨tx, hsubmit, Or.inl ⟨reached, hreply⟩⟩
      cases reached with
      | false => exact h.setBlock (hcatches hfails)
      | true =>
        refine (h.store hcan fun _ => hserves).setBlock ?_
        obtain ⟨hsame, hprocess, hdb⟩ := store_frame P lib s tx
        rw [hsame, hprocess]
        rcases hdb with hdb | hdb
        · rw [hdb]
          exact hcatches hfails
        · exact (hcatches hfails).post hdb

/-- A post is of the block at hand, whether the block still goes on or has ended. -/
theorem Accounted.posted (h : Accounted P lib c p Ans s) {a : α} {reply : Reply}
    (hposts : s.Posts height a) (hreply : Ans (.submit height a reply)) :
    Accounted P lib c p Ans (s.post P lib p reply) := by
  obtain ⟨hcurrent, hposting⟩ := hposts
  unfold Processing.post
  split
  · next activities work hblock =>
    split
    · exact h
    · next a' k r rest hqueue =>
      obtain rfl : a' = a := by
        rw [hblock, Block.posting, hqueue] at hposting
        exact Option.some.inj hposting
      exact h.submit (stages_eq_some.mpr ⟨hblock, hcurrent⟩) hqueue hreply
  · next a' k r hblock =>
    have hright := h.block
    rw [hblock] at hright
    obtain ⟨height', activities, hcurrent', hserved, hmem, hqueued⟩ := hright
    have hstore : ∀ tx, p.submit a' k r = .posts tx →
        Accounted P lib c p Ans { s.store P lib tx with block := .errored none } := by
      intro tx hsubmit
      obtain ⟨hcan, hserves⟩ :=
        Processor.Queued.posts (c := c) hqueued hsubmit hcurrent' hserved hmem
      exact (h.store hcan fun _ => hserves).setBlock trivial
    split
    · next tx hsubmit => exact hstore tx hsubmit
    · next tx hsubmit => exact hstore tx hsubmit
    · exact h.setBlock trivial
  · exact h

variable (P lib c) in
theorem sync_frame (sync : IntervalSync.State) {a : IntervalSync.Action}
    (ha : a = .start ∨ a = .interval ∨ ∃ toBlockHeight, a = .syncOnce toBlockHeight) :
    (sync.next P lib c a).db = sync.db ∧ (sync.next P lib c a).completed = sync.completed := by
  rcases ha with rfl | rfl | ⟨toBlockHeight, rfl⟩
  · dsimp only [IntervalSync.State.next]
    split
    · exact ⟨rfl, rfl⟩
    · exact ⟨rfl, rfl⟩
  · dsimp only [IntervalSync.State.next]
    split
    · exact ⟨rfl, rfl⟩
    · exact ⟨rfl, rfl⟩
  · dsimp only [IntervalSync.State.next]
    split
    · split
      · exact ⟨rfl, rfl⟩
      · exact ⟨rfl, rfl⟩
    · exact ⟨rfl, rfl⟩

variable (P lib c) in
/-- A start, and the end of an interval, come between blocks. -/
theorem current_next (sync : IntervalSync.State) {a : IntervalSync.Action}
    (ha : a = .start ∨ a = .interval) :
    (sync.next P lib c a).process.current = sync.process.current := by
  rcases ha with rfl | rfl
  · cases hprocess : sync.process with
    | down | ready | syncing | waiting =>
      simp [IntervalSync.State.next, hprocess, IntervalSync.Process.current]
  · cases hprocess : sync.process with
    | down | ready | syncing | waiting =>
      simp [IntervalSync.State.next, hprocess, IntervalSync.Process.current]

/-- What a sync does apart from posts and completions leaves the tables alone. -/
theorem Accounted.setSync (h : Accounted P lib c p Ans s) {sync : IntervalSync.State}
    (hsound : IntervalSync.Sound c sync) (hdb : sync.db = s.sync.db)
    (hcompleted : sync.completed = s.sync.completed) {block : Block α κ σ}
    (hblock : block.Right P lib p Ans s.served s.sync.db sync.process.current) :
    Accounted P lib c p Ans { s with sync := sync, block := block } where
  sound := hsound
  block := by
    show block.Right P lib p Ans s.served sync.db sync.process.current
    rwa [hdb]
  completed := by
    show ∀ height ∈ sync.completed, ∃ b ∈ s.processed, b.height = height
    rw [hcompleted]
    exact h.completed
  processed := by
    show ∀ b ∈ s.processed, _ ∧ _ ∧ ∀ x ∈ b.fates, p.Fated P lib Ans b.height sync.db x.1 x.2
    rw [hdb]
    exact h.processed
  proofs := by
    show ∀ row ∈ sync.db.proofs, _
    rw [hdb]
    exact h.proofs

theorem right_enter (served : List (Int × List α)) (db : Database) (current : Option Int) :
    (if current.isSome then .fetching else .idle : Block α κ σ).Right P lib p Ans served db
      current := by
  split
  · trivial
  · trivial

/-- A block is completed when all its activities have left. -/
theorem Accounted.complete (h : Accounted P lib c p Ans s)
    (hblock : s.block = .running activities work) (hcurrent : s.sync.process.current = some height)
    (hdone : work.Done) : Accounted P lib c p Ans
      { s.enter (s.sync.next P lib c .complete) with
        processed := s.processed ++ [⟨height, activities, work.left⟩] } := by
  have hright := h.block
  rw [hblock] at hright
  obtain ⟨height', hheight', hserved, hperm, hw⟩ := hright
  obtain rfl : height = height' := Option.some.inj (hcurrent.symm.trans hheight')
  have hframe : (s.sync.next P lib c .complete).db = s.sync.db ∧
      (s.sync.next P lib c .complete).completed = s.sync.completed ++ [height] := by
    cases hprocess : s.sync.process with
    | syncing height' toBlockHeight =>
      rw [hprocess] at hcurrent
      obtain rfl := Option.some.inj hcurrent
      simp only [IntervalSync.State.next, hprocess]
      split
      · exact ⟨rfl, rfl⟩
      · exact ⟨rfl, rfl⟩
    | down | ready | waiting =>
      rw [hprocess] at hcurrent
      cases hcurrent
  obtain ⟨hdb, hcompleted⟩ := hframe
  have hsound : IntervalSync.Sound c (s.sync.next P lib c .complete) := h.sound.next .complete
  refine ⟨hsound, right_enter _ _ _, ?_, ?_, ?_⟩
  · intro height' hmem
    change height' ∈ (s.sync.next P lib c .complete).completed at hmem
    rw [hcompleted] at hmem
    rcases List.mem_append.mp hmem with hold | hnew
    · obtain ⟨b, hb, hheight⟩ := h.completed height' hold
      exact ⟨b, List.mem_append_left _ hb, hheight⟩
    · obtain rfl := List.mem_singleton.mp hnew
      exact ⟨_, List.mem_append_right _ List.mem_cons_self, rfl⟩
  · intro b hb
    show _ ∧ _ ∧
      ∀ x ∈ b.fates, p.Fated P lib Ans b.height (s.sync.next P lib c .complete).db x.1 x.2
    rw [hdb]
    rcases List.mem_append.mp hb with hold | hnew
    · exact h.processed b hold
    · obtain rfl := List.mem_singleton.mp hnew
      exact ⟨hserved, hdone.items_eq ▸ hperm, hw.left⟩
  · show ∀ row ∈ (s.sync.next P lib c .complete).db.proofs, _
    rw [hdb]
    exact h.proofs

/-- **A step keeps everything accounted for.** -/
theorem Accounted.next [DecidableEq α] (h : Accounted P lib c p Ans s) (hc : c.name = p.type)
    {a : ProcessAction α ρ σ} (ha : p.InOrder a) (hans : Ans a) :
    Accounted P lib c p Ans (s.next P lib c p a) := by
  cases a with
  | start =>
    obtain ⟨hdb, hcompleted⟩ := sync_frame P lib c s.sync (Or.inl rfl)
    refine h.setSync (h.sound.next .start) hdb hcompleted ?_
    rw [current_next P lib c s.sync (Or.inl rfl)]
    exact h.block
  | interval =>
    obtain ⟨hdb, hcompleted⟩ := sync_frame P lib c s.sync (Or.inr (Or.inl rfl))
    refine h.setSync (h.sound.next .interval) hdb hcompleted ?_
    rw [current_next P lib c s.sync (Or.inr rfl)]
    exact h.block
  | stop => exact h.setSync (h.sound.next .stop) rfl rfl trivial
  | syncOnce toBlockHeight =>
    dsimp only [Processing.next]
    split
    · obtain ⟨hdb, hcompleted⟩ :=
        sync_frame P lib c s.sync (Or.inr (Or.inr ⟨toBlockHeight, rfl⟩))
      exact h.setSync (h.sound.next (.syncOnce toBlockHeight)) hdb hcompleted (right_enter _ _ _)
    · exact h
  | activities answer =>
    dsimp only [Processing.next]
    split
    · next height hblock hcurrent =>
      cases answer with
      | none => exact h.setBlock trivial
      | some activities =>
        have hsub : s.served ⊆ s.served ++ [(height, activities)] :=
          List.subset_append_left _ _
        refine ⟨h.sound, ?_, h.completed, fun b hb => ?_, fun row hrow htype => ?_⟩
        · dsimp only
          split
          · trivial
          · next hthrows =>
            exact ⟨height, hcurrent, List.mem_append_right _ List.mem_cons_self,
              Work.sort_perm _ _, holds_sort hthrows⟩
        · obtain ⟨hserved, hrest⟩ := h.processed b hb
          exact ⟨hsub hserved, hrest⟩
        · obtain ⟨tx, hserves, hproof⟩ := h.proofs row hrow htype
          exact ⟨tx, hserves.mono hsub, hproof⟩
    · exact h
  | balances height a n answer =>
    dsimp only [Processing.next]
    split
    · next activities work hstages =>
      obtain ⟨hserved, hperm, hw⟩ := h.running hstages
      refine h.setBlock ?_
      rw [(stages_eq_some.mp hstages).2]
      exact right_resume hserved hperm hw fun work' => onBalances_move hw hans
    · exact h
  | bitcoin height a n answer =>
    dsimp only [Processing.next]
    split
    · next activities work hstages =>
      obtain ⟨hserved, hperm, hw⟩ := h.running hstages
      refine h.setBlock ?_
      rw [(stages_eq_some.mp hstages).2]
      exact right_resume hserved hperm hw fun work' => onBitcoin_move hw hans ha
    · exact h
  | submit height a reply =>
    dsimp only [Processing.next]
    split
    · next hposts => exact h.posted hposts hans
    · exact h
  | complete =>
    dsimp only [Processing.next]
    split
    · next activities work height hblock hcurrent =>
      split
      · next hdone => exact h.complete hblock hcurrent hdone
      · exact h
    · exact h
  | post tx =>
    exact h.store (fun htype => absurd (htype.trans hc) ha) fun htype => absurd htype ha

/-- **Every run keeps everything accounted for**, whatever is answered when, and however
often the validator is stopped and started. -/
theorem accounted_run [DecidableEq α] (P : Primitives) (lib : BitcoinLib)
    {c : IntervalSync.Config} {p : Processor α ρ κ σ} (hc : c.name = p.type)
    {actions : List (ProcessAction α ρ σ)} (h : ∀ a ∈ actions, p.InOrder a)
    {Ans : ProcessAction α ρ σ → Prop} (hans : ∀ a ∈ actions, Ans a) :
    Accounted P lib c p Ans ((machine P lib c p).run start actions) := by
  have hall : (machine P lib c p).Along (fun _ a => p.InOrder a ∧ Ans a) start actions :=
    Machine.along_of_forall fun a ha _ => ⟨h a ha, hans a ha⟩
  exact Machine.run_invariant (Accounted P lib c p Ans)
    (fun _ _ ha hs => hs.next hc ha.1 ha.2) hall (accounted_start P lib c p _)

end
end Processing

end Validator
end BitcoinOracle
