import BitcoinOracle.ConsensusBuff
import BitcoinOracle.RelayerMachine

/-! # The ids of the broadcasts

A broadcast and a replacement leave the id of their transaction in `submitted_tx`, each
with a callback of its own: one finds the rows by their events and stores the bytes
the id stands for, the other finds them by their nonce and stores the characters of the
id.  Both run before it is looked at whether the node has taken the transaction.

What the first one stores is right, whatever is accepted and rejected
(`submitted_ids_accepted`); what the second one stores is never right
(`not_namesAccepted_of_rewrites`).
-/
namespace BitcoinOracle
open Clarity KeyedTable Indexer Relayer

/-! ## Ids as text -/

/-- The value of a hexadecimal digit. -/
def hexValue (c : Char) : Option Nat :=
  if '0' ≤ c ∧ c ≤ '9' then some (c.toNat - 48)
  else if 'a' ≤ c ∧ c ≤ 'f' then some (c.toNat - 87)
  else if 'A' ≤ c ∧ c ≤ 'F' then some (c.toNat - 55)
  else none

/-- `Buffer.from(text, 'hex')`, which stops at the first pair that is none of digits. -/
def bufferFromHex : Text → Bytes
  | c :: d :: text =>
      match hexValue c, hexValue d with
      | some x, some y => UInt8.ofNat (16 * x + y) :: bufferFromHex text
      | _, _ => []
  | _ => []

/-- `Buffer.from(text)`. -/
def bufferFrom (text : Text) : Bytes := utf8 text

def toBuffer (input : Text) : Bytes :=
  if "ST".toList <+: input ∨ "SP".toList <+: input then bufferFrom input
  else bufferFromHex (if input[1]? = some 'x' then input.drop 2 else input)

theorem hexValue_hexDigit {n : Nat} (h : n < 16) : hexValue (hexDigit n) = some n := by
  revert n
  decide

theorem hex_cons (x : UInt8) (b : Bytes) :
    hex (x :: b) = hexDigit (x.toNat / 16) :: hexDigit (x.toNat % 16) :: hex b := rfl

theorem bufferFromHex_hex (b : Bytes) : bufferFromHex (hex b) = b := by
  induction b with
  | nil => rfl
  | cons x b ih =>
      have hhigh : x.toNat / 16 < 16 := by
        have := x.toNat_lt
        omega
      have hlow : x.toNat % 16 < 16 := Nat.mod_lt _ (by decide)
      rw [hex_cons, bufferFromHex, hexValue_hexDigit hhigh, hexValue_hexDigit hlow]
      dsimp only
      rw [ih, Nat.div_add_mod, UInt8.ofNat_toNat]

theorem hexDigit_ne {n : Nat} (h : n < 16) : hexDigit n ≠ 'S' ∧ hexDigit n ≠ 'x' := by
  revert n
  decide

/-- What is sent as hexadecimal digits is read back. -/
theorem toBuffer_hex (b : Bytes) : toBuffer (hex b) = b := by
  cases b with
  | nil => decide
  | cons x b =>
      have hhigh : x.toNat / 16 < 16 := by
        have := x.toNat_lt
        omega
      have hlow : x.toNat % 16 < 16 := Nat.mod_lt _ (by decide)
      have hfirst : ∀ d, ¬ ['S', d] <+: hex (x :: b) := fun d hpre =>
        (hexDigit_ne hhigh).1 (List.cons_prefix_cons.mp hpre).1.symm
      have haddress : ¬ ("ST".toList <+: hex (x :: b) ∨ "SP".toList <+: hex (x :: b)) :=
        not_or_intro (hfirst 'T') (hfirst 'P')
      have hsecond : ¬ (hex (x :: b))[1]? = some 'x' := fun hx =>
        (hexDigit_ne hlow).2 (Option.some.inj hx)
      rw [toBuffer, if_neg haddress, if_neg hsecond, bufferFromHex_hex]

theorem length_le_length_bufferFrom (text : Text) : text.length ≤ (bufferFrom text).length := by
  induction text with
  | nil => exact Nat.zero_le 0
  | cons c text ih =>
      have hchar : 0 < (String.utf8EncodeChar c).length := by
        rw [String.length_utf8EncodeChar]
        exact Char.utf8Size_pos c
      rw [bufferFrom, utf8, List.flatMap_cons, List.length_append, List.length_cons]
      rw [bufferFrom, utf8] at ih
      omega

namespace SubmittedIds

/-! ## Broadcasts and their callbacks -/

/-- What `broadcastTransaction` returns. -/
inductive TxBroadcastResult where
  | accepted (txid : Bytes)
  | rejected (error : Text) (txid : Option Text)
  deriving DecidableEq

def TxBroadcastResult.txid : TxBroadcastResult → Option Text
  | .accepted txid => some (hex txid)
  | .rejected _ txid => txid

def TxBroadcastResult.error : TxBroadcastResult → Option Text
  | .accepted _ => none
  | .rejected error _ => some error

/-- A transaction the node has accepted. -/
structure Accepted where
  nonce : Nat
  batch : List TxManyInput
  txid : Bytes
  deriving DecidableEq

inductive Callback where
  | onBroadcast
  | didRBFBroadcast
  deriving DecidableEq

/-- A call of `publicCall` that has the answer of the node. -/
structure Call where
  callback : Callback
  nonce : Nat
  batch : List TxManyInput
  result : TxBroadcastResult
  deriving DecidableEq

def Call.accepted (c : Call) : List Accepted :=
  match c.result with
  | .accepted txid => [⟨c.nonce, c.batch, txid⟩]
  | .rejected _ _ => []

/-- A relayer account and its rows. -/
structure State where
  db : Database
  /-- The call whose callback is to run. -/
  pending : Option Call
  /-- In the order the node has accepted them. -/
  accepted : List Accepted
  /-- Those whose callback has run. -/
  reported : List Accepted
  deriving DecidableEq

def start : State := ⟨.empty, none, [], []⟩

inductive Action where
  | setAlreadyIndexed (indexedTxs : List Event)
  /-- A batch is broadcast. -/
  | publicCall (batch : List TxManyInput) (nonce : Nat) (result : TxBroadcastResult)
  /-- What the mempool shows at a nonce, one of the accepted, is broadcast with a higher fee. -/
  | rbfIfNeeded (n : Nat) (result : TxBroadcastResult)
  | callback
  /-- The callback fails, or the relayer stops before it has run. -/
  | lose
  deriving DecidableEq

namespace State
variable (account : Account) (s : State)

def broadcast (c : Call) : State :=
  { s with pending := some c, accepted := s.accepted ++ c.accepted }

def runOnBroadcast (c : Call) : State :=
  match upsertSubmittedTx
      (submittedParams account c.nonce (c.result.txid.map toBuffer) c.result.error c.batch) s.db with
  | some db => { s with db := db, pending := none, reported := s.reported ++ c.accepted }
  | none => { s with pending := none }

def runDidRBFBroadcast (c : Call) : State :=
  match c.result.txid with
  | some newTxId =>
      { s with
        db := onRBFTx c.nonce (bufferFrom newTxId) account.address s.db
        pending := none
        reported := s.reported ++ c.accepted }
  | none => { s with pending := none } -- no buffer of `undefined`

/-- One action.  A relayer waits for the callback of a call before it goes on. -/
def next : Action → State
  | .setAlreadyIndexed indexedTxs =>
      { s with db := Relayer.setAlreadyIndexed account.address indexedTxs s.db }
  | .publicCall batch nonce result =>
      match s.pending with
      | none => s.broadcast ⟨.onBroadcast, nonce, batch, result⟩
      | some _ => s
  | .rbfIfNeeded n result =>
      match s.pending, s.accepted[n]? with
      | none, some t => s.broadcast ⟨.didRBFBroadcast, t.nonce, t.batch, result⟩
      | _, _ => s
  | .callback =>
      match s.pending with
      | some c =>
          match c.callback with
          | .onBroadcast => s.runOnBroadcast account c
          | .didRBFBroadcast => s.runDidRBFBroadcast account c
      | none => s
  | .lose => { s with pending := none }

end State

def machine (account : Account) : Machine State Action Unit where
  next := State.next account
  log _ _ := []

/-- The transaction is one of the row's event, at the row's nonce. -/
def Accepted.Carries (row : SubmittedRow) (t : Accepted) : Prop :=
  t.nonce = row.submitterNonce ∧ row.event ∈ t.batch.map TxManyInput.event

instance (row : SubmittedRow) : DecidablePred (Accepted.Carries row) :=
  fun _ => inferInstanceAs (Decidable (_ ∧ _))

/-- The last of the transactions that carry the row. -/
def lastOf (row : SubmittedRow) (ts : List Accepted) : Option Accepted :=
  (ts.filter (Accepted.Carries row)).getLast?

/-- The rows that are `ok` name transactions the node has accepted, and, once every
callback of an accepted one has run, the last one. -/
def NamesAccepted (s : State) : Prop :=
  ∀ row ∈ s.db.submittedTx, row.broadcastResultType = .ok →
    (∃ t ∈ s.accepted, t.Carries row ∧ row.stacksTxId = some t.txid) ∧
      (s.reported = s.accepted → row.stacksTxId = (lastOf row s.accepted).map Accepted.txid)

instance (s : State) : Decidable (NamesAccepted s) :=
  inferInstanceAs (Decidable (∀ row ∈ s.db.submittedTx, _ → _))

/-- The callback of a replacement meets an `ok` row of its nonce. -/
def Rewrites (account : Account) (s : State) (a : Action) : Prop :=
  a = .callback ∧ ∃ c ∈ s.pending, c.callback = .didRBFBroadcast ∧ c.result.txid.isSome = true ∧
    ∃ row ∈ s.db.submittedTx, row.submittedBy = some account.address ∧
      row.broadcastResultType = .ok ∧ row.submitterNonce = c.nonce

instance (account : Account) (s : State) (a : Action) : Decidable (Rewrites account s a) :=
  inferInstanceAs (Decidable (_ ∧ _))

/-! ## What the callbacks leave -/

section Writes
variable {account : Account} {db db' : Database} {row : SubmittedRow}

theorem updateSubmitted_of_event {tx : SubmittedParams} (h : row.event = tx.event) :
    updateSubmitted tx row = { row with
      stacksTxId := tx.stacksTxId
      submitterNonce := tx.submitterNonce.getD row.submitterNonce
      broadcastResultType := tx.broadcastResultType
      error := tx.error } := if_pos h

theorem mem_filter_event {rows : List SubmittedRow} {e : Event} (hrow : row ∈ rows)
    (hevent : row.event = e) : row ∈ rows.filter fun row => row.event = e :=
  List.mem_filter.mpr ⟨hrow, decide_eq_true hevent⟩

/-- An `ok` row is one from before, of another event, or what was to be stored. -/
theorem ok_of_upsertSubmittedRow {rows rows' : List SubmittedRow} {tx : SubmittedParams}
    {nonce : Int} (hnonce : tx.submitterNonce = some nonce)
    (hid : tx.broadcastResultType = .ok → tx.stacksTxId.isSome = true)
    (h : upsertSubmittedRow rows tx = some rows') (hrow : row ∈ rows')
    (hok : row.broadcastResultType = .ok) :
    row ∈ rows ∧ row.event ≠ tx.event ∨
      row.event = tx.event ∧ tx.broadcastResultType = .ok ∧ row.stacksTxId = tx.stacksTxId ∧
        row.submitterNonce = nonce := by
  unfold upsertSubmittedRow at h
  split at h
  · next hnone =>
      obtain ⟨submittedBy, -, rfl⟩ := Option.map_eq_some_iff.mp h
      rcases List.mem_append.mp hrow with hold | hnew
      · refine Or.inl ⟨hold, fun hevent => ?_⟩
        have hmem := mem_filter_event hold hevent
        rw [hnone] at hmem
        cases hmem
      · obtain rfl := List.mem_singleton.mp hnew
        exact Or.inr ⟨rfl, hok, rfl, by rw [hnonce]; rfl⟩
  · next existing hone =>
      have hexisting : ∀ old ∈ rows, old.event = tx.event → old = existing := by
        intro old hold hevent
        have hmem := mem_filter_event hold hevent
        rw [hone] at hmem
        exact List.mem_singleton.mp hmem
      obtain rfl := Option.some.inj h
      by_cases hdiffers : Differs existing tx
      · rw [if_pos hdiffers] at hrow
        obtain ⟨old, hold, rfl⟩ := List.mem_map.mp hrow
        by_cases hevent : old.event = tx.event
        · rw [updateSubmitted_of_event hevent] at hok ⊢
          exact Or.inr ⟨hevent, hok, rfl, by rw [hnonce]; rfl⟩
        · rw [updateSubmitted, if_neg hevent]
          exact Or.inl ⟨hold, hevent⟩
      · rw [if_neg hdiffers] at hrow
        refine Or.inl ⟨hrow, fun hevent => hdiffers ?_⟩
        obtain rfl := hexisting row hrow hevent
        -- an `ok` row is left alone only by an `ok` without an id
        by_cases htype : row.broadcastResultType = tx.broadcastResultType
        · exact Or.inr (Or.inl (Or.inr (hid (htype ▸ hok))))
        · exact Or.inl htype
  · cases h

theorem submittedBy_of_upsertSubmittedRow {rows rows' : List SubmittedRow} {tx : SubmittedParams}
    (h : upsertSubmittedRow rows tx = some rows') (hrow : row ∈ rows') :
    (∃ old ∈ rows, row.submittedBy = old.submittedBy) ∨ row.submittedBy = tx.submittedBy := by
  unfold upsertSubmittedRow at h
  split at h
  · obtain ⟨submittedBy, hby, rfl⟩ := Option.map_eq_some_iff.mp h
    rcases List.mem_append.mp hrow with hold | hnew
    · exact Or.inl ⟨row, hold, rfl⟩
    · obtain rfl := List.mem_singleton.mp hnew
      exact Or.inr hby.symm
  · obtain rfl := Option.some.inj h
    left
    split at hrow
    · obtain ⟨old, hold, rfl⟩ := List.mem_map.mp hrow
      refine ⟨old, hold, ?_⟩
      unfold updateSubmitted
      split
      · rfl
      · rfl
    · exact ⟨row, hrow, rfl⟩
  · cases h

/-- The row of one event of a broadcast. -/
def submittedParam (account : Account) (c : Call) (i : TxManyInput) : SubmittedParams where
  event := TxManyInput.event i
  stacksTxId := c.result.txid.map toBuffer
  broadcastResultType := if c.result.error = none then .ok else .error
  error := c.result.error
  submittedBy := some account.address
  submitterNonce := some (c.nonce : Int)

theorem submittedParams_eq (account : Account) (c : Call) (batch : List TxManyInput) :
    submittedParams account c.nonce (c.result.txid.map toBuffer) c.result.error batch =
      batch.map (submittedParam account c) := rfl

theorem ok_submittedParam {c : Call} {i : TxManyInput}
    (h : (submittedParam account c i).broadcastResultType = .ok) :
    ∃ txid, c.result = .accepted txid := by
  obtain ⟨callback, nonce, batch, result⟩ := c
  cases result with
  | accepted txid => exact ⟨txid, rfl⟩
  | rejected error txid => cases h

/-- After the callback of a broadcast, an `ok` row is one from before, of no event of the
batch, or it is of the batch and has the id of the transaction. -/
theorem ok_of_upsertSubmittedTx {c : Call} (h : upsertSubmittedTx (submittedParams account c.nonce
      (c.result.txid.map toBuffer) c.result.error c.batch) db = some db')
    (hrow : row ∈ db'.submittedTx) (hok : row.broadcastResultType = .ok) :
    row ∈ db.submittedTx ∧ row.event ∉ c.batch.map TxManyInput.event ∨
      ∃ t, c.accepted = [t] ∧ t.Carries row ∧ row.stacksTxId = some t.txid := by
  rw [submittedParams_eq] at h
  obtain ⟨rows, hrows, rfl⟩ := Option.map_eq_some_iff.mp h
  have hall : ∀ (batch : List TxManyInput) (old : List SubmittedRow),
      (batch.map (submittedParam account c)).foldlM upsertSubmittedRow old = some rows →
      row ∈ old ∧ row.event ∉ batch.map TxManyInput.event ∨
        ∃ txid, c.result = .accepted txid ∧ row.event ∈ batch.map TxManyInput.event ∧
          row.stacksTxId = some txid ∧ row.submitterNonce = c.nonce := by
    intro batch
    induction batch with
    | nil =>
        intro old hold
        obtain rfl := Option.some.inj hold
        exact Or.inl ⟨hrow, List.not_mem_nil⟩
    | cons i batch ih =>
        intro old hold
        obtain ⟨first, hfirst, hrest⟩ := Option.bind_eq_some_iff.mp hold
        rw [List.map_cons, List.mem_cons, not_or]
        rcases ih first hrest with ⟨hmem, hnot⟩ | ⟨txid, hresult, hevent, hid, hnonce⟩
        · have hsome : (submittedParam account c i).broadcastResultType = .ok →
              (submittedParam account c i).stacksTxId.isSome = true := by
            intro htype
            obtain ⟨txid, hresult⟩ := ok_submittedParam htype
            rw [submittedParam, hresult]
            rfl
          rcases ok_of_upsertSubmittedRow rfl hsome hfirst hmem hok with
            ⟨hmem, hne⟩ | ⟨hevent, htype, hid, hnonce⟩
          · exact Or.inl ⟨hmem, hne, hnot⟩
          · obtain ⟨txid, hresult⟩ := ok_submittedParam htype
            refine Or.inr ⟨txid, hresult, Or.inl hevent, ?_, hnonce⟩
            rw [hid, submittedParam, hresult]
            exact congrArg some (toBuffer_hex txid)
        · exact Or.inr ⟨txid, hresult, Or.inr hevent, hid, hnonce⟩
  rcases hall c.batch db.submittedTx hrows with hold | ⟨txid, hresult, hevent, hid, hnonce⟩
  · exact Or.inl hold
  · refine Or.inr ⟨⟨c.nonce, c.batch, txid⟩, ?_, ⟨hnonce.symm, hevent⟩, hid⟩
    rw [Call.accepted, hresult]

theorem submittedBy_of_upsertSubmittedTx {c : Call}
    (hdb : ∀ row ∈ db.submittedTx, row.submittedBy = some account.address)
    (h : upsertSubmittedTx (submittedParams account c.nonce
      (c.result.txid.map toBuffer) c.result.error c.batch) db = some db')
    (hrow : row ∈ db'.submittedTx) : row.submittedBy = some account.address := by
  rw [submittedParams_eq] at h
  obtain ⟨rows, hrows, rfl⟩ := Option.map_eq_some_iff.mp h
  refine foldlM_invariant (fun rows => ∀ row ∈ rows, row.submittedBy = some account.address)
    (fun tx htx old new hnew hold row hrow => ?_) hrows hdb row hrow
  obtain ⟨i, -, rfl⟩ := List.mem_map.mp htx
  rcases submittedBy_of_upsertSubmittedRow hnew hrow with ⟨before, hbefore, heq⟩ | heq
  · exact heq.trans (hold before hbefore)
  · exact heq

/-- A callback that meets no `ok` row of its nonce changes no row. -/
theorem onRBFTx_eq_self {nonce : Int} {newTxId : Bytes} {submittedBy : Text}
    (h : ∀ row ∈ db.submittedTx, ¬ (row.submittedBy = some submittedBy ∧
      row.broadcastResultType = .ok ∧ row.submitterNonce = nonce)) :
    onRBFTx nonce newTxId submittedBy db = db := by
  have hrows : (db.submittedTx.map fun row =>
      if row.submittedBy = some submittedBy ∧ row.broadcastResultType = .ok ∧
          row.submitterNonce = nonce then { row with stacksTxId := some newTxId }
      else row) = db.submittedTx :=
    (List.map_congr_left fun row hrow => if_neg (h row hrow)).trans (List.map_id _)
  rw [onRBFTx, hrows]

end Writes

/-! ## The rows name accepted transactions -/

theorem lastOf_eq_some {row : SubmittedRow} {ts : List Accepted} {t : Accepted}
    (h : lastOf row ts = some t) : t ∈ ts ∧ t.Carries row := by
  obtain ⟨hmem, hcarries⟩ := List.mem_filter.mp (List.mem_of_getLast? h)
  exact ⟨hmem, of_decide_eq_true hcarries⟩

theorem lastOf_append_of_carries {row : SubmittedRow} {t : Accepted} (h : t.Carries row)
    (ts : List Accepted) : lastOf row (ts ++ [t]) = some t := by
  have hlast : [t].filter (Accepted.Carries row) = [t] := by simp [h]
  rw [lastOf, List.filter_append, hlast, List.getLast?_concat]

theorem lastOf_append_of_not {row : SubmittedRow} {ts' : List Accepted}
    (h : ∀ t ∈ ts', ¬ t.Carries row) (ts : List Accepted) :
    lastOf row (ts ++ ts') = lastOf row ts := by
  have hnone : ts'.filter (Accepted.Carries row) = [] :=
    List.filter_eq_nil_iff.mpr fun t ht => by simp [h t ht]
  rw [lastOf, List.filter_append, hnone, List.append_nil, lastOf]

theorem Call.mem_accepted {c : Call} {t : Accepted} (h : t ∈ c.accepted) :
    t.nonce = c.nonce ∧ t.batch = c.batch := by
  obtain ⟨callback, nonce, batch, result⟩ := c
  cases result with
  | accepted txid =>
      obtain rfl := List.mem_singleton.mp h
      exact ⟨rfl, rfl⟩
  | rejected error txid => cases h

/-- The rows are those of the account, and an `ok` row names the last of the transactions
whose callback has run. -/
structure Sound (account : Account) (s : State) : Prop where
  submittedBy : ∀ row ∈ s.db.submittedTx, row.submittedBy = some account.address
  reported : s.reported ⊆ s.accepted
  pending : ∀ c ∈ s.pending, c.accepted ⊆ s.accepted
  last : ∀ row ∈ s.db.submittedTx, row.broadcastResultType = .ok →
    ∃ t, lastOf row s.reported = some t ∧ row.stacksTxId = some t.txid

namespace Sound
variable {account : Account} {s : State}

theorem namesAccepted (h : Sound account s) : NamesAccepted s := by
  intro row hrow hok
  obtain ⟨t, hlast, hid⟩ := h.last row hrow hok
  obtain ⟨hmem, hcarries⟩ := lastOf_eq_some hlast
  refine ⟨⟨t, h.reported hmem, hcarries, hid⟩, fun hall => ?_⟩
  rw [← hall, hlast, hid]
  rfl

theorem lose (h : Sound account s) : Sound account { s with pending := none } :=
  ⟨h.submittedBy, h.reported, fun _ hc => (nomatch hc), h.last⟩

theorem setAlreadyIndexed (h : Sound account s) (indexedTxs : List Event) :
    Sound account
      { s with db := Relayer.setAlreadyIndexed account.address indexedTxs s.db } where
  submittedBy row hrow := by
    rcases List.mem_append.mp hrow with hold | hnew
    · exact h.submittedBy row hold
    · obtain ⟨e, -, rfl⟩ := List.mem_map.mp hnew
      rfl
  reported := h.reported
  pending := h.pending
  last row hrow hok := by
    rcases List.mem_append.mp hrow with hold | hnew
    · exact h.last row hold hok
    · obtain ⟨e, -, rfl⟩ := List.mem_map.mp hnew
      cases hok

theorem broadcast (h : Sound account s) (c : Call) : Sound account (s.broadcast c) where
  submittedBy := h.submittedBy
  reported := fun _ ht => List.mem_append_left _ (h.reported ht)
  pending c' hc' := by
    obtain rfl := Option.some.inj hc'
    exact List.subset_append_right _ _
  last := h.last

theorem runOnBroadcast (h : Sound account s) {c : Call} (hc : c ∈ s.pending) :
    Sound account (s.runOnBroadcast account c) := by
  unfold State.runOnBroadcast
  split
  · next db hdb =>
      refine ⟨fun row hrow => submittedBy_of_upsertSubmittedTx h.submittedBy hdb hrow,
        List.append_subset.mpr ⟨h.reported, h.pending c hc⟩, fun _ hc' => (nomatch hc'), ?_⟩
      intro row hrow hok
      rcases ok_of_upsertSubmittedTx hdb hrow hok with ⟨hold, hevent⟩ | ⟨t, ht, hcarries, hid⟩
      · have hother : ∀ t ∈ c.accepted, ¬ t.Carries row := by
          intro t ht hcarries
          obtain ⟨-, hbatch⟩ := Call.mem_accepted ht
          exact hevent (hbatch ▸ hcarries.2)
        dsimp only
        rw [lastOf_append_of_not hother]
        exact h.last row hold hok
      · dsimp only
        rw [ht, lastOf_append_of_carries hcarries]
        exact ⟨t, rfl, hid⟩
  · exact h.lose

/-- With no `ok` row of its nonce, the callback of a replacement has nothing to store. -/
theorem runDidRBFBroadcast (h : Sound account s) {c : Call} (hc : c ∈ s.pending)
    (hcallback : c.callback = .didRBFBroadcast) (hkeeps : ¬ Rewrites account s .callback) :
    Sound account (s.runDidRBFBroadcast account c) := by
  unfold State.runDidRBFBroadcast
  split
  · next newTxId htxid =>
      have hmeets : ∀ row ∈ s.db.submittedTx, ¬ (row.submittedBy = some account.address ∧
          row.broadcastResultType = .ok ∧ row.submitterNonce = c.nonce) := fun row hrow hmeets =>
        hkeeps ⟨rfl, c, hc, hcallback, htxid ▸ rfl, row, hrow, hmeets⟩
      rw [onRBFTx_eq_self hmeets]
      refine ⟨h.submittedBy, List.append_subset.mpr ⟨h.reported, h.pending c hc⟩,
        fun _ hc' => (nomatch hc'), ?_⟩
      intro row hrow hok
      have hother : ∀ t ∈ c.accepted, ¬ t.Carries row := by
        intro t ht hcarries
        obtain ⟨hnonce, -⟩ := Call.mem_accepted ht
        refine hmeets row hrow ⟨h.submittedBy row hrow, hok, ?_⟩
        rw [← hcarries.1, hnonce]
      dsimp only
      rw [lastOf_append_of_not hother]
      exact h.last row hrow hok
  · exact h.lose

theorem next (h : Sound account s) {a : Action} (hkeeps : ¬ Rewrites account s a) :
    Sound account (s.next account a) := by
  cases a with
  | setAlreadyIndexed indexedTxs => exact h.setAlreadyIndexed indexedTxs
  | publicCall batch nonce result =>
      dsimp only [State.next]
      split
      · exact h.broadcast _
      · exact h
  | rbfIfNeeded n result =>
      dsimp only [State.next]
      split
      · exact h.broadcast _
      · exact h
  | callback =>
      dsimp only [State.next]
      split
      · next c hc =>
          split
          · exact h.runOnBroadcast hc
          · next hcallback => exact h.runDidRBFBroadcast hc hcallback hkeeps
      · exact h
  | lose => exact h.lose

end Sound

theorem sound_start (account : Account) : Sound account start where
  submittedBy _ hrow := (nomatch hrow)
  reported := List.Subset.refl _
  pending _ hc := (nomatch hc)
  last _ hrow := (nomatch hrow)

/-- **The ids are those of accepted transactions.**  As long as no callback of a
replacement meets an `ok` row, whatever is broadcast, replaced, accepted and rejected. -/
theorem submitted_ids_accepted (account : Account) {actions : List Action}
    (hkeeps : (machine account).Along (fun s a => ¬ Rewrites account s a) start actions) :
    NamesAccepted ((machine account).run start actions) :=
  (Machine.run_invariant (Sound account) (fun _ _ ha h => h.next ha) hkeeps
    (sound_start account)).namesAccepted

/-- A callback that meets one leaves an id no transaction has: the characters of a
32 byte id are 64. -/
theorem not_namesAccepted_of_rewrites {account : Account} {s : State} {a : Action}
    (hsize : ∀ t ∈ s.accepted, t.txid.length = 32)
    (htext : ∀ c ∈ s.pending, ∀ newTxId ∈ c.result.txid, newTxId.length = 64)
    (h : Rewrites account s a) : ¬ NamesAccepted (s.next account a) := by
  obtain ⟨rfl, c, hc, hcallback, htxid, row, hrow, hmeets⟩ := h
  obtain ⟨newTxId, hnewTxId⟩ := Option.isSome_iff_exists.mp htxid
  have hnext : s.next account .callback = { s with
      db := onRBFTx c.nonce (bufferFrom newTxId) account.address s.db
      pending := none
      reported := s.reported ++ c.accepted } := by
    rw [State.next, hc]
    dsimp only
    rw [hcallback]
    dsimp only
    rw [State.runDidRBFBroadcast, hnewTxId]
  intro hnames
  rw [hnext] at hnames
  have hstored : { row with stacksTxId := some (bufferFrom newTxId) } ∈
      (onRBFTx c.nonce (bufferFrom newTxId) account.address s.db).submittedTx :=
    List.mem_map.mpr ⟨row, hrow, if_pos hmeets⟩
  obtain ⟨⟨t, ht, -, hid⟩, -⟩ := hnames _ hstored hmeets.2.1
  have hlong := length_le_length_bufferFrom newTxId
  have hlength := congrArg List.length (Option.some.inj hid)
  rw [htext c hc newTxId hnewTxId] at hlong
  rw [hsize t ht] at hlength
  omega

end SubmittedIds

/-! ## A batch, and its replacement -/

namespace Sample
open SubmittedIds

/-- The account of a relayer that raises its fees. -/
def stagingAccount : Account where
  principal := relayer
  address := "ST2CXS9EFB3XDNQRM8JWZEWRK5HWS7G16HN1YCKKR".toList
  maxTxPerBlock := 25
  conflictingNonceStrategy := .increase
  rbfMode := .stages

/-- A transfer to be submitted. -/
def transferInput (bitcoinTx : Bytes) : TxManyInput where
  tx := ⟨bitcoinTx, 0, 0, "ordi".toList, 5, [1], [2], 10, 5, 18⟩
  block := ⟨[], 800000⟩
  proof := ⟨0, [], 0⟩
  signaturePacks := []

def oneBatch : List TxManyInput := [transferInput [1], transferInput [2]]

def txidOf (x : UInt8) : Bytes := List.replicate 32 x

/-- A batch is rejected, accepted, and accepted once more; a replacement is rejected,
with no id in the answer. -/
def firstBroadcasts : List SubmittedIds.Action :=
  [.publicCall oneBatch 7 (.rejected "transaction rejected".toList none), .callback,
    .publicCall oneBatch 8 (.accepted (txidOf 10)), .callback,
    .publicCall oneBatch 8 (.accepted (txidOf 11)), .callback,
    .rbfIfNeeded 1 (.rejected "transaction rejected".toList none), .callback]

theorem submitted_ids_accepted_first :
    NamesAccepted ((SubmittedIds.machine stagingAccount).run SubmittedIds.start firstBroadcasts) :=
  submitted_ids_accepted stagingAccount (by
    have hkeeps : (SubmittedIds.machine stagingAccount).Along
        (fun s a => ¬ Rewrites stagingAccount s a) SubmittedIds.start firstBroadcasts :=
      ⟨by decide +kernel, by decide +kernel, by decide +kernel, by decide +kernel,
        by decide +kernel, by decide +kernel, by decide +kernel, by decide +kernel, trivial⟩
    exact hkeeps)

/-- A batch is accepted, and so is a transaction with a higher fee. -/
def withReplacement (result : TxBroadcastResult) : SubmittedIds.State :=
  (SubmittedIds.machine stagingAccount).run SubmittedIds.start
    [.publicCall oneBatch 7 (.accepted (txidOf 10)), .callback, .rbfIfNeeded 0 result, .callback]

/-- **The rows name the replacement by the characters of its id.**  And a replacement the
node has rejected, if the answer has an id. -/
theorem replacement_misnamed :
    (withReplacement (.accepted (txidOf 11))).db.submittedTx.map SubmittedRow.stacksTxId =
      [some (bufferFrom (hex (txidOf 11))), some (bufferFrom (hex (txidOf 11)))] ∧
    (bufferFrom (hex (txidOf 11))).length = 64 ∧
    ¬ NamesAccepted (withReplacement (.accepted (txidOf 11))) ∧
    ¬ NamesAccepted (withReplacement (.rejected "FeeTooLow".toList (some (hex (txidOf 11))))) := by
  decide +kernel

end Sample
end BitcoinOracle
