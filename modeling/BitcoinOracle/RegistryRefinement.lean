import BitcoinOracle.Registry
import BitcoinOracle.Overlay

/-! # Two registries as one map

The records of `oracle-registry-v1-02`, mined heights and indexed events, are a map
under the frozen records of `oracle-registry-v1-01`: the getters look into the old
registry first, for keys that fit it, and the setters write to the new one.  So the
two answer like one ordinary map as long as no record of the old registry is set to
something else and then read (`registry_refines_map_iff`).

`set-user-balance` and `set-tick-decimals` of the same contract do not have this:
they write where the getters read.
-/
namespace BitcoinOracle
open Clarity Registry

/-- The calls that write and read records. -/
inductive RecordCall where
  | setTxMined (key : Buff 8192) (value : Uint)
  | setTxIndexed (key : IndexedKey 8192) (value : IndexedTx)
  | getBitcoinTxMinedOrFail (tx : Buff 8192)
  | getBitcoinTxIndexedOrFail (bitcoinTx : Buff 8192) (output offset : Uint)

/-- What such a call answered; for the getters, with what was asked. -/
inductive RecordAnswer where
  | set (result : Result Bool)
  | mined (tx : Buff 8192) (result : Result Uint)
  | indexed (key : IndexedKey 8192) (result : Result IndexedTx)
  deriving DecidableEq

/-- The answers of the second registry to calls by `sender`. -/
def transcript (sender : Principal) : Registries → List RecordCall → List RecordAnswer
  | _, [] => []
  | r, .setTxMined key value :: calls =>
      .set (RegistryV102.setTxMined sender key value r).1 ::
        transcript sender (RegistryV102.setTxMined sender key value r).2 calls
  | r, .setTxIndexed key value :: calls =>
      .set (RegistryV102.setTxIndexed sender key value r).1 ::
        transcript sender (RegistryV102.setTxIndexed sender key value r).2 calls
  | r, .getBitcoinTxMinedOrFail tx :: calls =>
      .mined tx (RegistryV102.getBitcoinTxMinedOrFail r tx) :: transcript sender r calls
  | r, .getBitcoinTxIndexedOrFail tx output offset :: calls =>
      .indexed ⟨tx, output, offset⟩ (RegistryV102.getBitcoinTxIndexedOrFail r tx output offset) ::
        transcript sender r calls

/-- One ordinary map for each kind of record. -/
structure Records where
  mined : DataMap (Buff 8192) Uint
  indexed : DataMap (IndexedKey 8192) IndexedTx

/-- The answers of the ordinary maps. -/
def Records.transcript : Records → List RecordCall → List RecordAnswer
  | _, [] => []
  | m, .setTxMined key value :: calls =>
      .set (.ok true) :: Records.transcript { m with mined := m.mined.set key value } calls
  | m, .setTxIndexed key value :: calls =>
      .set (.ok true) :: Records.transcript { m with indexed := m.indexed.set key value } calls
  | m, .getBitcoinTxMinedOrFail tx :: calls =>
      .mined tx (.unwrap (m.mined tx) errTxNotMined) :: Records.transcript m calls
  | m, .getBitcoinTxIndexedOrFail tx output offset :: calls =>
      .indexed ⟨tx, output, offset⟩ (.unwrap (m.indexed ⟨tx, output, offset⟩) errTxNotIndexed) ::
        Records.transcript m calls

/-! ## As a map under a frozen one -/

abbrev RecordKey := Buff 8192 ⊕ IndexedKey 8192

abbrev RecordValue : RecordKey → Type
  | .inl _ => Uint
  | .inr _ => IndexedTx

def RecordCall.op : RecordCall → Overlay.Op RecordValue
  | .setTxMined key value => .set (.inl key) value
  | .setTxIndexed key value => .set (.inr key) value
  | .getBitcoinTxMinedOrFail tx => .get (.inl tx)
  | .getBitcoinTxIndexedOrFail tx output offset => .get (.inr ⟨tx, output, offset⟩)

def RecordAnswer.render : Overlay.Answer RecordValue → RecordAnswer
  | .done => .set (.ok true)
  | .found (.inl tx) height => .mined tx (.unwrap height errTxNotMined)
  | .found (.inr key) record => .indexed key (.unwrap record errTxNotIndexed)

/-- Both kinds of record, as one map. -/
def recordContent (mined : DataMap (Buff 8192) Uint) (indexed : DataMap (IndexedKey 8192) IndexedTx) :
    Overlay.Content RecordValue
  | .inl tx => mined tx
  | .inr key => indexed key

/-- The records of the first registry. -/
def Registries.legacy (r : Registries) : Overlay.Content RecordValue :=
  recordContent r.legacyMined r.legacyIndexed

/-- The records of the second registry. -/
def Registries.own (r : Registries) : Overlay.Content RecordValue :=
  recordContent r.v102.bitcoinTxMined r.v102.bitcoinTxIndexed

def Records.content (m : Records) : Overlay.Content RecordValue := recordContent m.mined m.indexed

/-- What the two registries hold between them. -/
def Registries.records (r : Registries) : Records := ⟨r.mined, r.indexed⟩

theorem Registries.content_records (r : Registries) :
    r.records.content = Overlay.merge r.legacy r.own := by
  funext k
  cases k with
  | inl tx => rfl
  | inr key => rfl

theorem unwrap_injective {α : Type} {o o' : Option α} {code : Nat}
    (h : Result.unwrap o code = Result.unwrap o' code) : o = o' := by
  cases o with
  | none => cases o' with
    | none => rfl
    | some b => cases h
  | some a => cases o' with
    | none => cases h
    | some b => cases h; rfl

theorem RecordAnswer.render_injective : Function.Injective RecordAnswer.render := by
  intro a a' h
  cases a with
  | done => cases a' with
    | done => rfl
    | found k v => cases k <;> cases h
  | found k v => cases a' with
    | done => cases k <;> cases h
    | found k' v' =>
        cases k with
        | inl tx => cases k' with
          | inl tx' =>
              injection h with htx hresult
              subst htx
              rw [unwrap_injective hresult]
          | inr key' => cases h
        | inr key => cases k' with
          | inl tx' => cases h
          | inr key' =>
              injection h with hkey hresult
              subst hkey
              rw [unwrap_injective hresult]

section Content
variable (mined : DataMap (Buff 8192) Uint) (indexed : DataMap (IndexedKey 8192) IndexedTx)

theorem recordContent_setMined (key : Buff 8192) (value : Uint) :
    recordContent (mined.set key value) indexed =
      Overlay.set (recordContent mined indexed) (.inl key) value := by
  funext k
  cases k with
  | inl tx =>
      by_cases htx : tx = key
      · subst htx
        rw [Overlay.set_self (V := RecordValue) (recordContent mined indexed) (.inl tx) value]
        exact DataMap.set_self ..
      · have hne : (Sum.inl tx : RecordKey) ≠ .inl key := fun h => htx (Sum.inl_injective h)
        rw [Overlay.set_of_ne (V := RecordValue) hne]
        exact DataMap.set_of_ne htx
  | inr key' =>
      rw [Overlay.set_of_ne (V := RecordValue) Sum.inr_ne_inl]
      rfl

theorem recordContent_setIndexed (key : IndexedKey 8192) (value : IndexedTx) :
    recordContent mined (indexed.set key value) =
      Overlay.set (recordContent mined indexed) (.inr key) value := by
  funext k
  cases k with
  | inl tx =>
      rw [Overlay.set_of_ne (V := RecordValue) Sum.inl_ne_inr]
      rfl
  | inr key' =>
      by_cases hkey : key' = key
      · subst hkey
        rw [Overlay.set_self (V := RecordValue) (recordContent mined indexed) (.inr key') value]
        exact DataMap.set_self ..
      · have hne : (Sum.inr key' : RecordKey) ≠ .inr key := fun h => hkey (Sum.inr_injective h)
        rw [Overlay.set_of_ne (V := RecordValue) hne]
        exact DataMap.set_of_ne hkey

end Content

/-- The ordinary maps answer like one ordinary map. -/
theorem Records.transcript_eq (m : Records) (calls : List RecordCall) :
    m.transcript calls =
      (Overlay.plain m.content (calls.map RecordCall.op)).map RecordAnswer.render := by
  induction calls generalizing m with
  | nil => rfl
  | cons call calls ih =>
      cases call with
      | setTxMined key value =>
          rw [Records.transcript, ih, Records.content, recordContent_setMined]
          rfl
      | setTxIndexed key value =>
          rw [Records.transcript, ih, Records.content, recordContent_setIndexed]
          rfl
      | getBitcoinTxMinedOrFail tx =>
          rw [Records.transcript, ih]
          rfl
      | getBitcoinTxIndexedOrFail tx output offset =>
          rw [Records.transcript, ih]
          rfl

/-- The two registries answer, to a caller that may write, like a map under a
frozen one.  Writing changes neither what is under it nor the right to write. -/
theorem transcript_eq {sender : Principal} {r : Registries} (h : r.MayWrite sender)
    (calls : List RecordCall) :
    transcript sender r calls =
      (Overlay.layered r.legacy r.own (calls.map RecordCall.op)).map RecordAnswer.render := by
  induction calls generalizing r with
  | nil => rfl
  | cons call calls ih =>
      cases call with
      | setTxMined key value =>
          have hset : RegistryV102.setTxMined sender key value r =
              (.ok true, r.setMined key value) :=
            RegistryV102.setTxMined_eq_ok.mpr ⟨h, rfl, rfl⟩
          -- a set is answered and its value goes to the new layer, whatever the old one holds
          have hrest : transcript sender (r.setMined key value) calls = _ := ih h
          have hown : (r.setMined key value).own = Overlay.set r.own (.inl key) value :=
            recordContent_setMined r.v102.bitcoinTxMined r.v102.bitcoinTxIndexed key value
          rw [transcript, hset, hrest, hown]
          rfl
      | setTxIndexed key value =>
          have hset : RegistryV102.setTxIndexed sender key value r =
              (.ok true, r.setIndexed key value) :=
            RegistryV102.setTxIndexed_eq_ok.mpr ⟨h, rfl, rfl⟩
          have hrest : transcript sender (r.setIndexed key value) calls = _ := ih h
          have hown : (r.setIndexed key value).own = Overlay.set r.own (.inr key) value :=
            recordContent_setIndexed r.v102.bitcoinTxMined r.v102.bitcoinTxIndexed key value
          rw [transcript, hset, hrest, hown]
          rfl
      | getBitcoinTxMinedOrFail tx =>
          rw [transcript, ih h, RegistryV102.getBitcoinTxMinedOrFail_eq]
          rfl
      | getBitcoinTxIndexedOrFail tx output offset =>
          rw [transcript, ih h, RegistryV102.getBitcoinTxIndexedOrFail_eq]
          rfl

/-- **When the two registries are one map.**  To a caller that may write, the
answers are those of ordinary maps that hold at first what the registries hold
between them, if and only if no record of the first registry is read after it was
last set to something else. -/
theorem registry_refines_map_iff {sender : Principal} {r : Registries} (h : r.MayWrite sender)
    (calls : List RecordCall) :
    transcript sender r calls = r.records.transcript calls ↔
      Overlay.Unshadowed r.legacy (calls.map RecordCall.op) := by
  rw [transcript_eq h, Records.transcript_eq, Registries.content_records,
    (List.map_injective_iff.mpr RecordAnswer.render_injective).eq_iff,
    Overlay.layered_eq_plain_iff]

/-! ## A record of the first registry -/

namespace Sample

/-- Both registries, owned by `owner`, when the first has recorded a height. -/
def registries (owner : Principal) : Registries where
  v101 := { RegistryV101.State.deployed owner with
    bitcoinTxMined := DataMap.set .empty ⟨[0x01], by decide⟩ 700000 }
  v102 := { RegistryV102.State.deployed owner with isPaused := false }

/-- The recorded height is set anew and read back. -/
def overwrite : List RecordCall := [
  .setTxMined ⟨[0x01], by decide⟩ 800000,
  .getBitcoinTxMinedOrFail ⟨[0x01], by decide⟩]

end Sample

open Sample in
/-- A height set by the owner of the second registry reads back as the old one. -/
theorem overwritten_height_not_served :
    transcript (.deployed .oracleV106) (registries (.deployed .oracleV106)) overwrite =
        [.set (.ok true), .mined ⟨[0x01], by decide⟩ (.ok 700000)] ∧
      (registries (.deployed .oracleV106)).records.transcript overwrite =
        [.set (.ok true), .mined ⟨[0x01], by decide⟩ (.ok 800000)] := by
  decide

open Sample in
theorem registry_refines_map_overwrite :
    ¬ Overlay.Unshadowed (registries (.deployed .oracleV106)).legacy
      (overwrite.map RecordCall.op) := by
  have hmay : (registries (.deployed .oracleV106)).MayWrite (.deployed .oracleV106) := by decide
  have hdiffer : transcript (.deployed .oracleV106) (registries (.deployed .oracleV106))
      overwrite ≠ (registries (.deployed .oracleV106)).records.transcript overwrite := by decide
  exact fun h => hdiffer ((registry_refines_map_iff hmay overwrite).mpr h)

end BitcoinOracle
