import BitcoinOracle.World
import Mathlib.Data.Set.Card

/-! # The count of the validators

The oracle keeps the number of its validators in a variable beside the map.  A validator
is only added if it is not there and only removed if it is, and what fails is rolled back,
so the variable is the number of entries (`validator_count_exact`).  The subtraction in
`remove-validator` comes after the check that there is an entry, hence it has something to
subtract from.  The addition could overflow, and the call would abort and write nothing.
-/
namespace Clarity
namespace DataMap
variable {K V : Type} {m : DataMap K V} {k : K}

/-- The keys that have an entry. -/
def keys (m : DataMap K V) : Set K := {k | (m k).isSome = true}

theorem mem_keys_iff : k ∈ m.keys ↔ (m k).isSome = true := Iff.rfl

theorem notMem_keys_iff : k ∉ m.keys ↔ m k = none := by
  rw [mem_keys_iff, Bool.not_eq_true, Option.isSome_eq_false_iff, Option.isNone_iff_eq_none]

theorem keys_empty : (empty : DataMap K V).keys = ∅ :=
  Set.eq_empty_of_forall_notMem fun _ => notMem_keys_iff.mpr rfl

variable [DecidableEq K]

theorem keys_set (v : V) : (m.set k v).keys = insert k m.keys := by
  ext k'
  rw [mem_keys_iff, set_apply, Set.mem_insert_iff]
  by_cases h : k' = k
  · rw [if_pos h]
    exact iff_of_true rfl (Or.inl h)
  · rw [if_neg h]
    exact (or_iff_right h).symm

theorem keys_delete : (m.delete k).keys = m.keys \ {k} := by
  ext k'
  rw [mem_keys_iff, Set.mem_sdiff, Set.mem_singleton_iff]
  by_cases h : k' = k
  · rw [h, delete_self]
    exact iff_of_false Bool.false_ne_true fun hmem => hmem.2 rfl
  · rw [delete_of_ne h]
    exact (and_iff_left h).symm

/-- A new key is one entry more. -/
theorem encard_set (h : m k = none) (v : V) : (m.set k v).keys.encard = m.keys.encard + 1 := by
  rw [keys_set, Set.encard_insert_of_notMem (notMem_keys_iff.mpr h)]

/-- A key that is deleted was one entry. -/
theorem encard_delete (h : (m k).isSome = true) :
    (m.delete k).keys.encard + 1 = m.keys.encard := by
  rw [keys_delete, Set.encard_sdiff_singleton_add_one (mem_keys_iff.mpr h)]

end DataMap

end Clarity

namespace BitcoinOracle
open Clarity

namespace Oracle
variable {s s' : State} {sender validator : Principal} {validatorPubkey : Buff 33} {n : Uint}

/-- `validator-count` is the number of entries of `validators`. -/
def State.Counted (s : State) : Prop := s.validators.keys.encard = s.validatorCount.val

theorem counted_deployed : (State.deployed sender).Counted := by
  show (DataMap.keys _).encard = ((0 : Nat) : ℕ∞)
  rw [State.deployed, DataMap.keys_empty, Set.encard_empty]
  rfl

namespace State.Counted

/-- A validator that is there has been counted. -/
theorem pos (h : s.Counted) (hold : (s.validators validator).isSome = true) :
    1 ≤ s.validatorCount.val := by
  have hmem : 0 < s.validators.keys.encard := Set.encard_pos.mpr ⟨validator, hold⟩
  rw [h] at hmem
  exact ENat.natCast_lt_natCast.mp hmem

theorem add (h : s.Counted)
    (hok : addValidator sender validatorPubkey validator s = (.ok n, s')) :
    s'.Counted ∧ s'.validatorCount = n := by
  obtain ⟨-, hnew, hcount, rfl⟩ := addValidator_eq_ok.mp hok
  refine ⟨?_, rfl⟩
  show (s.validators.set validator validatorPubkey).keys.encard = (n.val : ℕ∞)
  rw [DataMap.encard_set hnew, h, hcount, Nat.cast_add, Nat.cast_one, add_comm]

theorem remove (h : s.Counted) (hok : removeValidator sender validator s = (.ok n, s')) :
    s'.Counted ∧ s'.validatorCount = n := by
  obtain ⟨-, hold, hcount, rfl⟩ := removeValidator_eq_ok.mp hok
  refine ⟨?_, rfl⟩
  show (s.validators.delete validator).keys.encard = (n.val : ℕ∞)
  have hentries := DataMap.encard_delete hold
  rw [h, ← hcount, Nat.cast_add, Nat.cast_one] at hentries
  exact (ENat.add_left_injective_of_ne_top ENat.one_ne_top) hentries

/-- **No underflow.**  There is a validator to remove, so there is one to subtract. -/
theorem removeValidator_responds (h : s.Counted) (sender validator : Principal) :
    (removeValidator sender validator s).1.Responds := by
  by_cases howner : s.contractOwner = sender
  · by_cases hold : (s.validators validator).isSome = true
    · have hpos := h.pos hold
      have hok : removeValidator sender validator s =
          (.ok ⟨s.validatorCount.val - 1, by omega⟩, _) :=
        removeValidator_eq_ok.mpr ⟨howner, hold, Nat.sub_add_cancel hpos, rfl⟩
      rw [hok]
      exact Result.responds_ok _
    · simp [removeValidator, Call.transaction_fst, Call.bind_apply, checkIsOwner, Call.view,
        Call.lift, Result.asserts, howner, hold]
  · simp [removeValidator, Call.transaction_fst, Call.bind_apply, checkIsOwner, Call.view,
      Call.lift, Result.asserts, howner]

/-- Only two governance functions touch the map or the count. -/
theorem govern (h : s.Counted) {call : GovernanceCall} {a : Answer}
    (hok : govern sender call s = (.ok a, s')) : s'.Counted := by
  cases call with
  | addValidator validatorPubkey validator =>
      obtain ⟨n, hadd, -⟩ := World.answering_eq_ok.mp hok
      exact (h.add hadd).1
  | removeValidator validator =>
      obtain ⟨n, hremove, -⟩ := World.answering_eq_ok.mp hok
      exact (h.remove hremove).1
  | setPaused _ | approveRelayer _ _ | setRequiredValidators _ | setContractOwner _ =>
      cases (govern_eq_ok hok).2
      exact h

end State.Counted

end Oracle

/-- `add-validator` and `remove-validator`. -/
def PublicCall.ChangesValidators : PublicCall → Prop
  | .oracle (.addValidator _ _) => True
  | .oracle (.removeValidator _) => True
  | _ => False

namespace World
open Oracle
variable (P : Primitives)

theorem indexAll_validatorCount (w : World) (es : List SignedTx) :
    (indexAll P w es).oracle.validatorCount = w.oracle.validatorCount := by
  induction es generalizing w with
  | nil => rfl
  | cons e es ih =>
      rw [indexAll_cons, ih]
      rfl

variable {P} {w : World} {t : Transaction}

/-- A call of the oracle's governance, as a transaction. -/
theorem exec_govern {call : GovernanceCall} (hcall : t.call = .oracle call) :
    exec P t w = onOracle (govern t.sender call) w := by
  unfold exec
  rw [hcall]

theorem validatorsCounted_next (h : w.oracle.Counted) : ((deployment P).next w t).oracle.Counted := by
  by_cases hsame : (deployment P).next w t = w
  · rwa [hsame]
  · obtain ⟨a, hans⟩ := answer_of_next_ne P hsame
    have hexec := exec_eq P hans
    have hstep := step_next P w t
    generalize (deployment P).next w t = w', (deployment P).log w t = new at hstep hexec ⊢
    cases hstep with
    | governed hcall howner hgoverned =>
        -- the step does not tell the count, the call does
        rw [exec_govern hcall] at hexec
        obtain ⟨s', hgovern, hsame'⟩ := onOracle_eq_ok.mp hexec
        rw [hsame']
        exact h.govern hgovern
    | indexed hcall hpaused hrelayer haccepts =>
        rw [State.Counted, indexAll_validators, indexAll_validatorCount]
        exact h
    | refused => exact h
    | registry hdata => exact h
    | mock => exact h

theorem validatorsCounted_run (h : w.oracle.Counted) (ts : List Transaction) :
    ((deployment P).run w ts).oracle.Counted :=
  (deployment P).run_of_step (fun w => w.oracle.Counted) (fun _ _ => validatorsCounted_next) h ts

/-- What the two functions answer is the count they leave. -/
theorem answer_changesValidators (h : w.oracle.Counted) (hcall : t.call.ChangesValidators)
    {a : Answer} (hans : answer P w t = .ok a) :
    a = .uint ((deployment P).next w t).oracle.validatorCount := by
  have hexec := exec_eq P hans
  obtain ⟨env, sender, call⟩ := t
  match call, hcall with
  | .oracle (.addValidator validatorPubkey validator), _ =>
      obtain ⟨s', hgovern, hsame⟩ := onOracle_eq_ok.mp hexec
      obtain ⟨n, hadd, rfl⟩ := answering_eq_ok.mp hgovern
      rw [hsame, (h.add hadd).2]
  | .oracle (.removeValidator validator), _ =>
      obtain ⟨s', hgovern, hsame⟩ := onOracle_eq_ok.mp hexec
      obtain ⟨n, hremove, rfl⟩ := answering_eq_ok.mp hgovern
      rw [hsame, (h.remove hremove).2]

theorem responds_answering_iff {σ α : Type} {f : α → Answer} {c : Call σ α} {s : σ} :
    (answering f c s).1.Responds ↔ (c s).1.Responds := by
  rw [answering, Call.bind_apply]
  rcases c s with ⟨_ | _ | _, s'⟩
  · exact iff_of_true (Result.responds_ok _) (Result.responds_ok _)
  · exact iff_of_true (Result.responds_err _) (Result.responds_err _)
  · exact iff_of_false (Result.not_responds_abort _) (Result.not_responds_abort _)

theorem answer_removeValidator_responds (h : w.oracle.Counted) {validator : Principal}
    (hcall : t.call = .oracle (.removeValidator validator)) : (answer P w t).Responds := by
  rw [answer, exec_govern hcall]
  exact responds_answering_iff.mpr (h.removeValidator_responds t.sender validator)

variable (P)

/-- The count is the number of validators, removing one never aborts, and what adding and
removing answer is the number of validators they leave. -/
structure CountExact (w : World) : Prop where
  counted : w.oracle.validators.keys.encard = w.oracle.validatorCount.val
  removes : ∀ t validator, t.call = .oracle (.removeValidator validator) →
    (answer P w t).Responds
  answers : ∀ t a, t.call.ChangesValidators → answer P w t = .ok a →
    ∃ n, a = .uint n ∧ ((deployment P).next w t).oracle.validators.keys.encard = n.val

/-- **The count is exact** after every run from the deployment, whoever calls what. -/
theorem validator_count_exact (sender : Principal) (ts : List Transaction) :
    CountExact P ((deployment P).run (deployed sender) ts) := by
  have hcounted : ((deployment P).run (deployed sender) ts).oracle.Counted :=
    validatorsCounted_run counted_deployed ts
  refine ⟨hcounted, fun t validator hcall => answer_removeValidator_responds hcounted hcall,
    fun t a hcall hans => ⟨_, answer_changesValidators hcounted hcall hans, ?_⟩⟩
  exact validatorsCounted_next hcounted

end World
end BitcoinOracle
