import BitcoinOracle.BroadcastFees
import BitcoinOracle.JsNumbers
import Mathlib.Data.Char
import Mathlib.Data.List.Lex
import Mathlib.Tactic.NormNum

/-! # The stages of the replacement fees

`STACKS_RBF_STAGES` is a list of fees in STX, and a replacement takes the first of them
that is more than what the transaction pays now.  That is the smallest one only if the
list is ascending, which the schema checks against a sorted copy.  The sort has no
comparison of its own, so it goes by the texts of the numbers: `10` is before `2`.

The schema is right about a list without repetitions exactly if by value and by text it
is ascending, or by neither; and the fee is the smallest one if moreover every stage is a
whole number of micro STX, for the loop throws otherwise (`stages_ascending_iff`).
-/
namespace BitcoinOracle
namespace StageFees

open NonceLoop (Exception FeeEnv Options RBFView newFee)
open KeyedTable (nodup_eraseDups length_eraseDups_mono)

/-! ## The schema -/

/-- `sort()`. -/
def sorted (numbers : List Decimal) : List Decimal :=
  numbers.insertionSort fun a b => a.toText ≤ b.toText

/-- A value of the environment, and the type of what is not a string. -/
inductive EnvValue where
  | string (val : Text)
  | other (received : Text)
  deriving DecidableEq

def stageFeeNumberSchema : EnvValue → Except Text (List Decimal)
  | .other received => .error ("Expected string, received ".toList ++ received)
  | .string val =>
      match (val.splitOn ',').mapM Decimal.number with
      | none => .error "Expected number, received nan".toList
      | some numbers =>
          if numbers.length ≠ numbers.eraseDups.length then
            .error "Array contains duplicate values".toList
          else if numbers ≠ sorted numbers then .error "Array is not sorted ascending".toList
          else .ok numbers

/-! ## The fee of a replacement -/

/-- In micro STX, if that is a whole number: the exact product. -/
def micro (stage : Decimal) : Option Nat :=
  if -6 ≤ stage.exponent then some (stage.mantissa * 10 ^ (stage.exponent + 6).toNat) else none

/-- `IntegerFees.parse`, of the stages in micro STX. -/
def feeLevels (stages : List Decimal) : Except Exception (List Nat) :=
  match stages.mapM micro with
  | some levels => .ok levels
  | none => .error (some "Expected integer, received float".toList)

/-- The new fee in the mode of the stages.  A stage counts as the exact decimal it is written
as, where the code multiplies doubles: `4.1 * 1e6` is no integer there, and throws. -/
def stageFee (stages : List Decimal) (env : FeeEnv) (o : Options) (view : RBFView) (fee : Nat) :
    Except Exception (Option Nat) := do
  let levels ← feeLevels stages
  newFee { env with rbfStages := levels } { o with rbfMode := .stages } view fee

/-! ## What it is to be -/

/-- Strictly ascending. -/
def Ascending (numbers : List Decimal) : Prop :=
  numbers.Pairwise fun a b => a.value < b.value

/-- In the order of their texts. -/
def TextAscending (numbers : List Decimal) : Prop :=
  numbers.Pairwise fun a b => a.toText ≤ b.toText

instance (numbers : List Decimal) : Decidable (TextAscending numbers) :=
  inferInstanceAs (Decidable (numbers.Pairwise _))

/-- The stage is more than a fee in micro STX. -/
def Exceeds (stage : Decimal) (fee : Nat) : Prop := (fee : ℚ) < stage.value * 10 ^ 6

/-- The fee is the smallest stage that exceeds the current one, and there is none exactly if
no stage does. -/
def Smallest (stages : List Decimal) (fee : Nat) (result : Option Nat) : Prop :=
  (result = none ↔ ∀ x ∈ stages, ¬ Exceeds x fee) ∧
    ∀ new, result = some new → ∃ x ∈ stages, (new : ℚ) = x.value * 10 ^ 6 ∧ Exceeds x fee ∧
      ∀ y ∈ stages, Exceeds y fee → x.value ≤ y.value

/-- For every current fee a replacement takes the smallest stage that exceeds it. -/
def TakesSmallest (stages : List Decimal) : Prop :=
  ∀ env o view fee, ∃ result, stageFee stages env o view fee = .ok result ∧
    Smallest stages fee result

/-! ## Acceptance -/

theorem sorted_eq_self_iff {numbers : List Decimal} :
    sorted numbers = numbers ↔ TextAscending numbers := by
  have htotal : Std.Total fun a b : Decimal => a.toText ≤ b.toText :=
    ⟨fun a b => le_total a.toText b.toText⟩
  have htrans : IsTrans Decimal fun a b => a.toText ≤ b.toText :=
    ⟨fun _ _ _ => le_trans⟩
  constructor
  · intro h
    rw [TextAscending, ← h]
    exact List.pairwise_insertionSort _ numbers
  · exact List.Pairwise.insertionSort_eq

theorem length_eraseDups_iff {numbers : List Decimal} :
    numbers.length = numbers.eraseDups.length ↔ numbers.Nodup := by
  have hsubset : numbers.eraseDups ⊆ numbers := fun a ha => List.mem_eraseDups.mp ha
  have hsubperm := List.subperm_of_subset (nodup_eraseDups numbers) hsubset
  constructor
  · intro h
    exact (hsubperm.perm_of_length_le h.le).nodup (nodup_eraseDups numbers)
  · intro h
    have hsubset' : numbers ⊆ numbers.eraseDups := fun a ha => List.mem_eraseDups.mpr ha
    exact Nat.le_antisymm (List.subperm_of_subset h hsubset').length_le hsubperm.length_le

theorem stageFeeNumberSchema_eq_ok_iff {val : Text} {numbers stages : List Decimal}
    (hval : (val.splitOn ',').mapM Decimal.number = some numbers) :
    stageFeeNumberSchema (.string val) = .ok stages ↔
      numbers.Nodup ∧ TextAscending numbers ∧ stages = numbers := by
  rw [← length_eraseDups_iff, ← sorted_eq_self_iff]
  simp only [stageFeeNumberSchema, hval]
  split
  · simp_all
  split
  · next hne => simp [Ne.symm hne]
  · next hlength hsorted =>
      simp only [ne_eq, Decidable.not_not] at hlength hsorted
      simp [hlength, ← hsorted, eq_comm]

/-! ## The first level above a fee -/

theorem value_of_micro {x : Decimal} {n : Nat} (h : micro x = some n) :
    (n : ℚ) = x.value * 10 ^ 6 := by
  unfold micro at h
  split at h
  · next hle =>
      obtain ⟨k, hk⟩ := Int.eq_ofNat_of_zero_le (show 0 ≤ x.exponent + 6 by omega)
      obtain rfl := Option.some.inj h
      have hpow : (10 : ℚ) ^ x.exponent * 10 ^ 6 = 10 ^ k := by
        have hsix : (10 : ℚ) ^ 6 = 10 ^ (6 : Int) := by norm_cast
        rw [hsix, ← zpow_add₀ (by decide), hk, zpow_natCast]
      rw [hk, Decimal.value, mul_assoc, hpow]
      push_cast
      rfl
  · cases h

theorem exceeds_iff {x : Decimal} {n fee : Nat} (h : micro x = some n) :
    Exceeds x fee ↔ fee < n := by
  rw [Exceeds, ← value_of_micro h, Nat.cast_lt]

/-- The level of a stage that has one. -/
def level (x : Decimal) : Nat := (micro x).getD 0

theorem micro_of_isSome {x : Decimal} (h : (micro x).isSome = true) :
    micro x = some (level x) := by
  obtain ⟨n, hn⟩ := Option.isSome_iff_exists.mp h
  rw [level, hn, Option.getD_some]

theorem mapM_micro {stages : List Decimal} : stages.mapM micro =
    if ∀ x ∈ stages, (micro x).isSome = true then some (stages.map level) else none := by
  induction stages with
  | nil => rfl
  | cons x stages ih =>
      rw [List.mapM_cons, ih]
      cases hx : micro x with
      | none => simp [hx]
      | some n =>
          have hlevel : level x = n := by rw [level, hx, Option.getD_some]
          have hiff : (∀ y ∈ x :: stages, (micro y).isSome = true) ↔
              ∀ y ∈ stages, (micro y).isSome = true := by simp [hx]
          rw [if_congr hiff rfl rfl]
          split
          · rw [List.map_cons, hlevel]
            rfl
          · rfl

/-- Whole stages are compared one after another, and one that is not whole ends it all. -/
theorem stageFee_eq (stages : List Decimal) (env : FeeEnv) (o : Options) (view : RBFView)
    (fee : Nat) : stageFee stages env o view fee =
      if ∀ x ∈ stages, (micro x).isSome = true then
        .ok ((stages.map level).find? fun new => fee < new)
      else .error (some "Expected integer, received float".toList) := by
  rw [stageFee, feeLevels, mapM_micro]
  by_cases h : ∀ x ∈ stages, (micro x).isSome = true
  · rw [if_pos h, if_pos h]
    rfl
  · rw [if_neg h, if_neg h]
    rfl

/-- **In an ascending list the first level above a fee is the smallest.** -/
theorem smallest_find {stages : List Decimal} (hasc : Ascending stages)
    (hwhole : ∀ x ∈ stages, (micro x).isSome = true) (fee : Nat) :
    Smallest stages fee ((stages.map level).find? fun new => fee < new) := by
  have hexceeds {x : Decimal} (hx : x ∈ stages) : Exceeds x fee ↔ fee < level x :=
    exceeds_iff (micro_of_isSome (hwhole x hx))
  constructor
  · rw [List.find?_eq_none, List.forall_mem_map]
    refine forall₂_congr fun x hx => ?_
    rw [hexceeds hx, decide_eq_true_iff]
  · intro new hnew
    rw [List.find?_map] at hnew
    obtain ⟨x, hfind, rfl⟩ := Option.map_eq_some_iff.mp hnew
    obtain ⟨hlt, before, after, rfl, hbefore⟩ := List.find?_eq_some_iff_append.mp hfind
    have hx : x ∈ before ++ x :: after := List.mem_append_right _ List.mem_cons_self
    refine ⟨x, hx, value_of_micro (micro_of_isSome (hwhole x hx)),
      (hexceeds hx).mpr (of_decide_eq_true hlt), fun y hy hyfee => ?_⟩
    -- a stage before it does not exceed the fee, and one behind it is larger
    rcases List.mem_append.mp hy with hmem | hmem
    · have hnot := hbefore y hmem
      have hyes := (hexceeds hy).mp hyfee
      simp [hyes] at hnot
    · rcases List.mem_cons.mp hmem with rfl | hmem
      · exact le_rfl
      · exact ((List.pairwise_cons.mp (List.pairwise_append.mp hasc).2.1).1 y hmem).le

theorem takesSmallest_of_ascending {stages : List Decimal} (hasc : Ascending stages)
    (hwhole : ∀ x ∈ stages, (micro x).isSome = true) : TakesSmallest stages := by
  intro env o view fee
  refine ⟨_, ?_, smallest_find hasc hwhole fee⟩
  rw [stageFee_eq, if_pos hwhole]

/-- If there always is a fee, every stage is whole. -/
theorem whole_of_takesSmallest {stages : List Decimal} (h : TakesSmallest stages) :
    ∀ x ∈ stages, (micro x).isSome = true := by
  by_contra hno
  obtain ⟨result, hresult, -⟩ := h ⟨0, 0, 0, []⟩ ⟨none, false, .increase, .stages, 0, false, 1⟩
    ⟨.ok [], 0, .ok 0, .ok none⟩ 0
  rw [stageFee_eq, if_neg hno] at hresult
  cases hresult

theorem Ascending.nodup {numbers : List Decimal} (h : Ascending numbers) : numbers.Nodup :=
  h.imp fun hlt heq => (heq ▸ hlt).false

/-! ## The stages are ascending -/

/-- **The schema accepts the lists that are ascending, and a replacement takes the smallest
stage that exceeds its fee**, for all lists that repeat a number, that are ascending neither
by value nor by text, or that are ascending by both with stages in whole micro STX; and for
no others. -/
theorem stages_ascending_iff {val : Text} {numbers : List Decimal}
    (hval : (val.splitOn ',').mapM Decimal.number = some numbers) :
    (((∃ stages, stageFeeNumberSchema (.string val) = .ok stages) ↔
        numbers.Nodup ∧ Ascending numbers) ∧
      ∀ stages, stageFeeNumberSchema (.string val) = .ok stages → TakesSmallest stages) ↔
      ¬ numbers.Nodup ∨ (¬ Ascending numbers ∧ ¬ TextAscending numbers) ∨
        (Ascending numbers ∧ TextAscending numbers ∧
          ∀ x ∈ numbers, (micro x).isSome = true) := by
  have haccepts : (∃ stages, stageFeeNumberSchema (.string val) = .ok stages) ↔
      numbers.Nodup ∧ TextAscending numbers := by
    simp only [stageFeeNumberSchema_eq_ok_iff hval]
    exact ⟨fun ⟨_, hnodup, htext, _⟩ => ⟨hnodup, htext⟩,
      fun ⟨hnodup, htext⟩ => ⟨numbers, hnodup, htext, rfl⟩⟩
  have htakes : (∀ stages, stageFeeNumberSchema (.string val) = .ok stages →
      TakesSmallest stages) ↔ (numbers.Nodup ∧ TextAscending numbers → TakesSmallest numbers) := by
    simp only [stageFeeNumberSchema_eq_ok_iff hval]
    exact ⟨fun h hnumbers => h numbers ⟨hnumbers.1, hnumbers.2, rfl⟩,
      fun h stages hstages => hstages.2.2 ▸ h ⟨hstages.1, hstages.2.1⟩⟩
  rw [haccepts, htakes]
  by_cases hnodup : numbers.Nodup
  · simp only [hnodup, true_and, not_true_eq_false, false_or]
    constructor
    · rintro ⟨hiff, htake⟩
      by_cases htext : TextAscending numbers
      · exact Or.inr ⟨hiff.mp htext, htext, whole_of_takesSmallest (htake htext)⟩
      · exact Or.inl ⟨fun hasc => htext (hiff.mpr hasc), htext⟩
    · rintro (⟨hasc, htext⟩ | ⟨hasc, htext, hwhole⟩)
      · exact ⟨iff_of_false htext hasc, fun h => absurd h htext⟩
      · exact ⟨iff_of_true htext hasc, fun _ => takesSmallest_of_ascending hasc hwhole⟩
  · simp [hnodup]

/-- `0.08, 0.12, 0.24, 0.48` -/
def defaultStages : List Decimal :=
  [.normalize 8 (-2), .normalize 12 (-2), .normalize 24 (-2), .normalize 48 (-2)]

theorem ascending_defaultStages : Ascending defaultStages := by
  simp only [Ascending, defaultStages, List.pairwise_cons, List.mem_cons, List.not_mem_nil,
    or_false, forall_eq_or_imp, forall_eq, Decimal.value_normalize]
  norm_num

theorem stages_ascending_iff_default :
    (("0.08, 0.12, 0.24, 0.48".toList).splitOn ',').mapM Decimal.number = some defaultStages ∧
      ((∃ stages, stageFeeNumberSchema (.string "0.08, 0.12, 0.24, 0.48".toList) = .ok stages) ↔
        defaultStages.Nodup ∧ Ascending defaultStages) ∧
      ∀ stages, stageFeeNumberSchema (.string "0.08, 0.12, 0.24, 0.48".toList) = .ok stages →
        TakesSmallest stages :=
  have hval : (("0.08, 0.12, 0.24, 0.48".toList).splitOn ',').mapM Decimal.number =
      some defaultStages := by decide +kernel
  ⟨hval, (stages_ascending_iff hval).mpr
    (Or.inr (Or.inr ⟨ascending_defaultStages, by decide +kernel, by decide +kernel⟩))⟩

theorem value_two_lt_ten : (Decimal.normalize 2 0).value < (Decimal.normalize 10 0).value := by
  rw [Decimal.value_normalize, Decimal.value_normalize]
  norm_num

/-- `10` is before `2`: the ascending list is rejected, the descending one accepted, and a
fee of one STX is replaced by ten. -/
theorem not_stages_ascending :
    (stageFeeNumberSchema (.string "2,10".toList) =
        .error "Array is not sorted ascending".toList ∧
      Ascending [Decimal.normalize 2 0, Decimal.normalize 10 0]) ∧
    stageFeeNumberSchema (.string "10,2".toList) =
        .ok [Decimal.normalize 10 0, Decimal.normalize 2 0] ∧
      ¬ Ascending [Decimal.normalize 10 0, Decimal.normalize 2 0] ∧
      stageFee [Decimal.normalize 10 0, Decimal.normalize 2 0] ⟨0, 0, 0, []⟩
        ⟨none, false, .increase, .stages, 0, false, 1⟩ ⟨.ok [], 0, .ok 0, .ok none⟩ 1000000 =
        .ok (some 10000000) := by
  refine ⟨⟨by decide +kernel, ?_⟩, by decide +kernel, ?_, by decide +kernel⟩
  · simpa [Ascending] using value_two_lt_ten
  · simpa [Ascending] using value_two_lt_ten.le

end StageFees
end BitcoinOracle
