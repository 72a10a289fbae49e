import BitcoinOracle.SubmittedIds

/-! # Which hash is the majority

The proofs of an event come in no order: the query gives none.  How often each hash
occurs does not depend on it, nor does whether a hash occurs often enough.  Which hash
is selected does, as soon as two of them share the highest count: the sort is stable, so
the first of them in the order of the object's keys wins, and that is the order in which
the proofs came.  The one exception are keys that are array indices, which an object
lists by their value.
-/
namespace BitcoinOracle
open Clarity KeyedTable Indexer

/-! ## The first of the greatest -/

/-- **A stable sort begins with the first of the greatest.** -/
theorem head?_insertionSort {α : Type} {value : α → Nat} {greatest : Nat} {l : List α}
    (hle : ∀ x ∈ l, value x ≤ greatest) (hreached : ∃ x ∈ l, value x = greatest) :
    (l.insertionSort fun a b => value b ≤ value a).head? =
      l.find? fun x => value x = greatest := by
  induction l with
  | nil =>
      obtain ⟨x, hx, -⟩ := hreached
      cases hx
  | cons a l ih =>
      obtain ⟨ha, hl⟩ := List.forall_mem_cons.mp hle
      rw [List.insertionSort_cons, List.find?_cons]
      by_cases hfirst : value a = greatest
      · rw [decide_eq_true hfirst]
        cases hsorted : l.insertionSort fun a b => value b ≤ value a with
        | nil => rfl
        | cons b rest =>
            have hb : b ∈ l := by
              rw [← List.mem_insertionSort (fun a b => value b ≤ value a), hsorted]
              exact List.mem_cons_self
            have hba : value b ≤ value a := hfirst ▸ hl b hb
            rw [List.orderedInsert_cons, if_pos hba]
            rfl
      · rw [decide_eq_false hfirst]
        have hlater : ∃ x ∈ l, value x = greatest := by
          obtain ⟨x, hx, hvalue⟩ := hreached
          rcases List.mem_cons.mp hx with rfl | hx
          · exact absurd hvalue hfirst
          · exact ⟨x, hx, hvalue⟩
        have hhead := ih hl hlater
        cases hsorted : l.insertionSort fun a b => value b ≤ value a with
        | nil =>
            obtain ⟨x, hx, -⟩ := hlater
            rw [← List.mem_insertionSort (fun a b => value b ≤ value a), hsorted] at hx
            cases hx
        | cons b rest =>
            rw [hsorted, List.head?_cons] at hhead
            have hb : value b = greatest := by simpa using List.find?_some hhead.symm
            have hba : ¬ value b ≤ value a := by omega
            rw [List.orderedInsert_cons, if_neg hba]
            exact hhead

/-! ## The order of the keys -/

namespace Relayer

theorem hex_injective : Function.Injective hex :=
  Function.LeftInverse.injective bufferFromHex_hex

theorem arrayIndex_eq_some {name : Text} {n : Nat} (h : arrayIndex name = some n) :
    decimal n = name := by
  unfold arrayIndex at h
  dsimp only at h
  split at h
  · next hdigits =>
      cases h
      exact hdigits.2
  · cases h

/-- Distinct keys that are array indices have distinct values. -/
theorem arrayIndex_inj {a b : Bytes} {n : Nat} (ha : arrayIndex (hex a) = some n)
    (hb : arrayIndex (hex b) = some n) : a = b :=
  hex_injective ((arrayIndex_eq_some ha).symm.trans (arrayIndex_eq_some hb))

/-- The array indices among the keys, as `ownKeys` puts them first. -/
def indexKeys (keys : List Bytes) : List Bytes :=
  (keys.filter fun key => (arrayIndex (hex key)).isSome).insertionSort
    fun a b => (arrayIndex (hex a)).getD 0 ≤ (arrayIndex (hex b)).getD 0

/-- The other keys. -/
def nameKeys (keys : List Bytes) : List Bytes :=
  keys.filter fun key => (arrayIndex (hex key)).isNone

theorem ownKeys_eq (keys : List Bytes) : ownKeys keys = indexKeys keys ++ nameKeys keys := rfl

theorem mem_indexKeys {keys : List Bytes} {key : Bytes} :
    key ∈ indexKeys keys ↔ key ∈ keys ∧ (arrayIndex (hex key)).isSome = true := by
  rw [indexKeys, List.mem_insertionSort, List.mem_filter]

/-- The array indices come in one order, whatever the order of the keys is. -/
theorem indexKeys_perm {keys keys' : List Bytes} (h : keys.Perm keys') :
    indexKeys keys = indexKeys keys' := by
  unfold indexKeys
  have hsorted := List.pairwise_insertionSort fun a b : Bytes =>
    (arrayIndex (hex a)).getD 0 ≤ (arrayIndex (hex b)).getD 0
  refine List.Perm.eq_of_pairwise ?_ (hsorted _) (hsorted _)
    ((List.perm_insertionSort _ _).trans ((h.filter _).trans (List.perm_insertionSort _ _).symm))
  intro a b ha hb hab hba
  rw [List.mem_insertionSort, List.mem_filter] at ha hb
  obtain ⟨n, hn⟩ := Option.isSome_iff_exists.mp ha.2
  obtain ⟨m, hm⟩ := Option.isSome_iff_exists.mp hb.2
  rw [hn, hm] at hab hba
  obtain rfl : n = m := Nat.le_antisymm hab hba
  exact arrayIndex_inj hn hm

/-! ## The selection -/

/-- How many proofs have this order hash. -/
def occurrences (proofs : List ProofRow) (hash : Bytes) : Nat :=
  (proofs.map ProofRow.orderHash).count hash

/-- No order hash has more proofs. -/
def IsMost (proofs : List ProofRow) (hash : Bytes) : Prop :=
  ∀ hash', occurrences proofs hash' ≤ occurrences proofs hash

/-- The order hash of the proofs selected. -/
def selectedHash (proofs : List ProofRow) (minimalProofCount : Nat) : Option Bytes :=
  (getMajorityProofs proofs minimalProofCount).bind fun selected =>
    selected.head?.map ProofRow.orderHash

/-- The keys of the map of the counts. -/
def countKeys (proofs : List ProofRow) : List Bytes := (proofs.map ProofRow.orderHash).eraseDups

theorem occurrences_eq (proofs : List ProofRow) (hash : Bytes) :
    occurrences proofs hash = (proofs.filter fun p => p.orderHash = hash).length :=
  count_orderHash proofs hash

theorem mem_countKeys {proofs : List ProofRow} {hash : Bytes} :
    hash ∈ countKeys proofs ↔ 0 < occurrences proofs hash := by
  rw [countKeys, List.mem_eraseDups, occurrences, List.count_pos_iff]

theorem exists_isMost {proofs : List ProofRow} (h : proofs ≠ []) :
    ∃ hash, IsMost proofs hash ∧ 0 < occurrences proofs hash := by
  obtain ⟨first, rest, rfl⟩ := List.exists_cons_of_ne_nil h
  have hentry : (first.orderHash, occurrences (first :: rest) first.orderHash) ∈
      countBy (first :: rest) :=
    List.mem_map.mpr ⟨_, mem_ownKeys.mpr (List.mem_eraseDups.mpr List.mem_cons_self), rfl⟩
  cases hhead : ((countBy (first :: rest)).insertionSort fun a b => b.2 ≤ a.2).head? with
  | none =>
      rw [List.head?_eq_none_iff] at hhead
      rw [← List.mem_insertionSort (fun a b : Bytes × Nat => b.2 ≤ a.2), hhead] at hentry
      cases hentry
  | some winner =>
      obtain ⟨hoccurs, hcount, hmost⟩ := head_countBy hhead
      refine ⟨winner.1, fun hash' => ?_, List.count_pos_iff.mpr hoccurs⟩
      have hle := hmost hash'
      rwa [hcount] at hle

/-- **Which proofs are selected**: those of the first key that occurs most. -/
theorem getMajorityProofs_eq {proofs : List ProofRow} {top : Bytes} (htop : IsMost proofs top)
    (hoccurs : 0 < occurrences proofs top) (n : Nat) :
    getMajorityProofs proofs n = if occurrences proofs top < n then none else
      ((ownKeys (countKeys proofs)).find? fun hash => occurrences proofs hash = occurrences proofs top).map
        fun hash => proofs.filter fun p => p.orderHash = hash := by
  have hhead : ((countBy proofs).insertionSort fun a b => b.2 ≤ a.2).head? =
      (countBy proofs).find? fun entry => entry.2 = occurrences proofs top := by
    refine head?_insertionSort ?_ ?_
    · intro entry hentry
      obtain ⟨hash, -, rfl⟩ := List.mem_map.mp hentry
      exact htop hash
    · exact ⟨(top, occurrences proofs top),
        List.mem_map.mpr ⟨top, mem_ownKeys.mpr (mem_countKeys.mpr hoccurs), rfl⟩, rfl⟩
  have hkeys : (countBy proofs).find? (fun entry => entry.2 = occurrences proofs top) =
      ((ownKeys (countKeys proofs)).find? fun hash =>
        occurrences proofs hash = occurrences proofs top).map
          fun hash => (hash, occurrences proofs hash) := List.find?_map
  rw [getMajorityProofs, hhead, hkeys]
  cases hfind : (ownKeys (countKeys proofs)).find? fun hash =>
      occurrences proofs hash = occurrences proofs top with
  | none =>
      have hmem : top ∈ ownKeys (countKeys proofs) := mem_ownKeys.mpr (mem_countKeys.mpr hoccurs)
      have hnot := List.find?_eq_none.mp hfind top hmem
      exact absurd rfl (of_decide_eq_false (Bool.eq_false_iff.mpr hnot))
  | some hash =>
      have hhash : occurrences proofs hash = occurrences proofs top := by
        simpa using List.find?_some hfind
      simp only [Option.map_some, hhash]

/-- The first key that occurs as often as `top`. -/
def firstMost (proofs : List ProofRow) (top : Bytes) : Option Bytes :=
  (ownKeys (countKeys proofs)).find? fun hash => occurrences proofs hash = occurrences proofs top

theorem exists_firstMost {proofs : List ProofRow} {top : Bytes}
    (hoccurs : 0 < occurrences proofs top) : ∃ hash, firstMost proofs top = some hash ∧
      occurrences proofs hash = occurrences proofs top := by
  have hmem : top ∈ ownKeys (countKeys proofs) := mem_ownKeys.mpr (mem_countKeys.mpr hoccurs)
  cases hfind : firstMost proofs top with
  | none =>
      have hnot := List.find?_eq_none.mp hfind top hmem
      exact absurd (decide_eq_true rfl) hnot
  | some hash =>
      refine ⟨hash, rfl, ?_⟩
      simpa using List.find?_some hfind

theorem head?_filter {proofs : List ProofRow} {hash : Bytes} (h : 0 < occurrences proofs hash) :
    (proofs.filter fun p => p.orderHash = hash).head?.map ProofRow.orderHash = some hash := by
  rw [occurrences_eq] at h
  obtain ⟨first, rest, hfilter⟩ := List.exists_cons_of_ne_nil (List.length_pos_iff.mp h)
  have hfirst : first ∈ proofs.filter fun p => p.orderHash = hash := by
    rw [hfilter]
    exact List.mem_cons_self
  rw [hfilter]
  exact congrArg some (of_decide_eq_true (List.mem_filter.mp hfirst).2)

theorem selectedHash_eq {proofs : List ProofRow} {top : Bytes} (htop : IsMost proofs top)
    (hoccurs : 0 < occurrences proofs top) (n : Nat) :
    selectedHash proofs n =
      if occurrences proofs top < n then none else firstMost proofs top := by
  rw [selectedHash, getMajorityProofs_eq htop hoccurs]
  by_cases hfew : occurrences proofs top < n
  · rw [if_pos hfew, if_pos hfew]
    rfl
  · obtain ⟨hash, hfirst, hcount⟩ := exists_firstMost hoccurs
    rw [if_neg hfew, if_neg hfew, hfirst]
    unfold firstMost at hfirst
    rw [hfirst]
    exact head?_filter (hcount ▸ hoccurs)

/-! ## Permutations -/

section Perm
variable {proofs proofs' : List ProofRow} (h : proofs.Perm proofs')
include h

theorem occurrences_perm (hash : Bytes) : occurrences proofs hash = occurrences proofs' hash :=
  (h.map ProofRow.orderHash).count_eq hash

theorem isMost_perm {hash : Bytes} : IsMost proofs hash ↔ IsMost proofs' hash := by
  simp only [IsMost, occurrences_perm h]

theorem countKeys_perm : (countKeys proofs).Perm (countKeys proofs') := by
  refine (List.perm_ext_iff_of_nodup (nodup_eraseDups _) (nodup_eraseDups _)).mpr fun hash => ?_
  show hash ∈ countKeys proofs ↔ hash ∈ countKeys proofs'
  rw [mem_countKeys, mem_countKeys, occurrences_perm h]

/-- Where an array index occurs most, the selection does not depend on the order. -/
theorem firstMost_perm_of_index {top index : Bytes} (hoccurs : 0 < occurrences proofs index)
    (hsame : occurrences proofs index = occurrences proofs top)
    (hindex : (arrayIndex (hex index)).isSome = true) :
    firstMost proofs top = firstMost proofs' top := by
  have hmem : index ∈ indexKeys (countKeys proofs) :=
    mem_indexKeys.mpr ⟨mem_countKeys.mpr hoccurs, hindex⟩
  unfold firstMost
  simp only [ownKeys_eq, List.find?_append, ← occurrences_perm h,
    ← indexKeys_perm (countKeys_perm h)]
  cases hfind : (indexKeys (countKeys proofs)).find? fun hash =>
      decide (occurrences proofs hash = occurrences proofs top) with
  | none => exact absurd (decide_eq_true hsame) (List.find?_eq_none.mp hfind index hmem)
  | some hash => rfl

end Perm

/-- Without an array index at the top, a hash whose proofs come first is selected. -/
theorem firstMost_front {proofs rest : List ProofRow} {first : ProofRow} {top : Bytes}
    (hproofs : proofs = first :: rest)
    (hsame : occurrences proofs first.orderHash = occurrences proofs top)
    (hnames : ∀ hash, occurrences proofs hash = occurrences proofs top →
      arrayIndex (hex hash) = none) : firstMost proofs top = some first.orderHash := by
  have hkeys : ∃ later, countKeys proofs = first.orderHash :: later := by
    subst hproofs
    rw [countKeys, List.map_cons, List.eraseDups_cons]
    exact ⟨_, rfl⟩
  obtain ⟨later, hkeys⟩ := hkeys
  have hindices : (indexKeys (countKeys proofs)).find? (fun hash =>
      decide (occurrences proofs hash = occurrences proofs top)) = none := by
    refine List.find?_eq_none.mpr fun hash hhash hmost => ?_
    have hindex := (mem_indexKeys.mp hhash).2
    rw [hnames hash (of_decide_eq_true hmost)] at hindex
    cases hindex
  have hname : (arrayIndex (hex first.orderHash)).isNone = true := by
    rw [hnames _ hsame]
    rfl
  rw [firstMost, ownKeys_eq, List.find?_append, hindices, Option.none_or, hkeys, nameKeys,
    List.filter_cons, if_pos hname, List.find?_cons, decide_eq_true hsame]

/-! ## The majority -/

/-- What a selection of the majority is for. -/
structure MajorityRight (proofs : List ProofRow) (minimalProofCount : Nat) : Prop where
  eq_none_iff : getMajorityProofs proofs minimalProofCount = none ↔
    ∀ hash, occurrences proofs hash < minimalProofCount
  selected : ∀ majority, getMajorityProofs proofs minimalProofCount = some majority →
    ∃ hash, IsMost proofs hash ∧ majority = proofs.filter fun p => p.orderHash = hash
  independent : ∀ proofs', proofs.Perm proofs' →
    selectedHash proofs' minimalProofCount = selectedHash proofs minimalProofCount

/-- Two hashes share the highest count, which reaches the minimum, and none that has it is
an array index in hexadecimal digits. -/
def Tied (proofs : List ProofRow) (minimalProofCount : Nat) : Prop :=
  ∃ hash hash', hash ≠ hash' ∧ IsMost proofs hash ∧ IsMost proofs hash' ∧
    minimalProofCount ≤ occurrences proofs hash ∧
    ∀ top, IsMost proofs top → arrayIndex (hex top) = none

theorem isMost_iff {proofs : List ProofRow} {top hash : Bytes} (htop : IsMost proofs top) :
    IsMost proofs hash ↔ occurrences proofs hash = occurrences proofs top := by
  constructor
  · intro hhash
    exact Nat.le_antisymm (htop hash) (hhash top)
  · intro hsame hash'
    rw [hsame]
    exact htop hash'

theorem getMajorityProofs_nil (n : Nat) : getMajorityProofs [] n = none := rfl

section Selection
variable {proofs : List ProofRow} {n : Nat} (hn : 1 ≤ n)
include hn

theorem getMajorityProofs_eq_none_iff :
    getMajorityProofs proofs n = none ↔ ∀ hash, occurrences proofs hash < n := by
  by_cases hempty : proofs = []
  · subst hempty
    refine iff_of_true (getMajorityProofs_nil n) fun hash => ?_
    exact Nat.lt_of_lt_of_le Nat.one_pos hn
  · obtain ⟨top, htop, hoccurs⟩ := exists_isMost hempty
    rw [getMajorityProofs_eq htop hoccurs]
    constructor
    · intro hnone hash
      by_contra henough
      have hle := htop hash
      obtain ⟨first, hfirst, -⟩ := exists_firstMost hoccurs
      unfold firstMost at hfirst
      rw [if_neg (by omega), hfirst] at hnone
      cases hnone
    · intro hfew
      rw [if_pos (hfew top)]

/-- A hash that shares the top can be brought to the front. -/
theorem exists_perm_selecting {hash : Bytes} (hmost : IsMost proofs hash)
    (henough : n ≤ occurrences proofs hash)
    (hnames : ∀ top, IsMost proofs top → arrayIndex (hex top) = none) :
    ∃ proofs', proofs.Perm proofs' ∧ selectedHash proofs' n = some hash := by
  have hperm :=
    (List.filter_append_perm (fun p : ProofRow => decide (p.orderHash = hash)) proofs).symm
  refine ⟨_, hperm, ?_⟩
  have hlength := henough
  rw [occurrences_eq] at hlength
  obtain ⟨first, rest, hfilter⟩ := List.exists_cons_of_ne_nil
    (List.length_pos_iff.mp (Nat.lt_of_lt_of_le Nat.one_pos (hn.trans hlength)))
  have hfirst : first ∈ proofs.filter fun p => decide (p.orderHash = hash) := by
    rw [hfilter]
    exact List.mem_cons_self
  obtain rfl := of_decide_eq_true (List.mem_filter.mp hfirst).2
  have hmost' := (isMost_perm hperm).mp hmost
  rw [occurrences_perm hperm] at henough
  rw [selectedHash_eq hmost' (Nat.lt_of_lt_of_le Nat.one_pos (hn.trans henough)),
    if_neg (Nat.not_lt.mpr henough)]
  refine firstMost_front (by rw [hfilter, List.cons_append]) rfl fun top htop => ?_
  exact hnames top ((isMost_perm hperm).mpr ((isMost_iff hmost').mpr htop))

/-- **The majority is right unless two hashes share the top.** -/
theorem majority_right_iff : MajorityRight proofs n ↔ ¬ Tied proofs n := by
  constructor
  · rintro hright ⟨hash, hash', hne, hmost, hmost', henough, hnames⟩
    have henough' : n ≤ occurrences proofs hash' := henough.trans (hmost' hash)
    obtain ⟨order, hperm, hselected⟩ := exists_perm_selecting hn hmost henough hnames
    obtain ⟨order', hperm', hselected'⟩ := exists_perm_selecting hn hmost' henough' hnames
    have hfirst := hright.independent order hperm
    have hsecond := hright.independent order' hperm'
    rw [hselected] at hfirst
    rw [hselected', ← hfirst] at hsecond
    exact hne (Option.some.inj hsecond).symm
  · intro htied
    refine ⟨getMajorityProofs_eq_none_iff hn, fun majority hmajority => ?_, fun proofs' hperm => ?_⟩
    · obtain ⟨hash, hfilter, -, -, hmost⟩ := getMajorityProofs_eq_some hmajority
      refine ⟨hash, fun hash' => ?_, hfilter⟩
      have hle := hmost hash'
      rwa [hfilter, ← occurrences_eq, ← occurrences_eq] at hle
    · by_cases hempty : proofs = []
      · subst hempty
        rw [List.nil_perm.mp hperm]
      · obtain ⟨top, htop, hoccurs⟩ := exists_isMost hempty
        have htop' := (isMost_perm hperm).mp htop
        have hoccurs' := hoccurs
        rw [occurrences_perm hperm] at hoccurs'
        rw [selectedHash_eq htop hoccurs, selectedHash_eq htop' hoccurs', occurrences_perm hperm]
        by_cases hfew : occurrences proofs' top < n
        · rw [if_pos hfew, if_pos hfew]
        rw [if_neg hfew, if_neg hfew]
        by_cases hindex : ∃ index, IsMost proofs index ∧ arrayIndex (hex index) ≠ none
        · obtain ⟨index, hmost, hsome⟩ := hindex
          have hsame := (isMost_iff htop).mp hmost
          exact (firstMost_perm_of_index hperm (hsame ▸ hoccurs) hsame
            (Option.isSome_iff_ne_none.mpr hsome)).symm
        · -- no array index at the top, so the top is one hash
          have hone : ∀ hash, IsMost proofs hash → hash = top := by
            intro hash hmost
            by_contra hne
            refine htied ⟨hash, top, hne, hmost, htop, ?_, fun top' htop' => ?_⟩
            · rw [(isMost_iff htop).mp hmost, occurrences_perm hperm]
              exact Nat.not_lt.mp hfew
            · by_contra hsome
              exact hindex ⟨top', htop', hsome⟩
          obtain ⟨hash, hfirst, hsame⟩ := exists_firstMost hoccurs
          obtain ⟨hash', hfirst', hsame'⟩ := exists_firstMost hoccurs'
          rw [hfirst, hfirst', hone hash ((isMost_iff htop).mpr hsame),
            hone hash' ((isMost_perm hperm).mpr ((isMost_iff htop').mpr hsame'))]

end Selection

end Relayer

namespace Sample
open Relayer

/-- A proof of one event, whose order hash is one byte repeated. -/
def proofWith (signer : Text) (fill : UInt8) : ProofRow where
  event := ⟨[1], 0, 0⟩
  fromUser := [1]
  toUser := [2]
  tick := "ordi".toList
  amt := 5
  fromBal := 95
  toBal := 5
  decimals := 18
  fromAddress := "from".toList
  toAddress := "to".toList
  txId := [3]
  type := .bis
  orderHash := List.replicate 32 fill
  signature := [4]
  signer := signer
  signerPubkey := [5]
  height := 100
  validated := false

/-- Two signers for either of two hashes. -/
def tiedProofs : List ProofRow :=
  [proofWith "a".toList 0xaa, proofWith "b".toList 0xaa, proofWith "c".toList 0xbb,
    proofWith "d".toList 0xbb]

/-- **Read in the opposite order, the proofs have another majority.** -/
theorem tied_majority : ¬ MajorityRight tiedProofs 2 := by
  intro h
  have hsame := h.independent tiedProofs.reverse (List.reverse_perm tiedProofs).symm
  revert hsame
  decide +kernel

/-- Three signers for one hash, and one for another. -/
def agreedProofs : List ProofRow :=
  [proofWith "c".toList 0xbb, proofWith "a".toList 0xaa, proofWith "b".toList 0xaa,
    proofWith "d".toList 0xaa]

theorem majority_right_agreed : MajorityRight agreedProofs 2 := by
  refine (majority_right_iff (by decide)).mpr ?_
  rintro ⟨hash, hash', hne, hmost, hmost', -, -⟩
  have hthree : ∀ h, IsMost agreedProofs h → h = List.replicate 32 0xaa := by
    intro h hh
    have hle : 3 ≤ occurrences agreedProofs h := hh (List.replicate 32 0xaa)
    have hmem : h ∈ agreedProofs.map ProofRow.orderHash :=
      List.count_pos_iff.mp (Nat.lt_of_lt_of_le (Nat.succ_pos 2) hle)
    obtain ⟨proof, hproof, rfl⟩ := List.mem_map.mp hmem
    have heach : ∀ proof ∈ agreedProofs, 3 ≤ occurrences agreedProofs proof.orderHash →
        proof.orderHash = List.replicate 32 0xaa := by decide +kernel
    exact heach proof hproof hle
  exact hne ((hthree hash hmost).trans (hthree hash' hmost').symm)

end Sample
end BitcoinOracle
