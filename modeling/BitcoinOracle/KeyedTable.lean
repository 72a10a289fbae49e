import Mathlib.Data.List.Nodup
import Mathlib.Data.List.Perm.Subperm

/-! # Tables with a unique key

A table is the list of its rows in the order they were stored, and a key is read off
a row.  `insertNew` is the insert that does nothing on a conflict: it keeps the key
unique, loses no row, and of several rows with one key the first is the one stored.
-/
namespace KeyedTable
variable {ρ κ : Type*} [DecidableEq κ] (key : ρ → κ)

/-- The row stored for a key. -/
def lookup (rows : List ρ) (k : κ) : Option ρ := rows.find? (fun row => key row = k)

/-- Some row is stored for the key. -/
def Stored (rows : List ρ) (k : κ) : Prop := (lookup key rows k).isSome = true

instance (rows : List ρ) (k : κ) : Decidable (Stored key rows k) :=
  inferInstanceAs (Decidable (_ = true))

/-- The unique constraint. -/
def Unique (rows : List ρ) : Prop := (rows.map key).Nodup

instance (rows : List ρ) : Decidable (Unique key rows) :=
  inferInstanceAs (Decidable (List.Nodup _))

/-- `insert ... on conflict do nothing`. -/
def insertNew (rows : List ρ) (row : ρ) : List ρ :=
  if Stored key rows (key row) then rows else rows ++ [row]

variable {key} {rows : List ρ} {row : ρ} {k : κ}

theorem lookup_eq_some (h : lookup key rows k = some row) : row ∈ rows ∧ key row = k := by
  refine ⟨List.mem_of_find?_eq_some h, ?_⟩
  have hkey := List.find?_some h
  exact of_decide_eq_true hkey

theorem stored_iff : Stored key rows k ↔ ∃ row ∈ rows, key row = k := by
  simp [Stored, lookup, List.find?_isSome]

theorem not_stored_iff : ¬ Stored key rows k ↔ lookup key rows k = none := by
  rw [Stored, Bool.not_eq_true, Option.isSome_eq_false_iff, Option.isNone_iff_eq_none]

theorem stored_of_mem (h : row ∈ rows) : Stored key rows (key row) := stored_iff.mpr ⟨row, h, rfl⟩

theorem lookup_cons (row : ρ) (rows : List ρ) (k : κ) :
    lookup key (row :: rows) k = if key row = k then some row else lookup key rows k := by
  by_cases hkey : key row = k
  · rw [if_pos hkey]
    exact List.find?_cons_of_pos (decide_eq_true hkey)
  · rw [if_neg hkey]
    exact List.find?_cons_of_neg (by simpa using hkey)

theorem lookup_append (rows rows' : List ρ) (k : κ) :
    lookup key (rows ++ rows') k = (lookup key rows k).or (lookup key rows' k) :=
  List.find?_append

theorem Stored.append (h : Stored key rows k) (rows' : List ρ) : Stored key (rows ++ rows') k := by
  rw [Stored, lookup_append, Option.isSome_or, Bool.or_eq_true]
  exact Or.inl h

theorem stored_append_iff {rows' : List ρ} :
    Stored key (rows ++ rows') k ↔ Stored key rows k ∨ Stored key rows' k := by
  rw [Stored, lookup_append, Option.isSome_or, Bool.or_eq_true]
  rfl

theorem stored_singleton_iff : Stored key [row] k ↔ key row = k := by
  rw [stored_iff]
  constructor
  · intro ⟨row', hrow', hkey⟩
    rwa [← List.mem_singleton.mp hrow']
  · exact fun h => ⟨row, List.mem_singleton_self row, h⟩

/-- Under the constraint, a stored row is the one stored for its key. -/
theorem Unique.lookup_of_mem (h : Unique key rows) (hrow : row ∈ rows) :
    lookup key rows (key row) = some row := by
  have hstored : Stored key rows (key row) := stored_of_mem hrow
  obtain ⟨row', hrow'⟩ := Option.isSome_iff_exists.mp hstored
  obtain ⟨hmem, hkey⟩ := lookup_eq_some hrow'
  rw [hrow', List.inj_on_of_nodup_map h hmem hrow hkey]

omit [DecidableEq κ] in
theorem Unique.eq_of_mem (h : Unique key rows) {row' : ρ} (hrow : row ∈ rows) (hrow' : row' ∈ rows)
    (hkey : key row = key row') : row = row' :=
  List.inj_on_of_nodup_map h hrow hrow' hkey

/-! ## Inserting -/

theorem insertNew_of_stored (h : Stored key rows (key row)) : insertNew key rows row = rows :=
  if_pos h

theorem insertNew_of_not_stored (h : ¬ Stored key rows (key row)) :
    insertNew key rows row = rows ++ [row] :=
  if_neg h

theorem mem_insertNew_of_mem {row' : ρ} (h : row' ∈ rows) : row' ∈ insertNew key rows row := by
  by_cases hstored : Stored key rows (key row)
  · rwa [insertNew_of_stored hstored]
  · rw [insertNew_of_not_stored hstored]
    exact List.mem_append_left _ h

theorem mem_of_mem_insertNew {row' : ρ} (h : row' ∈ insertNew key rows row) :
    row' ∈ rows ∨ row' = row := by
  by_cases hstored : Stored key rows (key row)
  · rw [insertNew_of_stored hstored] at h
    exact Or.inl h
  · rw [insertNew_of_not_stored hstored, List.mem_append, List.mem_singleton] at h
    exact h

theorem Stored.insertNew (h : Stored key rows k) (row : ρ) :
    Stored key (insertNew key rows row) k := by
  obtain ⟨row', hmem, hkey⟩ := stored_iff.mp h
  exact stored_iff.mpr ⟨row', mem_insertNew_of_mem hmem, hkey⟩

theorem stored_insertNew_iff :
    Stored key (insertNew key rows row) k ↔ Stored key rows k ∨ key row = k := by
  by_cases hstored : Stored key rows (key row)
  · rw [insertNew_of_stored hstored]
    exact (or_iff_left_of_imp fun h => h ▸ hstored).symm
  · rw [insertNew_of_not_stored hstored, stored_append_iff, stored_singleton_iff]

theorem Unique.append_singleton (h : Unique key rows) (hnew : ¬ Stored key rows (key row)) :
    Unique key (rows ++ [row]) := by
  rw [Unique, List.map_append, List.map_singleton]
  refine List.nodup_append.mpr ⟨h, List.nodup_singleton _, ?_⟩
  intro k hk k' hk' heq
  obtain ⟨row', hmem, rfl⟩ := List.mem_map.mp hk
  rw [List.mem_singleton.mp hk'] at heq
  exact hnew (stored_iff.mpr ⟨row', hmem, heq⟩)

theorem Unique.insertNew (h : Unique key rows) (row : ρ) : Unique key (insertNew key rows row) := by
  by_cases hstored : Stored key rows (key row)
  · rwa [insertNew_of_stored hstored]
  · rw [insertNew_of_not_stored hstored]
    exact h.append_singleton hstored

/-! ## Updating and deleting -/

/-- An update that leaves the keys. -/
theorem lookup_map {f : ρ → ρ} (hf : ∀ row, key (f row) = key row) (k : κ) :
    lookup key (rows.map f) k = (lookup key rows k).map f := by
  unfold lookup
  rw [List.find?_map]
  congr 2
  funext row
  exact congrArg (fun k' => decide (k' = k)) (hf row)

omit [DecidableEq κ] in
theorem Unique.map (h : Unique key rows) {f : ρ → ρ} (hf : ∀ row, key (f row) = key row) :
    Unique key (rows.map f) := by
  unfold Unique
  rw [List.map_map, show key ∘ f = key from funext hf]
  exact h

omit [DecidableEq κ] in
theorem Unique.filter (h : Unique key rows) (p : ρ → Bool) : Unique key (rows.filter p) :=
  List.Nodup.sublist (List.filter_sublist.map key) h

omit [DecidableEq κ] in
theorem unique_append_iff {rows' : List ρ} : Unique key (rows ++ rows') ↔
    Unique key rows ∧ Unique key rows' ∧ ∀ row ∈ rows, ∀ row' ∈ rows', key row ≠ key row' := by
  rw [Unique, List.map_append, List.nodup_append]
  refine and_congr_right fun _ => and_congr_right fun _ => ?_
  simp only [List.forall_mem_map]

omit [DecidableEq κ] in
/-- Keys that tell the same rows apart are unique together. -/
theorem unique_congr {κ' : Type*} {key' : ρ → κ'}
    (h : ∀ row ∈ rows, ∀ row' ∈ rows, key row = key row' ↔ key' row = key' row') :
    Unique key rows ↔ Unique key' rows := by
  constructor
  · intro hkey
    refine List.Nodup.map_on (fun row hrow row' hrow' heq => ?_) (List.Nodup.of_map key hkey)
    exact hkey.eq_of_mem hrow hrow' ((h row hrow row' hrow').mpr heq)
  · intro hkey'
    refine List.Nodup.map_on (fun row hrow row' hrow' heq => ?_) (List.Nodup.of_map key' hkey')
    exact hkey'.eq_of_mem hrow hrow' ((h row hrow row' hrow').mp heq)

/-- The rows with a stored key are one row. -/
theorem Unique.filter_eq_singleton (h : Unique key rows) (hk : Stored key rows k) :
    ∃ row, row ∈ rows ∧ key row = k ∧ rows.filter (fun row => key row = k) = [row] := by
  obtain ⟨row, hrow, hkey⟩ := stored_iff.mp hk
  refine ⟨row, hrow, hkey, ?_⟩
  have hmem : row ∈ rows.filter fun row => key row = k :=
    List.mem_filter.mpr ⟨hrow, decide_eq_true hkey⟩
  have hnodup : (rows.filter fun row => key row = k).Nodup :=
    List.Nodup.of_map key (h.filter _)
  refine List.perm_singleton.mp ((List.perm_ext_iff_of_nodup hnodup (List.nodup_singleton row)).mpr
    fun row' => ?_)
  rw [List.mem_singleton]
  constructor
  · intro hrow'
    obtain ⟨hmem', hkey'⟩ := List.mem_filter.mp hrow'
    exact h.eq_of_mem hmem' hrow ((of_decide_eq_true hkey').trans hkey.symm)
  · intro heq
    exact heq ▸ hmem

/-! ## Writes that can fail -/

/-- What each write keeps is kept by all of them, if none fails. -/
theorem foldlM_invariant {σ α : Type*} {f : σ → α → Option σ} (Inv : σ → Prop) {l : List α}
    {s s' : σ} (hstep : ∀ a ∈ l, ∀ t t', f t a = some t' → Inv t → Inv t')
    (h : l.foldlM f s = some s') (hinv : Inv s) : Inv s' := by
  induction l generalizing s with
  | nil =>
      obtain rfl := Option.some.inj h
      exact hinv
  | cons a l ih =>
      obtain ⟨t, ha, hl⟩ := Option.bind_eq_some_iff.mp h
      exact ih (fun b hb => hstep b (List.mem_cons_of_mem a hb)) hl
        (hstep a List.mem_cons_self s t ha hinv)

/-! ## Groups of rows -/

omit [DecidableEq κ] in
theorem nodup_eraseDups {α : Type*} [BEq α] [LawfulBEq α] (l : List α) : l.eraseDups.Nodup := by
  induction hn : l.length using Nat.strongRecOn generalizing l with
  | ind n ih =>
      cases l with
      | nil => exact List.nodup_nil
      | cons a l =>
          rw [List.eraseDups_cons, List.nodup_cons, List.mem_eraseDups]
          have hlt : (l.filter fun b => !b == a).length < n :=
            hn ▸ Nat.lt_succ_of_le (List.length_filter_le _ l)
          exact ⟨fun h => by simpa using (List.mem_filter.mp h).2, ih _ hlt _ rfl⟩

omit [DecidableEq κ] in
theorem length_eraseDups_mono {α : Type*} [BEq α] [LawfulBEq α] {l l' : List α} (h : l ⊆ l') :
    l.eraseDups.length ≤ l'.eraseDups.length := by
  refine (List.subperm_of_subset (nodup_eraseDups l) fun a ha => ?_).length_le
  rw [List.mem_eraseDups] at ha ⊢
  exact h ha

omit [DecidableEq κ] in
theorem map_filterMap_eq {α β γ : Type*} {f : α → Option β} {g : β → γ} {k : α → γ} {l : List α}
    (h : ∀ a ∈ l, ∃ b, f a = some b ∧ g b = k a) : (l.filterMap f).map g = l.map k := by
  induction l with
  | nil => rfl
  | cons a l ih =>
      obtain ⟨b, hb, hg⟩ := h a List.mem_cons_self
      rw [List.filterMap_cons_some hb, List.map_cons, List.map_cons, hg,
        ih fun a' ha' => h a' (List.mem_cons_of_mem a ha')]

end KeyedTable
