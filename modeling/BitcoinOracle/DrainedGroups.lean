import BitcoinOracle.GroupedRows
import BitcoinOracle.ValidatedGroups

/-! # What the worker leaves behind

`process` runs transactions until one validates nothing.  A transaction sees as many
groups as `limit` takes, whichever those are; a group without its row of `txs` is skipped
and stays.  When a transaction sees groups to be skipped only, the worker stops, and the
others wait.

That cannot happen with fewer such groups than the limit, for then one of the others is
among those seen (`drained_iff`).
-/
namespace BitcoinOracle
open Clarity KeyedTable Relayer GroupedRows

namespace Indexer
variable (P : Primitives)

/-- `process`: transactions, the last of them returns 0. -/
inductive Processes (minimalProofs size : Nat) : Database → Database → Prop
  | last {db db' : Database} {rows : List ProofRow}
      (hrows : PendingProofs db minimalProofs size rows)
      (hprocess : processPendingProofs P db rows = some db') (hzero : processed P db rows = 0) :
      Processes minimalProofs size db db'
  | next {db db₁ db' : Database} {rows : List ProofRow}
      (hrows : PendingProofs db minimalProofs size rows)
      (hprocess : processPendingProofs P db rows = some db₁) (hsome : processed P db rows ≠ 0)
      (hrest : Processes minimalProofs size db₁ db') : Processes minimalProofs size db db'

/-- The proof has its row of `txs`. -/
def HasTx (db : Database) (p : ProofRow) : Prop :=
  (db.txs.filter fun tx => tx.id P = p.id P).length = 1

instance (db : Database) (p : ProofRow) : Decidable (HasTx P db p) :=
  inferInstanceAs (Decidable (_ = _))

/-- The group of the hash has it, whichever of its proofs is the first. -/
def Drainable (db : Database) (hash : Bytes) : Prop :=
  ∀ p ∈ unvalidated db, p.orderHash = hash → HasTx P db p

instance (db : Database) (hash : Bytes) : Decidable (Drainable P db hash) :=
  inferInstanceAs (Decidable (∀ p ∈ unvalidated db, _ → _))

/-- No group that has enough signers and its transaction is left. -/
def Drained (minimalProofs : Nat) (db : Database) : Prop :=
  ∀ hash ∈ pendingHashes minimalProofs db, ¬ Drainable P db hash

instance (minimalProofs : Nat) (db : Database) : Decidable (Drained P minimalProofs db) :=
  inferInstanceAs (Decidable (∀ hash ∈ pendingHashes minimalProofs db, _))

/-- The groups that may be skipped. -/
def stuckHashes (minimalProofs : Nat) (db : Database) : List Bytes :=
  (pendingHashes minimalProofs db).filter fun hash => ¬ Drainable P db hash

variable {P} {db db' : Database} {rows : List ProofRow} {minimalProofs size : Nat} {hash : Bytes}

theorem mem_pendingHashes : hash ∈ pendingHashes minimalProofs db ↔
    (∃ p ∈ unvalidated db, p.orderHash = hash) ∧
      minimalProofs ≤ countSigners (unvalidated db) hash := by
  rw [pendingHashes, List.mem_filter, mem_orderHashes, decide_eq_true_iff]

theorem mem_stuckHashes : hash ∈ stuckHashes P minimalProofs db ↔
    hash ∈ pendingHashes minimalProofs db ∧ ¬ Drainable P db hash := by
  rw [stuckHashes, List.mem_filter, decide_eq_true_iff]

theorem nodup_pendingHashes : (pendingHashes minimalProofs db).Nodup :=
  (nodup_eraseDups _).filter _

theorem nodup_stuckHashes : (stuckHashes P minimalProofs db).Nodup :=
  nodup_pendingHashes.filter _

/-! ## What a transaction takes from the pool -/

theorem unvalidated_mark {signatures : List Bytes} {proofs : List ProofRow} :
    (mark signatures proofs).filter (fun p => !p.validated) =
      (proofs.filter fun p => !p.validated).filter fun p => p.signature ∉ signatures := by
  induction proofs with
  | nil => rfl
  | cons p proofs ih =>
      rw [mark, List.map_cons, ← mark]
      by_cases hin : p.signature ∈ signatures
      · rw [if_pos hin, List.filter_cons_of_neg (by simp), ih]
        cases hvalidated : p.validated with
        | true => rw [List.filter_cons_of_neg (by simp [hvalidated])]
        | false =>
            rw [List.filter_cons_of_pos (p := fun p : ProofRow => !p.validated)
              (by simp [hvalidated]), List.filter_cons_of_neg (by simp [hin])]
      · rw [if_neg hin]
        cases hvalidated : p.validated with
        | true =>
            rw [List.filter_cons_of_neg (by simp [hvalidated]),
              List.filter_cons_of_neg (by simp [hvalidated]), ih]
        | false =>
            rw [List.filter_cons_of_pos (by simp [hvalidated]),
              List.filter_cons_of_pos (p := fun p : ProofRow => !p.validated)
                (by simp [hvalidated]), List.filter_cons_of_pos (by simp [hin]), ih]

/-- A transaction validates whole groups, and nothing else. -/
theorem unvalidated_process (hrows : PendingProofs db minimalProofs size rows)
    (h : processPendingProofs P db rows = some db') : db'.txs = db.txs ∧
      unvalidated db' = (unvalidated db).filter fun p =>
        p.orderHash ∉ (newlyValidated P db rows).map ValidatedRow.orderHash := by
  obtain ⟨-, -, proofs, hproofs, rfl⟩ := insertAll_iff.mp h
  obtain ⟨⟨-, honce⟩, rfl⟩ := markAll_iff.mp hproofs
  refine ⟨rfl, unvalidated_mark.trans (List.filter_congr fun p hp => ?_)⟩
  rw [decide_eq_decide, not_iff_not, List.mem_flatten, List.mem_map]
  constructor
  · -- a signature that is pending once is that of the proof itself
    rintro ⟨signatures, hsignatures, hmem⟩
    obtain ⟨v, hv, rfl⟩ := List.mem_map.mp hsignatures
    obtain ⟨q, hq, hqhash, hsame⟩ := (mem_signatures_iff hrows hv).mp hmem
    have hpending := honce p.signature (List.mem_flatten.mpr ⟨_, hsignatures, hmem⟩)
    rw [hpending.eq_of_mem hp hq rfl hsame]
    exact ⟨v, hv, hqhash.symm⟩
  · rintro ⟨v, hv, hhash⟩
    exact ⟨_, List.mem_map_of_mem hv, (mem_signatures_iff hrows hv).mpr ⟨p, hp, hhash.symm, rfl⟩⟩

/-- The groups that remain are as they were. -/
theorem pendingHashes_process (hrows : PendingProofs db minimalProofs size rows)
    (h : processPendingProofs P db rows = some db')
    (hhash : hash ∈ pendingHashes minimalProofs db') :
    hash ∈ pendingHashes minimalProofs db ∧ (Drainable P db' hash ↔ Drainable P db hash) := by
  obtain ⟨htxs, hunvalidated⟩ := unvalidated_process hrows h
  obtain ⟨⟨p, hp, rfl⟩, henough⟩ := mem_pendingHashes.mp hhash
  have hmem : ∀ q, q ∈ unvalidated db' ↔ q ∈ unvalidated db ∧
      q.orderHash ∉ (newlyValidated P db rows).map ValidatedRow.orderHash := by
    intro q
    rw [hunvalidated, List.mem_filter, decide_eq_true_iff]
  obtain ⟨hp, hnot⟩ := (hmem p).mp hp
  constructor
  · refine mem_pendingHashes.mpr ⟨⟨p, hp, rfl⟩, henough.trans ?_⟩
    refine length_eraseDups_mono (List.map_subset _ fun q hq => ?_)
    obtain ⟨hq, heq⟩ := List.mem_filter.mp hq
    exact List.mem_filter.mpr ⟨((hmem q).mp hq).1, heq⟩
  · refine forall_congr' fun q => ?_
    rw [hmem q, HasTx, HasTx, htxs]
    constructor
    · exact fun h hq heq => h ⟨hq, heq ▸ hnot⟩ heq
    · exact fun h hq heq => h hq.1 heq

theorem length_stuckHashes_process (hrows : PendingProofs db minimalProofs size rows)
    (h : processPendingProofs P db rows = some db') :
    (stuckHashes P minimalProofs db').length ≤ (stuckHashes P minimalProofs db).length := by
  refine (List.subperm_of_subset nodup_stuckHashes fun hash hhash => ?_).length_le
  obtain ⟨hpending, hstuck⟩ := mem_stuckHashes.mp hhash
  obtain ⟨hbefore, hiff⟩ := pendingHashes_process hrows h hpending
  exact mem_stuckHashes.mpr ⟨hbefore, mt hiff.mpr hstuck⟩

theorem Drained.process (hdrained : Drained P minimalProofs db)
    (hrows : PendingProofs db minimalProofs size rows)
    (h : processPendingProofs P db rows = some db') : Drained P minimalProofs db' := by
  intro hash hhash hdrainable
  obtain ⟨hbefore, hiff⟩ := pendingHashes_process hrows h hhash
  exact hdrained hash hbefore (hiff.mp hdrainable)

/-! ## The last transaction -/

/-- A group that is seen and skipped is stuck. -/
theorem subset_stuckHashes (hrows : PendingProofs db minimalProofs size rows)
    (hzero : processed P db rows = 0) : orderHashes rows ⊆ stuckHashes P minimalProofs db := by
  intro hash hhash
  obtain ⟨p, hp, rfl⟩ := mem_orderHashes.mp hhash
  have hpending := (hrows.mem_rows.mp hp).1
  refine mem_stuckHashes.mpr
    ⟨mem_pendingHashes.mpr ⟨⟨p, hpending, rfl⟩, hrows.enough _ hhash⟩, fun hdrainable => ?_⟩
  have hskipped : validateBatch P db (rows.filter fun q => q.orderHash = p.orderHash) = none :=
    List.filterMap_eq_nil_iff.mp (List.length_eq_zero_iff.mp hzero) _ (List.mem_map_of_mem hhash)
  have hmem : p ∈ rows.filter fun q => q.orderHash = p.orderHash :=
    List.mem_filter.mpr ⟨hp, decide_eq_true rfl⟩
  cases hbatch : rows.filter fun q => q.orderHash = p.orderHash with
  | nil => exact List.not_mem_nil (hbatch ▸ hmem)
  | cons first rest =>
      -- the first proof of a group decides whether it is skipped
      obtain ⟨hfirst, heq⟩ := List.mem_filter.mp (hbatch ▸ List.mem_cons_self :
        first ∈ rows.filter fun q => q.orderHash = p.orderHash)
      obtain ⟨tx, htx⟩ := List.length_eq_one_iff.mp
        (hdrainable first (hrows.mem_rows.mp hfirst).1 (of_decide_eq_true heq))
      rw [hbatch, validateBatch, htx] at hskipped
      cases hskipped

/-- With room for one group more than are stuck, the last transaction saw them all. -/
theorem drained_of_last (hrows : PendingProofs db minimalProofs size rows)
    (hzero : processed P db rows = 0) (hfew : (stuckHashes P minimalProofs db).length < size) :
    Drained P minimalProofs db := by
  have hstuck := subset_stuckHashes hrows hzero
  have hnodup : (orderHashes rows).Nodup := nodup_eraseDups _
  have hle := (List.subperm_of_subset hnodup hstuck).length_le
  have hlimit : (orderHashes rows).length = min size (pendingHashes minimalProofs db).length :=
    hrows.limit
  have hsubset : orderHashes rows ⊆ pendingHashes minimalProofs db :=
    fun hash hhash => (mem_stuckHashes.mp (hstuck hhash)).1
  -- fewer groups were seen than the limit takes, so there are no others
  have hperm := (List.subperm_of_subset hnodup hsubset).perm_of_length_le (by omega)
  exact fun hash hhash => (mem_stuckHashes.mp (hstuck (hperm.mem_iff.mpr hhash))).2

theorem Processes.drained (h : Processes P minimalProofs size db db')
    (hdb : (stuckHashes P minimalProofs db).length < size ∨ Drained P minimalProofs db) :
    Drained P minimalProofs db' := by
  induction h with
  | last hrows hprocess hzero =>
      rcases hdb with hfew | hdrained
      · exact (drained_of_last hrows hzero hfew).process hrows hprocess
      · exact hdrained.process hrows hprocess
  | next hrows hprocess hsome hrest ih =>
      refine ih (hdb.imp (fun hfew => ?_) fun hdrained => hdrained.process hrows hprocess)
      exact Nat.lt_of_le_of_lt (length_stuckHashes_process hrows hprocess) hfew

/-! ## A transaction that sees stuck groups only -/

theorem bytesLe_total (a b : Bytes) : bytesLe a b = true ∨ bytesLe b a = true := by
  induction a generalizing b with
  | nil => exact Or.inl rfl
  | cons x a ih =>
      cases b with
      | nil => exact Or.inr rfl
      | cons y b =>
          simp only [bytesLe, Bool.or_eq_true, Bool.and_eq_true, decide_eq_true_iff]
          have htail := ih b
          rcases Nat.lt_trichotomy x.toNat y.toNat with hlt | heq | hlt
          · exact Or.inl (Or.inl hlt)
          · exact htail.imp (fun h => Or.inr ⟨heq, h⟩) fun h => Or.inr ⟨heq.symm, h⟩
          · exact Or.inr (Or.inl hlt)

theorem bytesLe_trans {a b c : Bytes} (hab : bytesLe a b = true) (hbc : bytesLe b c = true) :
    bytesLe a c = true := by
  induction a generalizing b c with
  | nil => rfl
  | cons x a ih =>
      cases b with
      | nil => cases hab
      | cons y b =>
          cases c with
          | nil => cases hbc
          | cons z c =>
              simp only [bytesLe, Bool.or_eq_true, Bool.and_eq_true, decide_eq_true_iff]
                at hab hbc ⊢
              rcases hab with hlt | ⟨heq, hab⟩ <;> rcases hbc with hlt' | ⟨heq', hbc⟩
              · exact Or.inl (hlt.trans hlt')
              · exact Or.inl (heq' ▸ hlt)
              · exact Or.inl (heq ▸ hlt')
              · exact Or.inr ⟨heq.trans heq', ih hab hbc⟩

/-- Any choice of groups may be what the query answers, with the proofs of each in any
order. -/
theorem exists_pendingProofs {hashes : List Bytes} (hnodup : hashes.Nodup)
    (hsubset : hashes ⊆ pendingHashes minimalProofs db)
    (hlength : hashes.length = min size (pendingHashes minimalProofs db).length)
    (A : Arrangement ProofRow.orderHash (unvalidated db) hashes) :
    ∃ rows, PendingProofs db minimalProofs size rows ∧ (∀ h, h ∈ orderHashes rows ↔ h ∈ hashes) ∧
      ∀ h ∈ hashes, rows.filter (fun p => p.orderHash = h) = A.group h := by
  -- the groups in the order of their hashes, one after the other
  let sorted := hashes.mergeSort bytesLe
  have hperm : sorted.Perm hashes := List.mergeSort_perm _ _
  have htotal : ∀ a b, (bytesLe a b || bytesLe b a) = true :=
    fun a b => by simpa using bytesLe_total a b
  have horder : sorted.Pairwise fun a b => bytesLe a b = true :=
    @List.pairwise_mergeSort _ bytesLe (fun _ _ _ => bytesLe_trans) htotal hashes
  have hsorted : sorted.Nodup := hperm.nodup_iff.mpr hnodup
  let B : Arrangement ProofRow.orderHash (unvalidated db) sorted :=
    ⟨A.group, fun k hk => A.perm k (hperm.mem_iff.mp hk)⟩
  have hmem : ∀ h, h ∈ orderHashes (sorted.flatMap A.group) ↔ h ∈ hashes := by
    intro h
    rw [mem_orderHashes, ← hperm.mem_iff]
    constructor
    · rintro ⟨p, hp, rfl⟩
      exact (B.mem_flatMap.mp hp).2
    · intro hh
      obtain ⟨⟨p, hp, rfl⟩, -⟩ := mem_pendingHashes.mp (hsubset (hperm.mem_iff.mp hh))
      exact ⟨p, B.mem_flatMap.mpr ⟨hp, hh⟩, rfl⟩
  refine ⟨sorted.flatMap A.group, ⟨?_, ?_, ?_, ?_⟩, hmem, fun h hh => ?_⟩
  · refine List.pairwise_flatMap.mpr ⟨fun h hh => ?_, horder.imp_of_mem fun {h h'} hh hh' hle => ?_⟩
    · refine List.pairwise_of_forall_mem_list fun p hp q hq => ?_
      rw [B.key_eq hh hp, B.key_eq hh hq]
      exact (bytesLe_total h h).elim id id
    · rintro p hp q hq
      rw [B.key_eq hh hp, B.key_eq hh' hq]
      exact hle
  · refine (B.flatMap_perm hsorted).trans (.of_eq (List.filter_congr fun p _ => ?_))
    rw [decide_eq_decide, hmem, hperm.mem_iff]
  · exact fun h hh => (mem_pendingHashes.mp (hsubset ((hmem h).mp hh))).2
  · have heq : (orderHashes (sorted.flatMap A.group)).Perm hashes :=
      (List.perm_ext_iff_of_nodup (nodup_eraseDups _) hnodup).mpr hmem
    exact heq.length_eq.trans hlength
  · exact B.filter_flatMap hsorted (hperm.mem_iff.mpr hh)

/-- The proofs of a group, those without a transaction first. -/
def stuckFirst (P : Primitives) (db : Database) (hashes : List Bytes) :
    Arrangement ProofRow.orderHash (unvalidated db) hashes where
  group := fun hash =>
    ((unvalidated db).filter fun p => p.orderHash = hash).filter (fun p => !decide (HasTx P db p)) ++
      ((unvalidated db).filter fun p => p.orderHash = hash).filter fun p => HasTx P db p
  perm := fun _ _ => List.perm_append_comm.trans (List.filter_append_perm _ _)

theorem validateBatch_of_not_hasTx {first : ProofRow} {rest : List ProofRow}
    (hskip : ¬ HasTx P db first) : validateBatch P db (first :: rest) = none := by
  refine Option.eq_none_iff_forall_ne_some.mpr fun v hv => hskip ?_
  obtain ⟨_, _, tx, hproofs, htx, -⟩ := validateBatch_eq_some.mp hv
  obtain ⟨rfl, -⟩ := List.cons.inj hproofs
  rw [HasTx, htx]
  rfl

theorem validateBatch_stuckFirst {hashes : List Bytes} (hstuck : ¬ Drainable P db hash) :
    validateBatch P db ((stuckFirst P db hashes).group hash) = none := by
  simp only [Drainable, not_forall] at hstuck
  obtain ⟨p, hp, heq, hnone⟩ := hstuck
  have hmem : p ∈ ((unvalidated db).filter fun p => p.orderHash = hash).filter
      (fun p => !decide (HasTx P db p)) := by simp [hp, heq, hnone]
  have hgroup : (stuckFirst P db hashes).group hash =
      ((unvalidated db).filter fun p => p.orderHash = hash).filter
          (fun p => !decide (HasTx P db p)) ++
        ((unvalidated db).filter fun p => p.orderHash = hash).filter fun p => HasTx P db p := rfl
  obtain ⟨first, rest, hwithout⟩ := List.exists_cons_of_ne_nil (List.ne_nil_of_mem hmem)
  have hfirst : first ∈ ((unvalidated db).filter fun p => p.orderHash = hash).filter
      (fun p => !decide (HasTx P db p)) := hwithout ▸ List.mem_cons_self
  rw [hgroup, hwithout, List.cons_append]
  exact validateBatch_of_not_hasTx (by simpa using (List.mem_filter.mp hfirst).2)

/-- With as many stuck groups as the limit takes, the worker may stop at once. -/
theorem exists_processes (hmany : size ≤ (stuckHashes P minimalProofs db).length) :
    Processes P minimalProofs size db db := by
  have hpending : (stuckHashes P minimalProofs db).length ≤
      (pendingHashes minimalProofs db).length := List.length_filter_le _ _
  let hashes := (stuckHashes P minimalProofs db).take size
  have hstuck : ∀ h ∈ hashes, h ∈ pendingHashes minimalProofs db ∧ ¬ Drainable P db h :=
    fun h hh => mem_stuckHashes.mp (List.mem_of_mem_take hh)
  have hlength : hashes.length = min size (pendingHashes minimalProofs db).length := by
    rw [List.length_take]
    omega
  obtain ⟨rows, hrows, hhashes, hgroups⟩ := exists_pendingProofs
    (nodup_stuckHashes.sublist (List.take_sublist _ _)) (fun h hh => (hstuck h hh).1) hlength
    (stuckFirst P db hashes)
  have hnone : newlyValidated P db rows = [] := by
    refine List.filterMap_eq_nil_iff.mpr fun batch hbatch => ?_
    obtain ⟨h, hh, rfl⟩ := List.mem_map.mp hbatch
    have hin := (hhashes h).mp hh
    rw [hgroups h hin]
    exact validateBatch_stuckFirst (hstuck h hin).2
  refine .last hrows ?_ (by rw [processed, hnone]; rfl)
  rw [processPendingProofs, ← newlyValidated, hnone]
  rfl

/-! ## Draining -/

/-- **Whatever groups its transactions see, the worker leaves none that has enough signers
and its transaction**, exactly if fewer groups than the limit are stuck, or there was none to
begin with. -/
theorem drained_iff (P : Primitives) (minimalProofs size : Nat) (db : Database) :
    (∀ db', Processes P minimalProofs size db db' → Drained P minimalProofs db') ↔
      (stuckHashes P minimalProofs db).length < size ∨ Drained P minimalProofs db := by
  constructor
  · intro h
    rcases Nat.lt_or_ge (stuckHashes P minimalProofs db).length size with hfew | hmany
    · exact Or.inl hfew
    · exact Or.inr (h db (exists_processes hmany))
  · exact fun hdb _ hprocesses => hprocesses.drained hdb

end Indexer

/-! ## One group hides another -/

namespace Sample
open Indexer Relayer

/-- The proofs of a transfer that `txs` does not know. -/
def strayProofs : List ProofRow :=
  agreed.proofs.map fun p =>
    { p with event := { p.event with output := p.event.output + 1 }, orderHash := [0x00] }

def hidden : Database := { agreed with proofs := agreed.proofs ++ strayProofs }

/-- With a limit of one group the worker stops at the stray one. -/
theorem hidden_not_drained :
    Processes relayPrimitives 2 1 hidden hidden ∧ ¬ Drained relayPrimitives 2 hidden :=
  have hstray : PendingProofs hidden 2 1 strayProofs ∧
      processPendingProofs relayPrimitives hidden strayProofs = some hidden ∧
      processed relayPrimitives hidden strayProofs = 0 := by decide +kernel
  ⟨.last hstray.1 hstray.2.1 hstray.2.2, by decide +kernel⟩

end Sample
end BitcoinOracle
