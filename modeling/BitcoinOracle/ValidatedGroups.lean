import BitcoinOracle.ValidatedOnce

/-! # One group of proofs

`insertValidatedTx` marks the proofs of its group by their signatures, and each update
must find one row.  The hash of the group is not asked for: the unique constraint of
`proofs` allows a signature once more with another type, signer or hash, and then the
update finds two rows and throws.

A transaction of the worker inserts its groups one after the other.  What the earlier
ones have marked makes no difference to a group: an earlier one that shared a signature
with it would have thrown.
-/
namespace BitcoinOracle
open Clarity KeyedTable Relayer

namespace Indexer
variable (P : Primitives)

/-- The proofs of a hash are validated, and nothing else changes. -/
def validateGroup (hash : Bytes) (proofs : List ProofRow) : List ProofRow :=
  proofs.map fun p => if p.orderHash = hash then { p with validated := true } else p

/-- The insert of a row does not throw, and validates its group. -/
def ValidatesGroup (db : Database) (v : ValidatedRow) : Prop :=
  ∃ db', insertValidatedTx P db v = some db' ∧
    db'.proofs = validateGroup v.orderHash db.proofs

/-- No unvalidated proof but itself has the signature of a proof of the group. -/
def OwnSignatures (db : Database) (hash : Bytes) : Prop :=
  ∀ p ∈ unvalidated db, p.orderHash = hash →
    ∀ q ∈ unvalidated db, q.signature = p.signature → q.key = p.key

instance (db : Database) (hash : Bytes) : Decidable (OwnSignatures db hash) :=
  inferInstanceAs (Decidable (∀ p ∈ unvalidated db, _ → _))

variable {P} {db db' : Database} {rows : List ProofRow} {minimalProofs size : Nat}
  {v w : ValidatedRow}

/-! ## The rows of the groups -/

theorem orderHash_validateBatch {hash : Bytes}
    (h : validateBatch P db (rows.filter fun p => p.orderHash = hash) = some v) :
    v.orderHash = hash := by
  obtain ⟨proof, rest, tx, hproofs, -, rfl⟩ := validateBatch_eq_some.mp h
  have hmem : proof ∈ rows.filter fun p => p.orderHash = hash := by simp [hproofs]
  exact of_decide_eq_true (List.mem_filter.mp hmem).2

/-- No hash has two groups. -/
theorem pairwise_newlyValidated :
    (newlyValidated P db rows).Pairwise fun v w => v.orderHash ≠ w.orderHash := by
  refine List.pairwise_filterMap.mpr (List.pairwise_map.mpr
    ((nodup_eraseDups _).imp fun {hash hash'} hne v hv w hw heq => hne ?_))
  exact (orderHash_validateBatch hv).symm.trans (heq.trans (orderHash_validateBatch hw))

section Groups
variable (hrows : PendingProofs db minimalProofs size rows)
include hrows

/-- A row is inserted for a group: the unvalidated proofs of its hash. -/
theorem group_of_newlyValidated (hv : v ∈ newlyValidated P db rows) : v.Listed ∧
    v.signatures = (rows.filter fun p => p.orderHash = v.orderHash).map ProofRow.signature ∧
      ∀ p, p ∈ (rows.filter fun p => p.orderHash = v.orderHash) ↔
        p ∈ unvalidated db ∧ p.orderHash = v.orderHash := by
  obtain ⟨batch, hbatch, hv⟩ := List.mem_filterMap.mp hv
  obtain ⟨hash, hhash, rfl⟩ := List.mem_map.mp hbatch
  obtain rfl := orderHash_validateBatch hv
  have hgroup : ∀ p, p ∈ (rows.filter fun p => p.orderHash = v.orderHash) ↔
      p ∈ unvalidated db ∧ p.orderHash = v.orderHash := by
    intro p
    rw [List.mem_filter, hrows.mem_rows, decide_eq_true_iff]
    constructor
    · exact fun h => ⟨h.1.1, h.2⟩
    · exact fun h => ⟨⟨h.1, h.2 ▸ hhash⟩, h.2⟩
  obtain ⟨proof, rest, tx, hproofs, -, hvalidated⟩ := validateBatch_eq_some.mp hv
  have hsignatures : v.signatures =
      (rows.filter fun p => p.orderHash = v.orderHash).map ProofRow.signature :=
    congrArg ValidatedRow.signatures hvalidated
  refine ⟨⟨?_, ?_, ?_⟩, hsignatures, hgroup⟩
  · rw [hsignatures, hproofs]
    exact List.cons_ne_nil _ _
  · rw [hvalidated]
    simp [validatedTx]
  · rw [hvalidated]
    simp [validatedTx]

theorem mem_signatures_iff (hv : v ∈ newlyValidated P db rows) {signature : Bytes} :
    signature ∈ v.signatures ↔
      ∃ p ∈ unvalidated db, p.orderHash = v.orderHash ∧ p.signature = signature := by
  obtain ⟨-, hsignatures, hgroup⟩ := group_of_newlyValidated hrows hv
  rw [hsignatures, List.mem_map]
  simp only [hgroup, and_assoc]

omit hrows in
/-- Two unvalidated proofs with a signature that is pending once are one. -/
theorem PendingOnce.eq_of_mem {signature : Bytes} (h : PendingOnce db.proofs signature)
    {p q : ProofRow} (hp : p ∈ unvalidated db) (hq : q ∈ unvalidated db)
    (hpsignature : p.signature = signature) (hqsignature : q.signature = signature) : p = q := by
  obtain ⟨r, hr⟩ := List.length_eq_one_iff.mp h
  have honly : ∀ p ∈ unvalidated db, p.signature = signature → p = r := by
    intro p hp hsame
    obtain ⟨hmem, hvalidated⟩ := mem_unvalidated.mp hp
    have hfound : p ∈ db.proofs.filter fun p => p.signature = signature ∧ p.validated = false :=
      List.mem_filter.mpr ⟨hmem, decide_eq_true ⟨hsame, hvalidated⟩⟩
    rw [hr] at hfound
    exact List.mem_singleton.mp hfound
  exact (honly p hp hpsignature).trans (honly q hq hqsignature).symm

/-- **A group has its signatures for itself exactly if each can be marked once.** -/
theorem ownSignatures_iff (hkeys : Unique ProofRow.key db.proofs)
    (hv : v ∈ newlyValidated P db rows) : OwnSignatures db v.orderHash ↔
      v.signatures.Nodup ∧ ∀ signature ∈ v.signatures, PendingOnce db.proofs signature := by
  obtain ⟨-, hsignatures, hgroup⟩ := group_of_newlyValidated hrows hv
  have heq : ∀ {p q : ProofRow}, p ∈ unvalidated db → q ∈ unvalidated db → p.key = q.key → p = q :=
    fun hp hq => hkeys.eq_of_mem (mem_unvalidated.mp hp).1 (mem_unvalidated.mp hq).1
  constructor
  · intro hown
    constructor
    · rw [hsignatures]
      refine List.Nodup.map_on (fun p hp q hq hsame => ?_) (List.Nodup.filter _ ?_)
      · obtain ⟨hp, hphash⟩ := (hgroup p).mp hp
        obtain ⟨hq, -⟩ := (hgroup q).mp hq
        exact heq hp hq (hown p hp hphash q hq hsame.symm).symm
      · have hnodup : db.proofs.Nodup := List.Nodup.of_map _ hkeys
        exact hrows.perm.nodup_iff.mpr ((hnodup.filter _).filter _)
    · intro signature hmem
      obtain ⟨p, hp, hphash, hsame⟩ := (mem_signatures_iff hrows hv).mp hmem
      obtain ⟨hstored, hvalidated⟩ := mem_unvalidated.mp hp
      obtain ⟨_, -, -, hsingle⟩ := hkeys.filter_eq_singleton (stored_of_mem hstored)
      have hfilter : (db.proofs.filter fun q => q.signature = signature ∧ q.validated = false) =
          db.proofs.filter fun q => q.key = p.key := by
        refine List.filter_congr fun q hq => decide_eq_decide.mpr ⟨fun h => ?_, fun h => ?_⟩
        · exact hown p hp hphash q (mem_unvalidated.mpr ⟨hq, h.2⟩) (h.1.trans hsame.symm)
        · rw [hkeys.eq_of_mem hq hstored h]
          exact ⟨hsame, hvalidated⟩
      rw [PendingOnce, hfilter, hsingle]
      rfl
  · rintro ⟨-, honce⟩ p hp hphash q hq hsame
    have hmem : p.signature ∈ v.signatures := (mem_signatures_iff hrows hv).mpr ⟨p, hp, hphash, rfl⟩
    rw [(honce _ hmem).eq_of_mem hq hp hsame rfl]

/-- Groups of different hashes share no signature that is pending once. -/
theorem disjoint_of_pendingOnce (hv : v ∈ newlyValidated P db rows)
    (hw : w ∈ newlyValidated P db rows) (hne : w.orderHash ≠ v.orderHash)
    (honce : ∀ signature ∈ v.signatures, PendingOnce db.proofs signature) :
    List.Disjoint w.signatures v.signatures := by
  intro signature hmem hmem'
  obtain ⟨p, hp, hphash, hpsame⟩ := (mem_signatures_iff hrows hw).mp hmem
  obtain ⟨q, hq, hqhash, hqsame⟩ := (mem_signatures_iff hrows hv).mp hmem'
  rw [(honce signature hmem').eq_of_mem hp hq hpsame hqsame, hqhash] at hphash
  exact hne hphash.symm

end Groups

/-! ## Marking a group -/

/-- Marking the signatures of a group validates it, if they are no other proof's. -/
theorem mark_eq_validateGroup {signatures : List Bytes} {hash : Bytes} {proofs : List ProofRow}
    (h : ∀ p ∈ proofs, p.validated = false → (p.signature ∈ signatures ↔ p.orderHash = hash)) :
    mark signatures proofs = validateGroup hash proofs := by
  refine List.map_congr_left fun p hp => ?_
  cases hvalidated : p.validated with
  | false => simp [h p hp hvalidated]
  | true =>
      have hsame : { p with validated := true } = p := by rw [← hvalidated]
      rw [hsame, ite_self, ite_self]

/-- What is unvalidated after some marks was so before. -/
theorem mem_of_mem_mark {signatures : List Bytes} {proofs : List ProofRow} {p : ProofRow}
    (hp : p ∈ mark signatures proofs) (hvalidated : p.validated = false) : p ∈ proofs := by
  obtain ⟨q, hq, rfl⟩ := List.mem_map.mp hp
  by_cases hin : q.signature ∈ signatures
  · simp [hin] at hvalidated
  · rwa [if_neg hin]

section Inserts
variable (hkeys : Unique ProofRow.key db.proofs) (hrows : PendingProofs db minimalProofs size rows)
include hkeys hrows

/-- **A group is validated, and nothing else, exactly if it has its signatures for itself.**
Whatever groups of the transaction have been inserted before. -/
theorem validatesGroup_iff {earlier later : List ValidatedRow} {db₁ : Database}
    (hgroups : newlyValidated P db rows = earlier ++ v :: later)
    (hearlier : earlier.foldlM (insertValidatedTx P) db = some db₁)
    (hnew : ¬ Stored (ValidatedRow.id2 P) db₁.validatedTxs (v.id2 P)) :
    ValidatesGroup P db₁ v ↔ OwnSignatures db v.orderHash := by
  have hv : v ∈ newlyValidated P db rows := by simp [hgroups]
  obtain ⟨-, -, proofs₁, hmarked, rfl⟩ := insertAll_iff.mp hearlier
  rw [ownSignatures_iff hrows hkeys hv]
  generalize hbefore : (earlier.map ValidatedRow.signatures).flatten = before at hmarked
  have htogether : ∀ proofs, v.signatures.foldlM markValidated proofs₁ = some proofs ↔
      (before ++ v.signatures).foldlM markValidated db.proofs = some proofs := by
    intro proofs
    rw [List.foldlM_append, hmarked]
    rfl
  obtain ⟨⟨hnodup, honce⟩, rfl⟩ := markAll_iff.mp hmarked
  constructor
  · rintro ⟨db₂, hinsert, -⟩
    obtain ⟨-, -, proofs, hproofs, -⟩ := insertValidatedTx_iff.mp hinsert
    obtain ⟨⟨hall, hallOnce⟩, -⟩ := markAll_iff.mp ((htogether proofs).mp hproofs)
    exact ⟨(List.nodup_append'.mp hall).2.1,
      fun signature hmem => hallOnce signature (List.mem_append_right _ hmem)⟩
  · rintro ⟨hvnodup, hvonce⟩
    have hdisjoint : List.Disjoint before v.signatures := by
      rw [← hbefore]
      intro signature hmem hmem'
      obtain ⟨signatures, hsignatures, hmem⟩ := List.mem_flatten.mp hmem
      obtain ⟨w, hw, rfl⟩ := List.mem_map.mp hsignatures
      have hpairwise : (newlyValidated P db rows).Pairwise fun v w => v.orderHash ≠ w.orderHash :=
        pairwise_newlyValidated
      rw [hgroups] at hpairwise
      have hne := (List.pairwise_append.mp hpairwise).2.2 w hw v List.mem_cons_self
      have hwmem : w ∈ newlyValidated P db rows := by simp [hgroups, hw]
      exact disjoint_of_pendingOnce hrows hv hwmem hne hvonce hmem hmem'
    have hproofs : v.signatures.foldlM markValidated (mark before db.proofs) =
        some (mark v.signatures (mark before db.proofs)) := by
      rw [← mark_append, htogether]
      refine markAll_iff.mpr ⟨⟨List.nodup_append'.mpr ⟨hnodup, hvnodup, hdisjoint⟩, ?_⟩, rfl⟩
      intro signature hmem
      rcases List.mem_append.mp hmem with hold | hmine
      · exact honce signature hold
      · exact hvonce signature hmine
    refine ⟨_, insertValidatedTx_iff.mpr
      ⟨(group_of_newlyValidated hrows hv).1, hnew, _, hproofs, rfl⟩, ?_⟩
    refine mark_eq_validateGroup fun p hp hvalidated => ?_
    have hpending : p ∈ unvalidated db :=
      mem_unvalidated.mpr ⟨mem_of_mem_mark hp hvalidated, hvalidated⟩
    rw [mem_signatures_iff hrows hv]
    constructor
    · rintro ⟨q, hq, hqhash, hsame⟩
      have hmem : p.signature ∈ v.signatures :=
        (mem_signatures_iff hrows hv).mpr ⟨q, hq, hqhash, hsame⟩
      rw [(hvonce _ hmem).eq_of_mem hpending hq rfl hsame, hqhash]
    · exact fun hphash => ⟨p, hpending, hphash, rfl⟩

/-- **A transaction does not throw exactly if all of its groups have their signatures for
themselves.** -/
theorem process_isSome_iff_ownSignatures
    (hunique : Unique (ValidatedRow.id2 P) (db.validatedTxs ++ newlyValidated P db rows)) :
    (processPendingProofs P db rows).isSome = true ↔
      ∀ v ∈ newlyValidated P db rows, OwnSignatures db v.orderHash := by
  obtain ⟨-, hids, hnews⟩ := unique_append_iff.mp hunique
  have hnew : ∀ v ∈ newlyValidated P db rows,
      ¬ Stored (ValidatedRow.id2 P) db.validatedTxs (v.id2 P) := by
    intro v hv hstored
    obtain ⟨w, hw, hid⟩ := stored_iff.mp hstored
    exact hnews w hw v hv hid
  rw [Option.isSome_iff_exists]
  constructor
  · rintro ⟨db', hdb'⟩ v hv
    obtain ⟨-, -, proofs, hproofs, -⟩ := insertAll_iff.mp hdb'
    obtain ⟨⟨hnodup, honce⟩, -⟩ := markAll_iff.mp hproofs
    have hmine : v.signatures ∈ (newlyValidated P db rows).map ValidatedRow.signatures :=
      List.mem_map_of_mem hv
    exact (ownSignatures_iff hrows hkeys hv).mpr ⟨(List.nodup_flatten.mp hnodup).1 _ hmine,
      fun signature hmem => honce signature (List.mem_flatten.mpr ⟨_, hmine, hmem⟩)⟩
  · intro hown
    have hsignatures := fun v hv => (ownSignatures_iff hrows hkeys hv).mp (hown v hv)
    refine ⟨_, insertAll_iff.mpr ⟨fun v hv => (group_of_newlyValidated hrows hv).1,
      ⟨hids, hnew⟩, _, markAll_iff.mpr ⟨⟨?_, ?_⟩, rfl⟩, rfl⟩⟩
    · refine List.nodup_flatten.mpr ⟨fun signatures hmem => ?_, List.pairwise_map.mpr ?_⟩
      · obtain ⟨v, hv, rfl⟩ := List.mem_map.mp hmem
        exact (hsignatures v hv).1
      · refine pairwise_newlyValidated.imp_of_mem fun {v w} hv hw hne => ?_
        exact disjoint_of_pendingOnce hrows hw hv hne (hsignatures w hw).2
    · intro signature hmem
      obtain ⟨signatures, hlist, hmem⟩ := List.mem_flatten.mp hmem
      obtain ⟨v, hv, rfl⟩ := List.mem_map.mp hlist
      exact (hsignatures v hv).2 signature hmem

end Inserts

/-- **Inserting a group validates exactly the group if and only if no other unvalidated
proof has one of its signatures**, under another type, signer or hash.  One such group, and
the whole transaction is taken back. -/
theorem groups_validated_iff (hkeys : Unique ProofRow.key db.proofs)
    (hrows : PendingProofs db minimalProofs size rows) :
    (∀ (earlier later : List ValidatedRow) (v : ValidatedRow) (db₁ : Database),
      newlyValidated P db rows = earlier ++ v :: later →
      earlier.foldlM (insertValidatedTx P) db = some db₁ →
      ¬ Stored (ValidatedRow.id2 P) db₁.validatedTxs (v.id2 P) →
        (ValidatesGroup P db₁ v ↔ OwnSignatures db v.orderHash)) ∧
    (Unique (ValidatedRow.id2 P) (db.validatedTxs ++ newlyValidated P db rows) →
      ((processPendingProofs P db rows).isSome = true ↔
        ∀ v ∈ newlyValidated P db rows, OwnSignatures db v.orderHash)) :=
  ⟨fun _ _ _ _ => validatesGroup_iff hkeys hrows, process_isSome_iff_ownSignatures hkeys hrows⟩

end Indexer

/-! ## A validator with two data sources -/

namespace Sample
open Indexer Relayer

/-- The query finds all proofs. -/
def firstTransaction (db : Database) : Option Database :=
  processPendingProofs relayPrimitives db (unvalidated db)

def agreed : Database := posted [bisPost, unisatPost]

theorem agreed_pending :
    Unique ProofRow.key agreed.proofs ∧
      PendingProofs agreed 2 1000 (unvalidated agreed) ∧
      agreed.validatedTxs = [] ∧
      (newlyValidated relayPrimitives agreed (unvalidated agreed)).length = 1 ∧
      ∀ v ∈ newlyValidated relayPrimitives agreed (unvalidated agreed),
        OwnSignatures agreed v.orderHash := by
  decide +kernel

theorem groups_validated_agreed :
    ∃ v, newlyValidated relayPrimitives agreed (unvalidated agreed) = [v] ∧
      ValidatesGroup relayPrimitives agreed v ∧ (firstTransaction agreed).isSome = true := by
  obtain ⟨hkeys, hrows, hempty, hlength, hown⟩ := agreed_pending
  obtain ⟨v, hv⟩ := List.length_eq_one_iff.mp hlength
  have hnew : ¬ Stored (ValidatedRow.id2 relayPrimitives) agreed.validatedTxs
      (v.id2 relayPrimitives) := by
    rw [hempty]
    exact fun h => nomatch h
  have hunique : Unique (ValidatedRow.id2 relayPrimitives) (agreed.validatedTxs ++
      newlyValidated relayPrimitives agreed (unvalidated agreed)) := by
    rw [hempty, hv]
    exact List.nodup_singleton _
  obtain ⟨hgroup, htransaction⟩ := groups_validated_iff hkeys hrows
  refine ⟨v, hv, (hgroup [] [] v agreed hv rfl hnew).mpr (hown v ?_),
    (htransaction hunique).mpr hown⟩
  rw [hv]
  exact List.mem_singleton_self v

/-- A validator signs what `bis` and `okx` tell it alike, with one signature. -/
def twoSources : List TxRequest := [bisPost, unisatPost, { bisPost with type := .okx }]

theorem twoSources_throw :
    (tables relayPrimitives bitcoinLib).history .empty (twoSources.map .post) = twoSources ∧
      Unique ProofRow.key (posted twoSources).proofs ∧
      PendingProofs (posted twoSources) 2 1000 (unvalidated (posted twoSources)) ∧
      (posted twoSources).validatedTxs = [] ∧
      (newlyValidated relayPrimitives (posted twoSources)
        (unvalidated (posted twoSources))).map (insertValidatedTx relayPrimitives
          (posted twoSources)) = [none] ∧
      firstTransaction (posted twoSources) = none := by
  decide +kernel

/-- **All three posts are stored, the update finds two proofs, and the transaction is taken
back.** -/
theorem two_sources_not_validated :
    (tables relayPrimitives bitcoinLib).history .empty (twoSources.map .post) = twoSources ∧
      Unique ProofRow.key (posted twoSources).proofs ∧
      PendingProofs (posted twoSources) 2 1000 (unvalidated (posted twoSources)) ∧
      firstTransaction (posted twoSources) = none ∧
      ∃ v, newlyValidated relayPrimitives (posted twoSources)
          (unvalidated (posted twoSources)) = [v] ∧
        ¬ Stored (ValidatedRow.id2 relayPrimitives) (posted twoSources).validatedTxs
          (v.id2 relayPrimitives) ∧
        ¬ ValidatesGroup relayPrimitives (posted twoSources) v := by
  obtain ⟨hposts, hkeys, hrows, hempty, hinserts, hnone⟩ := twoSources_throw
  refine ⟨hposts, hkeys, hrows, hnone, ?_⟩
  obtain ⟨v, hv, hthrows⟩ := List.map_eq_singleton_iff.mp hinserts
  refine ⟨v, hv, ?_, ?_⟩
  · rw [hempty]
    exact fun h => nomatch h
  · rintro ⟨db', hinsert, -⟩
    rw [hinsert] at hthrows
    cases hthrows

end Sample
end BitcoinOracle
