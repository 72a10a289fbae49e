import BitcoinOracle.ReaderExactness

/-! # Readers of fields

The readers of integers, lengths, byte strings and hashes are exact for the encoding of
what they read, and none of them ever aborts.
-/
namespace BitcoinOracle.ClarityBitcoin
open Clarity Encoding

/-! ## Integers -/

theorem slice_eq_some_iff_occurs {α : Type} {xs w : List α} {i n : Nat} :
    slice xs i (i + n) = some w ↔ Occurs w xs i ∧ w.length = n := by
  rw [slice_eq_some]
  constructor
  · rintro ⟨-, hle, rfl⟩
    have hlen : ((xs.take (i + n)).drop i).length = n := by
      rw [List.length_drop, List.length_take]
      omega
    refine ⟨occurs_iff.mpr ?_, hlen⟩
    rw [hlen]
    exact ⟨hle, rfl⟩
  · rintro ⟨hocc, rfl⟩
    obtain ⟨hle, heq⟩ := occurs_iff.mp hocc
    exact ⟨by omega, hle, heq⟩

theorem readUintLe_cases {width i : Nat} {buff : Bytes} (hb : buff.length < 2 ^ 64)
    (hi : i ≤ buff.length) (hwidth : width ≤ 8) :
    (∃ w, Occurs w buff i ∧ w.length = width ∧
        readUintLe width ⟨buff, i⟩ = .ok ⟨buffToUintLe w, ⟨buff, i + width⟩⟩) ∨
      (∀ w, w.length = width → ¬ Occurs w buff i) ∧
        readUintLe width ⟨buff, i⟩ = .err errOutOfBounds := by
  have hadd : i + width < 2 ^ 128 := by omega
  cases hw : slice buff i (i + width) with
  | some w =>
      obtain ⟨hocc, hlen⟩ := slice_eq_some_iff_occurs.mp hw
      exact Or.inl ⟨w, hocc, hlen, readUintLe_eq hw hadd⟩
  | none =>
      refine Or.inr ⟨fun w hlen hocc => ?_, ?_⟩
      · rw [slice_eq_some_iff_occurs.mpr ⟨hocc, hlen⟩] at hw
        cases hw
      · simp only [readUintLe, add_of_lt hadd, hw, Result.ok_bind]
        rfl

theorem readUintLe_reads {width : Nat} (hwidth : width ≤ 8) :
    Reads Parsed.mk (fun v b => v < 256 ^ width ∧ b = bytesLe width v) (readUintLe width) := by
  intro buff i hb hi r
  rcases readUintLe_cases hb hi hwidth with ⟨w, hocc, hlen, heq⟩ | ⟨hno, heq⟩
  · rw [heq]
    constructor
    · intro h
      refine ⟨buffToUintLe w, w, ⟨?_, ?_⟩, hocc, ?_⟩
      · rw [← hlen]
        exact buffToUintLe_lt w
      · rw [← hlen, bytesLe_buffToUintLe]
      · rw [← Result.ok.inj h, hlen]
    · rintro ⟨v, _, ⟨hv, rfl⟩, hocc', rfl⟩
      rw [hocc.unique hocc' (by rw [hlen, bytesLe_length]), buffToUintLe_bytesLe hv,
        bytesLe_length]
  · rw [heq]
    constructor
    · nofun
    · rintro ⟨v, _, ⟨-, rfl⟩, hocc, rfl⟩
      exact absurd hocc (hno _ (bytesLe_length width v))

theorem readUintLe_total {width : Nat} (hwidth : width ≤ 8) : Total (readUintLe width) := by
  refine total_iff.mpr fun buff i hb hi x hx => ?_
  rcases readUintLe_cases hb hi hwidth with ⟨w, -, -, heq⟩ | ⟨-, heq⟩
  · rw [heq] at hx
    cases hx
  · rw [heq] at hx
    cases hx

theorem readUint8_reads : Reads Parsed.mk (fun v b => v < 2 ^ 8 ∧ b = bytesLe 1 v) readUint8 :=
  readUintLe_reads (by decide)

theorem readUint16_reads : Reads Parsed.mk (fun v b => v < 2 ^ 16 ∧ b = bytesLe 2 v) readUint16 :=
  readUintLe_reads (by decide)

theorem readUint32_reads : Reads Parsed.mk (fun v b => v < 2 ^ 32 ∧ b = bytesLe 4 v) readUint32 :=
  readUintLe_reads (by decide)

theorem readUint64_reads : Reads Parsed.mk (fun v b => v < 2 ^ 64 ∧ b = bytesLe 8 v) readUint64 :=
  readUintLe_reads (by decide)

theorem readUint8_total : Total readUint8 := readUintLe_total (by decide)
theorem readUint32_total : Total readUint32 := readUintLe_total (by decide)
theorem readUint64_total : Total readUint64 := readUintLe_total (by decide)

/-! ## Lengths -/

/-- What `read-varint` reads behind its first byte. -/
def varintTail (p : Parsed Nat) : Result (Parsed Nat) :=
  if p.value ≤ 252 then .ok p
  else if p.value = 253 then readUint16 p.ctx
  else if p.value = 254 then readUint32 p.ctx
  else readUint64 p.ctx

/-- The first byte is read like any integer of one byte. -/
theorem readVarint_eq {buff : Bytes} {i : Nat} (hb : buff.length < 2 ^ 64) (hi : i ≤ buff.length) :
    readVarint ⟨buff, i⟩ = (readUint8 ⟨buff, i⟩ >>= varintTail) := by
  rcases readUintLe_cases hb hi (show 1 ≤ 8 by decide) with ⟨w, hocc, hlen, heq⟩ | ⟨hno, heq⟩
  · obtain ⟨first, rfl⟩ := List.length_eq_one_iff.mp hlen
    have hfirst : elementAt buff i = some first := by
      obtain ⟨pre, post, rfl, rfl⟩ := hocc
      unfold elementAt
      rw [List.getElem?_append_right (Nat.le_refl _), Nat.sub_self]
      rfl
    have hnext : add 1 i = .ok (i + 1) := by
      rw [add_of_lt (by omega), Nat.add_comm]
    rw [readUint8, heq, readVarint]
    simp only [hfirst, hnext, Result.unwrap, Result.ok_bind, Result.pure_def]
    rfl
  · have hfirst : elementAt buff i = none := by
      unfold elementAt
      rw [List.getElem?_eq_none_iff]
      by_contra hlt
      obtain ⟨first, hfirst⟩ : ∃ first, buff[i]? = some first :=
        ⟨_, List.getElem?_eq_getElem (by omega)⟩
      have hdrop : buff.drop i = first :: buff.drop (i + 1) := by
        rw [List.drop_eq_getElem_cons (by omega)]
        rw [List.getElem?_eq_getElem (by omega)] at hfirst
        rw [Option.some.inj hfirst]
      refine hno [first] rfl ⟨buff.take i, buff.drop (i + 1), ?_, ?_⟩
      · rw [List.length_take]
        omega
      · rw [List.singleton_append, ← hdrop, List.take_append_drop]
    rw [readUint8, heq, readVarint]
    simp only [hfirst]
    rfl

/-- What the bytes behind the first byte `a` of a length stand for. -/
def TailEncodes (a v : Nat) (b : Bytes) : Prop :=
  a ≤ 252 ∧ v = a ∧ b = [] ∨ a = 253 ∧ v < 2 ^ 16 ∧ b = bytesLe 2 v ∨
    a = 254 ∧ v < 2 ^ 32 ∧ b = bytesLe 4 v ∨ a = 255 ∧ v < 2 ^ 64 ∧ b = bytesLe 8 v

theorem varintTail_reads {a : Nat} (ha : a < 2 ^ 8) :
    Reads Parsed.mk (TailEncodes a) fun ctx => varintTail ⟨a, ctx⟩ := by
  unfold varintTail
  dsimp only
  by_cases h1 : a ≤ 252
  · simp only [if_pos h1]
    refine (Reads.ret a).of_iff fun v b => ⟨fun h => Or.inl ⟨h1, h.1, h.2⟩, ?_⟩
    rintro (⟨-, h⟩ | ⟨h, -⟩ | ⟨h, -⟩ | ⟨h, -⟩)
    · exact h
    all_goals omega
  by_cases h2 : a = 253
  · simp only [if_neg h1, if_pos h2]
    refine readUint16_reads.of_iff fun v b => ⟨fun h => Or.inr (Or.inl ⟨h2, h⟩), ?_⟩
    rintro (⟨h, -⟩ | ⟨-, h⟩ | ⟨h, -⟩ | ⟨h, -⟩)
    · omega
    · exact h
    all_goals omega
  by_cases h3 : a = 254
  · simp only [if_neg h1, if_neg h2, if_pos h3]
    refine readUint32_reads.of_iff fun v b => ⟨fun h => Or.inr (Or.inr (Or.inl ⟨h3, h⟩)), ?_⟩
    rintro (⟨h, -⟩ | ⟨h, -⟩ | ⟨-, h⟩ | ⟨h, -⟩)
    · omega
    · omega
    · exact h
    · omega
  · have h4 : a = 255 := by omega
    simp only [if_neg h1, if_neg h2, if_neg h3]
    refine readUint64_reads.of_iff fun v b => ⟨fun h => Or.inr (Or.inr (Or.inr ⟨h4, h⟩)), ?_⟩
    rintro (⟨h, -⟩ | ⟨h, -⟩ | ⟨h, -⟩ | ⟨-, h⟩)
    · omega
    · omega
    · omega
    · exact h

theorem varintTail_total (a : Nat) : Total fun ctx => varintTail ⟨a, ctx⟩ := by
  unfold varintTail
  dsimp only
  by_cases h1 : a ≤ 252
  · simp only [if_pos h1]
    exact Total.ret _
  by_cases h2 : a = 253
  · simp only [if_neg h1, if_pos h2]
    exact readUintLe_total (by decide)
  by_cases h3 : a = 254
  · simp only [if_neg h1, if_neg h2, if_pos h3]
    exact readUint32_total
  · simp only [if_neg h1, if_neg h2, if_neg h3]
    exact readUint64_total

/-- **`read-varint` reads the lengths of every width.** -/
theorem readVarint_reads : Reads Parsed.mk CompactSize readVarint := by
  have hbind := Reads.bind readUint8_reads fun a _ ha => varintTail_reads ha.1
  refine (hbind.congr fun buff i hb hi r => by rw [readVarint_eq hb hi]).of_iff fun v b => ?_
  constructor
  · rintro ⟨a, _, b₂, ⟨-, rfl⟩, htail, rfl⟩
    rcases htail with ⟨h, rfl, rfl⟩ | ⟨rfl, h, rfl⟩ | ⟨rfl, h, rfl⟩ | ⟨rfl, h, rfl⟩
    · exact .byte h
    · exact .uint16 h
    · exact .uint32 h
    · exact .uint64 h
  · intro h
    cases h with
    | byte h => exact ⟨v, _, _, ⟨by omega, rfl⟩, Or.inl ⟨h, rfl, rfl⟩, rfl⟩
    | uint16 h => exact ⟨253, _, _, ⟨by decide, rfl⟩, Or.inr (Or.inl ⟨rfl, h, rfl⟩), rfl⟩
    | uint32 h =>
        exact ⟨254, _, _, ⟨by decide, rfl⟩, Or.inr (Or.inr (Or.inl ⟨rfl, h, rfl⟩)), rfl⟩
    | uint64 h =>
        exact ⟨255, _, _, ⟨by decide, rfl⟩, Or.inr (Or.inr (Or.inr ⟨rfl, h, rfl⟩)), rfl⟩

theorem readVarint_total : Total readVarint := by
  have hbind := Total.bind readUint8_total readUint8_reads fun a _ _ => varintTail_total a
  exact AbortsOn.congr hbind fun buff i hb hi x => by rw [readVarint_eq hb hi]

/-! ## Byte strings -/

/-- What `read-varslice` reads behind a length. -/
def varsliceTail (parsed : Parsed Nat) : Result (Parsed Bytes) := do
  let targetIndex ← add parsed.ctx.index parsed.value
  let varslice ← .unwrap (slice parsed.ctx.txbuff parsed.ctx.index targetIndex) errOutOfBounds
  pure ⟨varslice, ⟨parsed.ctx.txbuff, targetIndex⟩⟩

theorem varsliceTail_eq {buff : Bytes} {i n : Nat} (hb : buff.length < 2 ^ 64)
    (hi : i ≤ buff.length) (hn : n < 2 ^ 64) :
    varsliceTail ⟨n, ⟨buff, i⟩⟩ = (Result.unwrap (slice buff i (i + n)) errOutOfBounds >>= fun s =>
      .ok ⟨s, ⟨buff, i + n⟩⟩) := by
  unfold varsliceTail
  rw [add_of_lt (by show i + n < 2 ^ 128; omega)]
  rfl

theorem varsliceTail_reads {n : Nat} (hn : n < 2 ^ 64) :
    Reads Parsed.mk (fun s b => s = b ∧ s.length = n) fun ctx => varsliceTail ⟨n, ctx⟩ := by
  intro buff i hb hi r
  show varsliceTail ⟨n, ⟨buff, i⟩⟩ = .ok r ↔ _
  rw [varsliceTail_eq hb hi hn, Result.bind_eq_ok]
  constructor
  · rintro ⟨s, hs, hr⟩
    obtain ⟨hocc, hlen⟩ := slice_eq_some_iff_occurs.mp (Result.unwrap_eq_ok.mp hs)
    refine ⟨s, s, ⟨rfl, hlen⟩, hocc, ?_⟩
    rw [hlen]
    exact (Result.ok.inj hr).symm
  · rintro ⟨s, _, ⟨rfl, rfl⟩, hocc, rfl⟩
    exact ⟨s, Result.unwrap_eq_ok.mpr (slice_eq_some_iff_occurs.mpr ⟨hocc, rfl⟩), rfl⟩

theorem varsliceTail_total {n : Nat} (hn : n < 2 ^ 64) :
    Total fun ctx => varsliceTail ⟨n, ctx⟩ := by
  refine total_iff.mpr fun buff i hb hi x => ?_
  show varsliceTail ⟨n, ⟨buff, i⟩⟩ ≠ .abort x
  rw [varsliceTail_eq hb hi hn]
  cases slice buff i (i + n) <;> nofun

theorem readVarslice_reads : Reads Parsed.mk EncodesVarslice readVarslice := by
  have hbind := Reads.bind (k := varsliceTail) readVarint_reads fun n _ hn => varsliceTail_reads hn.lt
  refine hbind.of_iff fun s b => ⟨?_, ?_⟩
  · rintro ⟨n, p, _, hp, ⟨rfl, rfl⟩, rfl⟩
    exact ⟨p, hp, rfl⟩
  · rintro ⟨p, hp, rfl⟩
    exact ⟨_, p, s, hp, ⟨rfl, rfl⟩, rfl⟩

theorem readVarslice_total : Total readVarslice :=
  Total.bind (k := varsliceTail) readVarint_total readVarint_reads fun _ _ hn =>
    varsliceTail_total hn.lt

theorem readHashslice_cases {i : Nat} {buff : Bytes} (hb : buff.length < 2 ^ 64)
    (hi : i ≤ buff.length) :
    (∃ w, Occurs w buff i ∧ w.length = 32 ∧
        readHashslice ⟨buff, i⟩ = .ok ⟨w.reverse, ⟨buff, 32 + i⟩⟩) ∨
      (∀ w, w.length = 32 → ¬ Occurs w buff i) ∧
        readHashslice ⟨buff, i⟩ = .err errOutOfBounds := by
  have hadd : 32 + i < 2 ^ 128 := by omega
  cases hw : slice buff i (i + 32) with
  | some w =>
      obtain ⟨hocc, hlen⟩ := slice_eq_some_iff_occurs.mp hw
      rw [Nat.add_comm] at hw
      exact Or.inl ⟨w, hocc, hlen, readHashslice_eq hw hadd⟩
  | none =>
      refine Or.inr ⟨fun w hlen hocc => ?_, ?_⟩
      · rw [slice_eq_some_iff_occurs.mpr ⟨hocc, hlen⟩] at hw
        cases hw
      · rw [Nat.add_comm] at hw
        simp only [readHashslice, add_of_lt hadd, hw, Result.ok_bind]
        rfl

theorem readHashslice_reads :
    Reads Parsed.mk (fun h b => h.length = 32 ∧ b = h.reverse) readHashslice := by
  intro buff i hb hi r
  rcases readHashslice_cases hb hi with ⟨w, hocc, hlen, heq⟩ | ⟨hno, heq⟩
  · rw [heq]
    constructor
    · intro h
      refine ⟨w.reverse, w, ⟨by rw [List.length_reverse, hlen], (List.reverse_reverse w).symm⟩,
        hocc, ?_⟩
      rw [← Result.ok.inj h, hlen, Nat.add_comm]
    · rintro ⟨h, _, ⟨hh, rfl⟩, hocc', rfl⟩
      rw [hocc.unique hocc' (by rw [hlen, List.length_reverse, hh]), List.reverse_reverse,
        List.length_reverse, hh, Nat.add_comm]
  · rw [heq]
    constructor
    · nofun
    · rintro ⟨h, _, ⟨hh, rfl⟩, hocc, rfl⟩
      exact absurd hocc (hno _ (by rw [List.length_reverse, hh]))

theorem readHashslice_total : Total readHashslice := by
  refine total_iff.mpr fun buff i hb hi x hx => ?_
  rcases readHashslice_cases hb hi with ⟨w, -, -, heq⟩ | ⟨-, heq⟩
  · rw [heq] at hx
    cases hx
  · rw [heq] at hx
    cases hx

end BitcoinOracle.ClarityBitcoin
