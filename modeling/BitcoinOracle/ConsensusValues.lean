import BitcoinOracle.ConsensusBuff
import Mathlib.Tactic.Ring

/-! # Values and their serializations

`serialize` writes a value as `to-consensus-buff?` and `serializeCV` both do.  A
serialization says where it ends: whatever follows it, it is read in one way
(`Value.serialize_append_inj`), so two values that differ are never written alike.

A function is `SelfDelimiting` where this holds of its results; it does for results of
one length, and for those behind their length.
-/
namespace Clarity

/-! ## Self-delimiting functions -/

section SelfDelimiting
variable {α β : Type*}

/-- On values of `p`, the value and what follows can be read off. -/
def SelfDelimiting (p : α → Prop) (f : α → List β) : Prop :=
  ∀ a b x y, p a → p b → f a ++ x = f b ++ y → a = b ∧ x = y

theorem selfDelimiting_of_length {p : α → Prop} {f : α → List β} (n : Nat)
    (hlength : ∀ a, p a → (f a).length = n) (hinj : ∀ a b, p a → p b → f a = f b → a = b) :
    SelfDelimiting p f := by
  intro a b x y ha hb h
  obtain ⟨hsame, hrest⟩ := List.append_inj h ((hlength a ha).trans (hlength b hb).symm)
  exact ⟨hinj a b ha hb hsame, hrest⟩

/-- Behind a self-delimiting length, anything that can be told apart. -/
theorem SelfDelimiting.lengthPrefixed {q : Nat → Prop} {size : Nat → List β}
    (hsize : SelfDelimiting q size) {p : α → Prop} {f : α → List β}
    (hp : ∀ a, p a → q (f a).length) (hinj : ∀ a b, p a → p b → f a = f b → a = b) :
    SelfDelimiting p fun a => size (f a).length ++ f a := by
  intro a b x y ha hb h
  rw [List.append_assoc, List.append_assoc] at h
  obtain ⟨hlength, hrest⟩ := hsize _ _ _ _ (hp a ha) (hp b hb) h
  obtain ⟨hsame, hrest⟩ := List.append_inj hrest hlength
  exact ⟨hinj a b ha hb hsame, hrest⟩

end SelfDelimiting

/-! ## Integers and strings -/

/-- The number that some bytes are, most significant first. -/
def natBe (b : Bytes) : Nat := b.foldl (fun n x => 256 * n + x.toNat) 0

theorem foldl_bytesBe (n v acc : Nat) :
    (bytesBe n v).foldl (fun n x => 256 * n + x.toNat) acc = acc * 256 ^ n + v % 256 ^ n := by
  induction n generalizing acc with
  | zero => rw [bytesBe, List.foldl_nil, pow_zero, Nat.mod_one, Nat.mul_one, Nat.add_zero]
  | succ n ih =>
      have hdigit : (UInt8.ofNat (v >>> (8 * n))).toNat = v / 256 ^ n % 256 := by
        rw [UInt8.toNat_ofNat', Nat.shiftRight_eq_div_pow, Nat.pow_mul]
      rw [bytesBe, List.foldl_cons, ih, hdigit, Nat.mod_pow_succ, pow_succ]
      ring

theorem natBe_bytesBe (n v : Nat) : natBe (bytesBe n v) = v % 256 ^ n := by
  rw [natBe, foldl_bytesBe, Nat.zero_mul, Nat.zero_add]

theorem selfDelimiting_bytesBe (n : Nat) : SelfDelimiting (· < 256 ^ n) (bytesBe n) := by
  refine selfDelimiting_of_length n (fun v _ => bytesBe_length n v) fun v w hv hw h => ?_
  have hnat := congrArg natBe h
  rwa [natBe_bytesBe, natBe_bytesBe, Nat.mod_eq_of_lt hv, Nat.mod_eq_of_lt hw] at hnat

theorem utf8_inj {s t : List Char} (h : utf8 s = utf8 t) : s = t := by
  have hencode : s.utf8Encode = t.utf8Encode := congrArg List.toByteArray h
  have hstring : String.ofList s = String.ofList t := String.toByteArray_inj.mp hencode
  rw [← String.toList_ofList (l := s), hstring, String.toList_ofList]

/-! ## Values -/

inductive Value where
  | uint (n : Nat)
  | buffer (b : Bytes)
  | stringAscii (s : List Char)
  | stringUtf8 (s : List Char)
  | tuple (entries : List (List Char × Value))

namespace Value

mutual

def serialize : Value → Bytes
  | .uint n => 0x01 :: bytesBe 16 n
  | .buffer b => 0x02 :: (bytesBe 4 b.length ++ b)
  | .stringAscii s => 0x0d :: (bytesBe 4 (utf8 s).length ++ utf8 s)
  | .stringUtf8 s => 0x0e :: (bytesBe 4 (utf8 s).length ++ utf8 s)
  | .tuple entries => 0x0c :: (bytesBe 4 entries.length ++ serializeEntries entries)

def serializeEntries : List (List Char × Value) → Bytes
  | [] => []
  | (name, v) :: entries => serializeEntry name v.serialize ++ serializeEntries entries

end

/-- A name of a tuple: ASCII, and of a length that is one byte. -/
def IsName (name : List Char) : Prop := (utf8 name).length = name.length ∧ name.length < 256

instance (name : List Char) : Decidable (IsName name) := inferInstanceAs (Decidable (_ ∧ _))

mutual

/-- Integers and lengths have room where they are written. -/
def Fits : Value → Prop
  | .uint n => n < 2 ^ 128
  | .buffer b => b.length < 2 ^ 32
  | .stringAscii s => (utf8 s).length < 2 ^ 32
  | .stringUtf8 s => (utf8 s).length < 2 ^ 32
  | .tuple entries => entries.length < 2 ^ 32 ∧ EntriesFit entries

def EntriesFit : List (List Char × Value) → Prop
  | [] => True
  | (name, v) :: entries => IsName name ∧ v.Fits ∧ EntriesFit entries

end

theorem selfDelimiting_length : SelfDelimiting (· < 2 ^ 32) (bytesBe 4) :=
  selfDelimiting_bytesBe 4

theorem selfDelimiting_utf8 :
    SelfDelimiting (fun s => (utf8 s).length < 2 ^ 32)
      fun s => bytesBe 4 (utf8 s).length ++ utf8 s :=
  selfDelimiting_length.lengthPrefixed (fun _ h => h) fun _ _ _ _ => utf8_inj

theorem selfDelimiting_name :
    SelfDelimiting IsName fun name => UInt8.ofNat name.length :: utf8 name := by
  intro s t x y hs ht h
  obtain ⟨hhead, htail⟩ := List.cons.inj h
  have hlength : s.length = t.length := by
    have hnat := congrArg UInt8.toNat hhead
    rwa [UInt8.toNat_ofNat', UInt8.toNat_ofNat', Nat.mod_eq_of_lt hs.2, Nat.mod_eq_of_lt ht.2]
      at hnat
  obtain ⟨hsame, hrest⟩ := List.append_inj htail (by rw [hs.1, ht.1, hlength])
  exact ⟨utf8_inj hsame, hrest⟩

mutual

/-- **A serialization is read in one way**, whatever follows it. -/
theorem serialize_append_inj : ∀ (v w : Value) (x y : Bytes), v.Fits → w.Fits →
    v.serialize ++ x = w.serialize ++ y → v = w ∧ x = y
  | .uint n, w, x, y, hv, hw, h => by
      cases w with
      | uint m =>
          obtain ⟨hsame, hrest⟩ := selfDelimiting_bytesBe 16 n m x y hv hw (List.cons.inj h).2
          exact ⟨congrArg uint hsame, hrest⟩
      | buffer b | stringAscii s | stringUtf8 s | tuple entries =>
          exact absurd (List.cons.inj h).1 (by decide)
  | .buffer b, w, x, y, hv, hw, h => by
      cases w with
      | buffer c =>
          obtain ⟨hsame, hrest⟩ := selfDelimiting_length.lengthPrefixed
            (p := fun b : Bytes => b.length < 2 ^ 32) (f := id) (fun _ h => h)
            (fun _ _ _ _ h => h) b c x y hv hw (List.cons.inj h).2
          exact ⟨congrArg buffer hsame, hrest⟩
      | uint m | stringAscii s | stringUtf8 s | tuple entries =>
          exact absurd (List.cons.inj h).1 (by decide)
  | .stringAscii s, w, x, y, hv, hw, h => by
      cases w with
      | stringAscii t =>
          obtain ⟨hsame, hrest⟩ := selfDelimiting_utf8 s t x y hv hw (List.cons.inj h).2
          exact ⟨congrArg stringAscii hsame, hrest⟩
      | uint m | buffer b | stringUtf8 s | tuple entries =>
          exact absurd (List.cons.inj h).1 (by decide)
  | .stringUtf8 s, w, x, y, hv, hw, h => by
      cases w with
      | stringUtf8 t =>
          obtain ⟨hsame, hrest⟩ := selfDelimiting_utf8 s t x y hv hw (List.cons.inj h).2
          exact ⟨congrArg stringUtf8 hsame, hrest⟩
      | uint m | buffer b | stringAscii s | tuple entries =>
          exact absurd (List.cons.inj h).1 (by decide)
  | .tuple entries, w, x, y, hv, hw, h => by
      cases w with
      | tuple entries' =>
          have htail : (bytesBe 4 entries.length ++ serializeEntries entries) ++ x
              = (bytesBe 4 entries'.length ++ serializeEntries entries') ++ y := (List.cons.inj h).2
          rw [List.append_assoc, List.append_assoc] at htail
          obtain ⟨hlength, htail⟩ := selfDelimiting_length _ _ _ _ hv.1 hw.1 htail
          obtain ⟨hsame, hrest⟩ :=
            serializeEntries_append_inj entries entries' x y hv.2 hw.2 hlength htail
          exact ⟨congrArg tuple hsame, hrest⟩
      | uint m | buffer b | stringAscii s | stringUtf8 s =>
          exact absurd (List.cons.inj h).1 (by decide)

/-- As many entries are read in one way. -/
theorem serializeEntries_append_inj : ∀ (es fs : List (List Char × Value)) (x y : Bytes),
    EntriesFit es → EntriesFit fs → es.length = fs.length →
    serializeEntries es ++ x = serializeEntries fs ++ y → es = fs ∧ x = y
  | [], fs, x, y, _, _, hlength, h => by
      obtain rfl := List.length_eq_zero_iff.mp hlength.symm
      exact ⟨rfl, h⟩
  | (name, v) :: es, fs, x, y, hes, hfs, hlength, h => by
      cases fs with
      | nil => cases hlength
      | cons f fs =>
          obtain ⟨name', w⟩ := f
          obtain ⟨hname, hv, hes⟩ := hes
          obtain ⟨hname', hw, hfs⟩ := hfs
          have hnamed : (UInt8.ofNat name.length :: utf8 name)
                ++ (v.serialize ++ (serializeEntries es ++ x))
              = (UInt8.ofNat name'.length :: utf8 name')
                ++ (w.serialize ++ (serializeEntries fs ++ y)) := by
            simpa only [serializeEntries, serializeEntry, List.cons_append, List.append_assoc]
              using h
          obtain ⟨rfl, hvalue⟩ := selfDelimiting_name name name' _ _ hname hname' hnamed
          obtain ⟨rfl, htail⟩ := serialize_append_inj v w _ _ hv hw hvalue
          obtain ⟨rfl, hrest⟩ :=
            serializeEntries_append_inj es fs x y hes hfs (Nat.succ.inj hlength) htail
          exact ⟨rfl, hrest⟩

end

/-- **Different values are serialized differently.** -/
theorem serialize_inj {v w : Value} (hv : v.Fits) (hw : w.Fits) (h : v.serialize = w.serialize) :
    v = w :=
  (serialize_append_inj v w [] [] hv hw (by rw [h])).1

end Value

end Clarity
