import BitcoinOracle.BitcoinReader
import BitcoinOracle.Encoding
import Mathlib.Tactic.MkIffOfInductiveProp

/-! # The format of Bitcoin transactions

A transaction is written field by field, integers little-endian, every list and every
byte string after its length.  A length is a `CompactSize`: one byte, or a marker byte
and two, four or eight more.  `serialize` is the canonical form, which takes the
shortest of the four each time; `Encodes` allows any that is wide enough.

The records are those the contract answers with.  They show the hash of an outpoint
byte-reversed, so it is reversed back where it is written.  `Fits` says that every
field is within its width and every list and script within the limits of the contract.
-/
namespace BitcoinOracle.ClarityBitcoin
open Clarity Encoding

/-! ## Integers -/

/-- The `n` low bytes of a number, least significant byte first. -/
def bytesLe : Nat → Nat → Bytes
  | 0, _ => []
  | n + 1, v => UInt8.ofNat v :: bytesLe n (v / 256)

@[simp] theorem bytesLe_length (n v : Nat) : (bytesLe n v).length = n := by
  induction n generalizing v with
  | zero => rfl
  | succ n ih => rw [bytesLe, List.length_cons, ih]

theorem buffToUintLe_lt (bs : Bytes) : buffToUintLe bs < 256 ^ bs.length := by
  induction bs with
  | nil => exact Nat.one_pos
  | cons b bs ih =>
      have hb := b.toNat_lt
      rw [buffToUintLe, List.length_cons, Nat.pow_succ]
      omega

theorem buffToUintLe_bytesLe {n v : Nat} (h : v < 256 ^ n) : buffToUintLe (bytesLe n v) = v := by
  induction n generalizing v with
  | zero =>
      rw [Nat.pow_zero] at h
      rw [bytesLe, buffToUintLe]
      omega
  | succ n ih =>
      have hdiv : v / 256 < 256 ^ n := by
        rw [Nat.pow_succ] at h
        exact Nat.div_lt_of_lt_mul (by rwa [Nat.mul_comm])
      rw [bytesLe, buffToUintLe, ih hdiv, UInt8.toNat_ofNat']
      omega

theorem bytesLe_buffToUintLe (bs : Bytes) : bytesLe bs.length (buffToUintLe bs) = bs := by
  induction bs with
  | nil => rfl
  | cons b bs ih =>
      have hb := b.toNat_lt
      have hdiv : (b.toNat + 256 * buffToUintLe bs) / 256 = buffToUintLe bs := by omega
      have hmod : UInt8.ofNat (b.toNat + 256 * buffToUintLe bs) = b := by
        apply UInt8.toNat_inj.mp
        rw [UInt8.toNat_ofNat']
        omega
      rw [buffToUintLe, List.length_cons, bytesLe, hmod, hdiv, ih]

/-! ## Lengths -/

/-- The strings that stand for a length. -/
inductive CompactSize : Nat → Bytes → Prop
  | byte {n : Nat} (h : n ≤ 252) : CompactSize n [UInt8.ofNat n]
  | uint16 {n : Nat} (h : n < 2 ^ 16) : CompactSize n (253 :: bytesLe 2 n)
  | uint32 {n : Nat} (h : n < 2 ^ 32) : CompactSize n (254 :: bytesLe 4 n)
  | uint64 {n : Nat} (h : n < 2 ^ 64) : CompactSize n (255 :: bytesLe 8 n)

/-- The shortest string that stands for a length. -/
def compactSize (n : Nat) : Bytes :=
  if n ≤ 252 then [UInt8.ofNat n]
  else if n < 2 ^ 16 then 253 :: bytesLe 2 n
  else if n < 2 ^ 32 then 254 :: bytesLe 4 n
  else 255 :: bytesLe 8 n

theorem CompactSize.lt {n : Nat} {b : Bytes} (h : CompactSize n b) : n < 2 ^ 64 := by
  cases h with
  | byte h => omega
  | uint16 h => omega
  | uint32 h => omega
  | uint64 h => exact h

theorem compactSize_encodes {n : Nat} (h : n < 2 ^ 64) : CompactSize n (compactSize n) := by
  unfold compactSize
  split
  · next h1 => exact .byte h1
  split
  · next h2 => exact .uint16 h2
  split
  · next h3 => exact .uint32 h3
  · exact .uint64 h

theorem compactSize_shortest : Shortest CompactSize compactSize := by
  intro n b h
  have hlen : ∀ {n v : Nat} (m : UInt8), (m :: bytesLe n v).length = n + 1 := fun m => by
    rw [List.length_cons, bytesLe_length]
  unfold compactSize
  cases h with
  | byte h =>
      rw [if_pos h]
      exact shortest_refl _
  | uint16 h =>
      by_cases h1 : n ≤ 252
      · rw [if_pos h1, hlen, List.length_singleton]
        omega
      · rw [if_neg h1, if_pos h]
        exact shortest_refl _
  | uint32 h =>
      by_cases h1 : n ≤ 252
      · rw [if_pos h1, hlen, List.length_singleton]
        omega
      by_cases h2 : n < 2 ^ 16
      · rw [if_neg h1, if_pos h2, hlen, hlen]
        omega
      · rw [if_neg h1, if_neg h2, if_pos h]
        exact shortest_refl _
  | uint64 h =>
      by_cases h1 : n ≤ 252
      · rw [if_pos h1, hlen, List.length_singleton]
        omega
      by_cases h2 : n < 2 ^ 16
      · rw [if_neg h1, if_pos h2, hlen, hlen]
        omega
      by_cases h3 : n < 2 ^ 32
      · rw [if_neg h1, if_neg h2, if_pos h3, hlen, hlen]
        omega
      · rw [if_neg h1, if_neg h2, if_neg h3]
        exact shortest_refl _

/-! ## Strings and lists -/

/-- A byte string after its length. -/
def EncodesVarslice (s b : Bytes) : Prop := ∃ p, CompactSize s.length p ∧ b = p ++ s

def serializeVarslice (s : Bytes) : Bytes := compactSize s.length ++ s

/-- The elements of a list after their number. -/
def EncodesList {α : Type} (E : α → Bytes → Prop) (xs : List α) (b : Bytes) : Prop :=
  ∃ p body, CompactSize xs.length p ∧ Seq E xs body ∧ b = p ++ body

def serializeList {α : Type} (f : α → Bytes) (xs : List α) : Bytes :=
  compactSize xs.length ++ xs.flatMap f

theorem serializeVarslice_encodes {s : Bytes} (h : s.length < 2 ^ 64) :
    EncodesVarslice s (serializeVarslice s) :=
  ⟨_, compactSize_encodes h, rfl⟩

theorem serializeVarslice_shortest : Shortest EncodesVarslice serializeVarslice := by
  rintro s b ⟨p, hp, rfl⟩
  exact append_shortest (compactSize_shortest _ p hp) (shortest_refl s)

section List
variable {α : Type} {E : α → Bytes → Prop} {f : α → Bytes}

theorem serializeList_encodes {xs : List α} (h : xs.length < 2 ^ 64) (hf : ∀ x ∈ xs, E x (f x)) :
    EncodesList E xs (serializeList f xs) :=
  ⟨_, _, compactSize_encodes h, seq_flatMap hf, rfl⟩

theorem serializeList_shortest (h : Shortest E f) :
    Shortest (EncodesList E) (serializeList f) := by
  rintro xs b ⟨p, body, hp, hbody, rfl⟩
  exact append_shortest (compactSize_shortest _ p hp) (h.seq xs body hbody)

theorem EncodesList.forall_mem {p : α → Prop} (h : ∀ x b, E x b → p x) {xs : List α} {b : Bytes}
    (hs : EncodesList E xs b) : ∀ x ∈ xs, p x := by
  obtain ⟨_, body, -, hbody, -⟩ := hs
  exact hbody.forall_mem h

end List

/-! ## Inputs, outputs and witnesses -/

@[mk_iff]
structure TxIn.Fits (i : TxIn) : Prop where
  hash : i.outpointHash.length = 32
  index : i.outpointIndex < 2 ^ 32
  script : i.scriptSig.length ≤ 256
  sequence : i.sequence < 2 ^ 32

@[mk_iff]
structure TxOut.Fits (o : TxOut) : Prop where
  value : o.value < 2 ^ 64
  script : o.scriptPubKey.length ≤ 128

/-- At most 62 items of at most 256 bytes. -/
def WitnessFits (w : List Bytes) : Prop := w.length ≤ 62 ∧ ∀ item ∈ w, item.length ≤ 256

instance TxIn.decidableFits (i : TxIn) : Decidable i.Fits :=
  decidable_of_iff _ (TxIn.fits_iff i).symm

instance TxOut.decidableFits (o : TxOut) : Decidable o.Fits :=
  decidable_of_iff _ (TxOut.fits_iff o).symm

instance WitnessFits.decidable (w : List Bytes) : Decidable (WitnessFits w) :=
  inferInstanceAs (Decidable (_ ∧ _))

def TxIn.serialize (i : TxIn) : Bytes :=
  i.outpointHash.reverse ++ (bytesLe 4 i.outpointIndex ++
    (serializeVarslice i.scriptSig ++ bytesLe 4 i.sequence))

def TxOut.serialize (o : TxOut) : Bytes := bytesLe 8 o.value ++ serializeVarslice o.scriptPubKey

def serializeWitness (w : List Bytes) : Bytes := serializeList serializeVarslice w

def TxIn.Encodes (i : TxIn) (b : Bytes) : Prop :=
  i.Fits ∧ ∃ script, EncodesVarslice i.scriptSig script ∧
    b = i.outpointHash.reverse ++ (bytesLe 4 i.outpointIndex ++ (script ++ bytesLe 4 i.sequence))

def TxOut.Encodes (o : TxOut) (b : Bytes) : Prop :=
  o.Fits ∧ ∃ script, EncodesVarslice o.scriptPubKey script ∧ b = bytesLe 8 o.value ++ script

/-- An item of a witness. -/
def EncodesItem (item b : Bytes) : Prop := item.length ≤ 256 ∧ EncodesVarslice item b

def EncodesWitness (w : List Bytes) (b : Bytes) : Prop :=
  w.length ≤ 62 ∧ EncodesList EncodesItem w b

theorem TxIn.Fits.encodes {i : TxIn} (h : i.Fits) : i.Encodes i.serialize :=
  ⟨h, _, serializeVarslice_encodes (by have := h.script; omega), rfl⟩

theorem TxOut.Fits.encodes {o : TxOut} (h : o.Fits) : o.Encodes o.serialize :=
  ⟨h, _, serializeVarslice_encodes (by have := h.script; omega), rfl⟩

theorem WitnessFits.encodes {w : List Bytes} (h : WitnessFits w) :
    EncodesWitness w (serializeWitness w) :=
  ⟨h.1, serializeList_encodes (by have := h.1; omega) fun item hitem =>
    ⟨h.2 item hitem, serializeVarslice_encodes (by have := h.2 item hitem; omega)⟩⟩

theorem txIn_shortest : Shortest TxIn.Encodes TxIn.serialize := by
  rintro i b ⟨-, script, hscript, rfl⟩
  exact append_shortest (shortest_refl _) (append_shortest (shortest_refl _)
    (append_shortest (serializeVarslice_shortest _ _ hscript) (shortest_refl _)))

theorem txOut_shortest : Shortest TxOut.Encodes TxOut.serialize := by
  rintro o b ⟨-, script, hscript, rfl⟩
  exact append_shortest (shortest_refl _) (serializeVarslice_shortest _ _ hscript)

theorem witness_shortest : Shortest EncodesWitness serializeWitness := by
  rintro w b ⟨-, hlist⟩
  exact serializeList_shortest (fun item b hitem => serializeVarslice_shortest item b hitem.2)
    w b hlist

/-! ## Transactions -/

@[mk_iff]
structure LegacyTx.Fits (t : LegacyTx) : Prop where
  version : t.version < 2 ^ 32
  ins_length : t.ins.length ≤ 62
  ins : ∀ i ∈ t.ins, i.Fits
  outs_length : t.outs.length ≤ 62
  outs : ∀ o ∈ t.outs, o.Fits
  locktime : t.locktime < 2 ^ 32

/-- Marker and flag have their values, and there is one witness for each input. -/
@[mk_iff]
structure WitnessTx.Fits (t : WitnessTx) : Prop where
  version : t.version < 2 ^ 32
  segwitMarker : t.segwitMarker = 0
  segwitVersion : t.segwitVersion = 1
  ins_length : t.ins.length ≤ 62
  ins : ∀ i ∈ t.ins, i.Fits
  outs_length : t.outs.length ≤ 62
  outs : ∀ o ∈ t.outs, o.Fits
  witnesses_length : t.witnesses.length = t.ins.length
  witnesses : ∀ w ∈ t.witnesses, WitnessFits w
  locktime : t.locktime < 2 ^ 32

instance LegacyTx.decidableFits (t : LegacyTx) : Decidable t.Fits :=
  decidable_of_iff _ (LegacyTx.fits_iff t).symm

instance WitnessTx.decidableFits (t : WitnessTx) : Decidable t.Fits :=
  decidable_of_iff _ (WitnessTx.fits_iff t).symm

/-- The legacy serialization. -/
def LegacyTx.serialize (t : LegacyTx) : Bytes :=
  bytesLe 4 t.version ++ (serializeList TxIn.serialize t.ins ++
    (serializeList TxOut.serialize t.outs ++ bytesLe 4 t.locktime))

/-- The serialization of BIP-144, with marker, flag and witnesses. -/
def WitnessTx.serialize (t : WitnessTx) : Bytes :=
  bytesLe 4 t.version ++ (bytesLe 1 t.segwitMarker ++ (bytesLe 1 t.segwitVersion ++
    (serializeList TxIn.serialize t.ins ++ (serializeList TxOut.serialize t.outs ++
      (t.witnesses.flatMap serializeWitness ++ bytesLe 4 t.locktime)))))

/-- A legacy serialization with lengths of any width. -/
def LegacyTx.Encodes (t : LegacyTx) (b : Bytes) : Prop :=
  t.Fits ∧ ∃ ins outs, EncodesList TxIn.Encodes t.ins ins ∧ EncodesList TxOut.Encodes t.outs outs ∧
    b = bytesLe 4 t.version ++ (ins ++ (outs ++ bytesLe 4 t.locktime))

/-- A serialization with witnesses, with lengths of any width. -/
def WitnessTx.Encodes (t : WitnessTx) (b : Bytes) : Prop :=
  t.Fits ∧ ∃ ins outs witnesses, EncodesList TxIn.Encodes t.ins ins ∧
    EncodesList TxOut.Encodes t.outs outs ∧ Seq EncodesWitness t.witnesses witnesses ∧
    b = bytesLe 4 t.version ++ (bytesLe 1 t.segwitMarker ++ (bytesLe 1 t.segwitVersion ++
      (ins ++ (outs ++ (witnesses ++ bytesLe 4 t.locktime)))))

theorem encodes_ins {ins : List TxIn} (hlen : ins.length ≤ 62) (h : ∀ i ∈ ins, i.Fits) :
    EncodesList TxIn.Encodes ins (serializeList TxIn.serialize ins) :=
  serializeList_encodes (by omega) fun i hi => (h i hi).encodes

theorem encodes_outs {outs : List TxOut} (hlen : outs.length ≤ 62) (h : ∀ o ∈ outs, o.Fits) :
    EncodesList TxOut.Encodes outs (serializeList TxOut.serialize outs) :=
  serializeList_encodes (by omega) fun o ho => (h o ho).encodes

theorem LegacyTx.Fits.encodes {t : LegacyTx} (h : t.Fits) : t.Encodes t.serialize :=
  ⟨h, _, _, encodes_ins h.ins_length h.ins, encodes_outs h.outs_length h.outs, rfl⟩

theorem WitnessTx.Fits.encodes {t : WitnessTx} (h : t.Fits) : t.Encodes t.serialize :=
  ⟨h, _, _, _, encodes_ins h.ins_length h.ins, encodes_outs h.outs_length h.outs,
    seq_flatMap fun w hw => (h.witnesses w hw).encodes, rfl⟩

theorem legacyTx_shortest : Shortest LegacyTx.Encodes LegacyTx.serialize := by
  rintro t b ⟨-, ins, outs, hins, houts, rfl⟩
  exact append_shortest (shortest_refl _)
    (append_shortest (serializeList_shortest txIn_shortest _ _ hins)
      (append_shortest (serializeList_shortest txOut_shortest _ _ houts) (shortest_refl _)))

theorem witnessTx_shortest : Shortest WitnessTx.Encodes WitnessTx.serialize := by
  rintro t b ⟨-, ins, outs, witnesses, hins, houts, hwitnesses, rfl⟩
  refine append_shortest (shortest_refl _) (append_shortest (shortest_refl _)
    (append_shortest (shortest_refl _) ?_))
  exact append_shortest (serializeList_shortest txIn_shortest _ _ hins)
    (append_shortest (serializeList_shortest txOut_shortest _ _ houts)
      (append_shortest (witness_shortest.seq _ _ hwitnesses) (shortest_refl _)))

end BitcoinOracle.ClarityBitcoin
