import BitcoinOracle.JsonText

/-! # JSON with integers

`stringifyJSON` writes a `bigint` as a string, its digits and an `n`, and `parseJSON` makes
one of every string that ends with `n`, or throws.  A `Buffer` is written as a string too,
and so is every object that looks like one.

So a value comes back exactly if no string in it ends with `n`, and every object in it is
ordinary (`parseJSON_stringifyJSON_iff`).
-/
namespace BitcoinOracle
open Clarity Indexer JsonText

inductive JsonValue where
  | null
  | bool (b : Bool)
  | number (n : JsNumber)
  | string (s : JsString)
  | bigint (n : Int)
  | array (elements : List JsonValue)
  | object (members : List (JsString × JsonValue))

/-- `ToUint8` of a number, and of the number of a string. -/
structure Conversions where
  number : JsNumber → UInt8
  string : JsString → UInt8

namespace JsonValue

mutual
/-- Every object in it is one. -/
def Proper : JsonValue → Prop
  | .array elements => ProperElements elements
  | .object members => Own members ∧ ProperMembers members
  | _ => True
def ProperElements : List JsonValue → Prop
  | [] => True
  | v :: elements => Proper v ∧ ProperElements elements
def ProperMembers : List (JsString × JsonValue) → Prop
  | [] => True
  | (_, v) :: members => Proper v ∧ ProperMembers members
end

/-! ## Conversions -/

def isNull : JsonValue → Bool
  | .null => true
  | _ => false

mutual
/-- `ToString`, which throws for an object that has its own `toString`: that is no function. -/
def toText : JsonValue → Option JsString
  | .null => some (js "null".toList)
  | .bool true => some (js "true".toList)
  | .bool false => some (js "false".toList)
  | .number n => some (js n.toText)
  | .string s => some s
  | .bigint n => some (js (decimal n))
  | .array elements => joined elements
  | .object members =>
      if js "toString".toList ∈ members.map Prod.fst then none
      else some (js "[object Object]".toList)
/-- `join()`. -/
def joined : List JsonValue → Option JsString
  | [] => some []
  | [v] => if v.isNull = true then some [] else toText v
  | v :: w :: elements =>
      (if v.isNull = true then some [] else toText v).bind fun s =>
        (joined (w :: elements)).map fun t => s ++ unit ',' :: t
end

def member (key : Text) (members : List (JsString × JsonValue)) : Option JsonValue :=
  (members.find? fun m => m.1 = js key).map Prod.snd

/-- `v.type == 'Buffer'`, of the type. -/
def looselyBuffer : JsonValue → Option Bool
  | .string s => some (decide (s = js "Buffer".toList))
  | .array elements => (toText (.array elements)).map fun s => decide (s = js "Buffer".toList)
  | .object members => (toText (.object members)).map fun s => decide (s = js "Buffer".toList)
  | _ => some false

variable (C : Conversions)

/-- What an element of an array is in a buffer; a `bigint` throws. -/
def byte : JsonValue → Option UInt8
  | .null => some 0
  | .bool b => some (if b = true then 1 else 0)
  | .number n => some (C.number n)
  | .string s => some (C.string s)
  | .bigint _ => none
  | v => (toText v).map C.string

/-- `Buffer.from(v.data)`. -/
def bufferFrom (elements : List JsonValue) : Option Bytes := elements.mapM (byte C)

/-! ## The replacer -/

/-- What the replacer returns: a string, or what it got. -/
inductive Replacement where
  | throws
  | text (s : JsString)
  | same
  deriving DecidableEq

def replacer : JsonValue → Replacement
  | .bigint n => .text (js (decimal n) ++ [unit 'n'])
  | .object members =>
      match (member "type".toList members).elim (some false) looselyBuffer with
      | none => .throws
      | some false => .same
      | some true =>
          match member "data".toList members with
          | some (.array elements) =>
              match bufferFrom C elements with
              | some b => .text (js ('0' :: 'x' :: hex b))
              -- the exception is caught
              | none => .same
          | _ => .same
  | _ => .same

def Replacement.serialize (r : Replacement) (same : Option Json) : Option Json :=
  match r with
  | .throws => none
  | .text s => some (.string s)
  | .same => same

mutual
/-- A value of JSON, as the replacer leaves it. -/
def serialize : JsonValue → Option Json
  | .null => (replacer C .null).serialize (some .null)
  | .bool b => (replacer C (.bool b)).serialize (some (.bool b))
  | .number n => (replacer C (.number n)).serialize (some (.number n))
  | .string s => (replacer C (.string s)).serialize (some (.string s))
  -- the replacer leaves none, and one that is left makes `JSON.stringify` throw
  | .bigint n => (replacer C (.bigint n)).serialize none
  | .array elements =>
      (replacer C (.array elements)).serialize ((serializeElements elements).map .array)
  | .object members =>
      (replacer C (.object members)).serialize ((serializeMembers members).map .object)
def serializeElements : List JsonValue → Option (List Json)
  | [] => some []
  | v :: elements => (serialize v).bind fun j => (serializeElements elements).map (j :: ·)
def serializeMembers : List (JsString × JsonValue) → Option (List (JsString × Json))
  | [] => some []
  | (key, v) :: members =>
      (serialize v).bind fun j => (serializeMembers members).map ((key, j) :: ·)
end

def stringifyJSON (v : JsonValue) : Option JsString := (serialize C v).map text

/-! ## The reviver -/

/-- `BigInt` of a string without its last unit, if that is an `n`. -/
def reviveString (s : JsString) : Option JsonValue :=
  if s.getLast? = some (unit 'n') then (bigInt (s.dropLast.map unitChar)).map .bigint
  else some (.string s)

mutual
def revive : Json → Option JsonValue
  | .null => some .null
  | .bool b => some (.bool b)
  | .number n => some (.number n)
  | .string s => reviveString s
  | .array elements => (reviveElements elements).map .array
  | .object members => (reviveMembers members).map .object
def reviveElements : List Json → Option (List JsonValue)
  | [] => some []
  | j :: elements => (revive j).bind fun v => (reviveElements elements).map (v :: ·)
def reviveMembers : List (JsString × Json) → Option (List (JsString × JsonValue))
  | [] => some []
  | (key, j) :: members => (revive j).bind fun v => (reviveMembers members).map ((key, v) :: ·)
end

def parseJSON (s : JsString) : Option JsonValue := (parse s).bind revive

/-! ## What comes back -/

/-- The object is not taken for a buffer, and finding that out does not throw. -/
def Ordinary (members : List (JsString × JsonValue)) : Prop :=
  (∀ type ∈ member "type".toList members, looselyBuffer type = some false) ∨
    ((∃ type ∈ member "type".toList members, looselyBuffer type = some true) ∧
      ∀ elements, member "data".toList members = some (.array elements) →
        bufferFrom C elements = none)

mutual
/-- No string ends with `n`, and every object is ordinary. -/
def Plain : JsonValue → Prop
  | .string s => s.getLast? ≠ some (unit 'n')
  | .array elements => PlainElements elements
  | .object members => Ordinary C members ∧ PlainMembers members
  | _ => True
def PlainElements : List JsonValue → Prop
  | [] => True
  | v :: elements => Plain v ∧ PlainElements elements
def PlainMembers : List (JsString × JsonValue) → Prop
  | [] => True
  | (_, v) :: members => Plain v ∧ PlainMembers members
end

variable {C}

theorem replacer_object_iff {members : List (JsString × JsonValue)} :
    replacer C (.object members) = .same ↔ Ordinary C members := by
  simp only [replacer, Ordinary]
  generalize member "type".toList members = type
  generalize member "data".toList members = data
  cases type with
  | none => simp
  | some type =>
      rw [Option.elim_some]
      match hbuffer : looselyBuffer type with
      | none => simp [hbuffer]
      | some false => simp [hbuffer]
      | some true =>
          match data with
          | none => simp [hbuffer]
          | some (.array elements) =>
              cases hbytes : bufferFrom C elements <;> simp [hbuffer, hbytes]
          | some .null => simp [hbuffer]
          | some (.bool _) => simp [hbuffer]
          | some (.number _) => simp [hbuffer]
          | some (.string _) => simp [hbuffer]
          | some (.bigint _) => simp [hbuffer]
          | some (.object _) => simp [hbuffer]

/-- Digits and an `n` are read as the integer. -/
theorem bigInt_decimal (n : Int) : bigInt (decimal n) = some n := by
  have hdigits : ∀ c ∈ Nat.toDigits 10 n.natAbs, c.isDigit = true :=
    fun _ => Nat.isDigit_of_mem_toDigits (by decide) (by decide)
  unfold decimal
  split
  · next hneg =>
      have htrim : trim ('-' :: Nat.toDigits 10 n.natAbs) = '-' :: Nat.toDigits 10 n.natAbs := by
        refine trim_of_forall fun c hc => ?_
        rcases List.mem_cons.mp hc with rfl | hc
        · decide
        · exact isSpace_of_isDigit (hdigits c hc)
      have hvalue : -(n.natAbs : Int) = n := by omega
      rw [bigInt, htrim]
      simp only [Decimal.digitsIn_toDigits]
      exact congrArg some hvalue
  · next hneg =>
      have hvalue : (n.natAbs : Int) = n := by omega
      rw [bigInt_of_digits Nat.toDigits_ne_nil hdigits, Nat.ofDigitChars_ten_toDigits]
      exact congrArg some hvalue

theorem reviveString_bigint (n : Int) :
    reviveString (js (decimal n) ++ [unit 'n']) = some (.bigint n) := by
  have hnumeric : ∀ c ∈ decimal n, IsNumeric c := by
    have hdigits : ∀ c ∈ Nat.toDigits 10 n.natAbs, IsNumeric c :=
      fun _ hc => Or.inl (Nat.isDigit_of_mem_toDigits (by decide) (by decide) hc)
    unfold decimal
    split
    · exact List.forall_mem_cons.mpr ⟨by decide, hdigits⟩
    · exact hdigits
  rw [reviveString, if_pos List.getLast?_concat, List.dropLast_concat, map_unitChar_js hnumeric,
    bigInt_decimal]
  rfl

theorem reviveString_eq_iff {s : JsString} :
    reviveString s = some (.string s) ↔ s.getLast? ≠ some (unit 'n') := by
  unfold reviveString
  split
  · next h => cases bigInt (s.dropLast.map unitChar) <;> simp [h]
  · next h => simp [h]

/-- No string is read as an object. -/
theorem reviveString_ne_object (s : JsString) (members : List (JsString × JsonValue)) :
    reviveString s ≠ some (.object members) := by
  unfold reviveString
  split
  · cases bigInt (s.dropLast.map unitChar) <;> simp
  · simp

theorem bind_map_array (elements : Option (List Json)) :
    (elements.map Json.array).bind revive = (elements.bind reviveElements).map .array := by
  cases elements with
  | none => rfl
  | some elements => exact revive.eq_5 elements

theorem bind_map_object (members : Option (List (JsString × Json))) :
    (members.map Json.object).bind revive = (members.bind reviveMembers).map .object := by
  cases members with
  | none => rfl
  | some members => exact revive.eq_6 members

theorem map_eq_some_iff_of_injective {α β : Type} {f : α → β} (hf : ∀ a b, f a = f b → a = b)
    {o : Option α} {a : α} : o.map f = some (f a) ↔ o = some a := by
  rw [Option.map_eq_some_iff]
  exact ⟨fun ⟨b, hb, heq⟩ => hf b a heq ▸ hb, fun h => ⟨a, h, rfl⟩⟩

mutual
/-- **A value comes back from its tree exactly if it is plain.** -/
theorem revive_serialize_iff :
    ∀ v : JsonValue, (serialize C v).bind revive = some v ↔ Plain C v
  | .null => by simp [serialize, replacer, Replacement.serialize, revive, Plain]
  | .bool _ => by simp [serialize, replacer, Replacement.serialize, revive, Plain]
  | .number _ => by simp [serialize, replacer, Replacement.serialize, revive, Plain]
  | .string s => by
      have hstring : (serialize C (.string s)).bind revive = reviveString s := revive.eq_4 s
      rw [hstring, Plain, reviveString_eq_iff]
  | .bigint n => iff_of_true ((revive.eq_4 _).trans (reviveString_bigint n)) trivial
  | .array elements => by
      have hiff := reviveElements_serialize_iff elements
      rw [serialize, Plain, ← hiff]
      exact (Iff.of_eq (congrArg (· = some (.array elements)) (bind_map_array _))).trans
        (map_eq_some_iff_of_injective fun _ _ => JsonValue.array.inj)
  | .object members => by
      have hiff := reviveMembers_serialize_iff members
      rw [serialize, Plain, ← hiff, ← replacer_object_iff]
      cases replacer C (.object members) with
      | throws => simp [Replacement.serialize]
      | text s =>
          -- a string comes back as a string or an integer
          have hstring : (Replacement.serialize (.text s)
              ((serializeMembers C members).map .object)).bind revive = reviveString s :=
            revive.eq_4 s
          simp [hstring, reviveString_ne_object]
      | same =>
          rw [Replacement.serialize, bind_map_object, and_iff_right rfl]
          exact map_eq_some_iff_of_injective fun _ _ => JsonValue.object.inj
theorem reviveElements_serialize_iff : ∀ elements : List JsonValue,
    (serializeElements C elements).bind reviveElements = some elements ↔ PlainElements C elements
  | [] => by simp [serializeElements, reviveElements, PlainElements]
  | v :: elements => by
      have hfirst := revive_serialize_iff v
      have hothers := reviveElements_serialize_iff elements
      rw [PlainElements, ← hfirst, ← hothers, serializeElements]
      cases serialize C v with
      | none => simp
      | some j =>
          cases serializeElements C elements with
          | none => simp
          | some js =>
              simp only [Option.bind_some, Option.map_some, reviveElements]
              cases revive j <;> cases reviveElements js <;> simp
theorem reviveMembers_serialize_iff : ∀ members : List (JsString × JsonValue),
    (serializeMembers C members).bind reviveMembers = some members ↔ PlainMembers C members
  | [] => by simp [serializeMembers, reviveMembers, PlainMembers]
  | (key, v) :: members => by
      have hfirst := revive_serialize_iff v
      have hothers := reviveMembers_serialize_iff members
      rw [PlainMembers, ← hfirst, ← hothers, serializeMembers]
      cases serialize C v with
      | none => simp
      | some j =>
          cases serializeMembers C members with
          | none => simp
          | some ms =>
              simp only [Option.bind_some, Option.map_some, reviveMembers]
              cases revive j <;> cases reviveMembers ms <;> simp
end

/-! ## The text between -/

theorem own_iff {α : Type} {members : List (JsString × α)} : Own members ↔
    (members.map Prod.fst).Nodup ∧ (members.map Prod.fst).Pairwise fun a b => keyLe a b = true := by
  rw [Own, List.pairwise_map]

mutual
/-- What is written is made of objects again. -/
theorem proper_serialize : ∀ (v : JsonValue) (j : Json), Proper v → serialize C v = some j →
    JsonText.Proper j
  | .null, _, _, h => by
      obtain rfl := Option.some.inj h
      trivial
  | .bool _, _, _, h => by
      obtain rfl := Option.some.inj h
      trivial
  | .number _, _, _, h => by
      obtain rfl := Option.some.inj h
      trivial
  | .string _, _, _, h => by
      obtain rfl := Option.some.inj h
      trivial
  | .bigint _, _, _, h => by
      obtain rfl := Option.some.inj h
      trivial
  | .array elements, j, hproper, h => by
      rw [serialize] at h
      obtain ⟨js, hjs, rfl⟩ := Option.map_eq_some_iff.mp
        (show (serializeElements C elements).map .array = some j from h)
      exact proper_serializeElements elements js hproper hjs
  | .object members, j, hproper, h => by
      rw [serialize] at h
      cases hreplacer : replacer C (.object members) with
      | throws =>
          rw [hreplacer] at h
          cases h
      | text s =>
          rw [hreplacer] at h
          obtain rfl := Option.some.inj h
          trivial
      | same =>
          rw [hreplacer] at h
          obtain ⟨ms, hms, rfl⟩ := Option.map_eq_some_iff.mp
            (show (serializeMembers C members).map .object = some j from h)
          -- the keys stay, and their order with them
          rw [Proper] at hproper
          obtain ⟨hkeys, hmembers⟩ := proper_serializeMembers members ms hproper.2 hms
          rw [JsonText.Proper, own_iff, hkeys]
          exact ⟨own_iff.mp hproper.1, hmembers⟩
theorem proper_serializeElements : ∀ (elements : List JsonValue) (js : List Json),
    ProperElements elements → serializeElements C elements = some js → JsonText.ProperElements js
  | [], _, _, h => by
      obtain rfl := Option.some.inj h
      trivial
  | v :: elements, js, hproper, h => by
      rw [serializeElements, Option.bind_eq_some_iff] at h
      obtain ⟨j, hj, hrest⟩ := h
      obtain ⟨rest, hjs, rfl⟩ := Option.map_eq_some_iff.mp hrest
      rw [ProperElements] at hproper
      exact ⟨proper_serialize v j hproper.1 hj,
        proper_serializeElements elements rest hproper.2 hjs⟩
theorem proper_serializeMembers : ∀ (members : List (JsString × JsonValue))
    (ms : List (JsString × Json)), ProperMembers members → serializeMembers C members = some ms →
      ms.map Prod.fst = members.map Prod.fst ∧ JsonText.ProperMembers ms
  | [], _, _, h => by
      obtain rfl := Option.some.inj h
      exact ⟨rfl, trivial⟩
  | (key, v) :: members, ms, hproper, h => by
      rw [serializeMembers, Option.bind_eq_some_iff] at h
      obtain ⟨j, hj, hrest⟩ := h
      obtain ⟨rest, hms, rfl⟩ := Option.map_eq_some_iff.mp hrest
      rw [ProperMembers] at hproper
      obtain ⟨hkeys, hmembers⟩ := proper_serializeMembers members rest hproper.2 hms
      exact ⟨by rw [List.map_cons, List.map_cons, hkeys], proper_serialize v j hproper.1 hj,
        hmembers⟩
end

end JsonValue

/-- A value whose objects have every key once, in their order. -/
def JsValue : Type := {v : JsonValue // v.Proper}

namespace JsonValue
variable {C : Conversions}

theorem parseJSON_stringifyJSON (v : JsValue) :
    (stringifyJSON C v.val).bind parseJSON = (serialize C v.val).bind revive := by
  rw [stringifyJSON]
  cases hv : serialize C v.val with
  | none => rfl
  | some j =>
      rw [Option.map_some, Option.bind_some, Option.bind_some, parseJSON,
        parse_text (proper_serialize v.val j v.property hv), Option.bind_some]

/-- **`parseJSON` undoes `stringifyJSON`** exactly for the values in which no string ends with
`n` and no object is taken for a buffer, or makes the comparison with one throw. -/
theorem parseJSON_stringifyJSON_iff (C : Conversions) (v : JsValue) :
    (stringifyJSON C v.val).bind parseJSON = some v.val ↔ v.val.Plain C := by
  rw [parseJSON_stringifyJSON, revive_serialize_iff]

/-! ## Strings that end with `n` -/

/-- Whole numbers below 256, and digits in a string. -/
def sampleConversions : Conversions where
  number := fun n => UInt8.ofNat (n.magnitude.mantissa * 10 ^ n.magnitude.exponent.toNat)
  string := fun s => UInt8.ofNat (((bigInt (s.map unitChar)).getD 0).toNat)

/-- `{ type: 'Buffer', data: [2] }` -/
def bufferMembers : List (JsString × JsonValue) :=
  [(js "type".toList, .string (js "Buffer".toList)),
    (js "data".toList, .array [.number (.ofSign false (.normalize 2 0))])]

theorem proper_bufferMembers : Proper (.object bufferMembers) :=
  have hkeys : (bufferMembers.map Prod.fst).Nodup ∧
      (bufferMembers.map Prod.fst).Pairwise fun a b => keyLe a b = true := by decide +kernel
  ⟨own_iff.mpr hkeys, trivial, ⟨trivial, trivial⟩, trivial⟩

def bitcoin : JsValue := ⟨.string (js "Bitcoin".toList), trivial⟩

def twelve : JsValue := ⟨.string (js "12n".toList), trivial⟩

def bufferObject : JsValue := ⟨.object bufferMembers, proper_bufferMembers⟩

/-- A word throws, digits become an integer, and an object a string. -/
theorem not_parseJSON_stringifyJSON :
    (stringifyJSON sampleConversions bitcoin.val).bind parseJSON = none ∧
    (stringifyJSON sampleConversions twelve.val).bind parseJSON = some (.bigint 12) ∧
    (stringifyJSON sampleConversions bufferObject.val).bind parseJSON =
      some (.string (js "0x02".toList)) := by
  have hword : reviveString (js "Bitcoin".toList) = none := by
    have hthrows : bigInt ((js "Bitcoin".toList).dropLast.map unitChar) = none := by decide +kernel
    rw [reviveString, if_pos (by decide +kernel), hthrows]
    rfl
  have hdigits : reviveString (js "12n".toList) = some (.bigint 12) := by
    have hread : bigInt ((js "12n".toList).dropLast.map unitChar) = some 12 := by decide +kernel
    rw [reviveString, if_pos (by decide +kernel), hread]
    rfl
  have hbuffer : replacer sampleConversions (.object bufferMembers) =
      .text (js "0x02".toList) := by decide +kernel
  refine ⟨?_, ?_, ?_⟩
  · rw [parseJSON_stringifyJSON]
    exact hword
  · rw [parseJSON_stringifyJSON]
    exact hdigits
  · have hserialize : serialize sampleConversions bufferObject.val =
        some (.string (js "0x02".toList)) := by
      rw [bufferObject, serialize, hbuffer]
      rfl
    rw [parseJSON_stringifyJSON, hserialize, Option.bind_some, revive]
    exact if_neg (by decide +kernel)

end JsonValue
end BitcoinOracle
