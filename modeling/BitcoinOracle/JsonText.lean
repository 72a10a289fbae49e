import BitcoinOracle.NumberTexts

/-! # JSON

`JSON.stringify` without a space, and `JSON.parse`, on strings of UTF-16 units.  An object
has its members in the order of its keys: those that are an index of an array come first.
What is written is read as it was (`parse_text`), for every string, whatever units are in
it, and every nesting.
-/
namespace BitcoinOracle
open Clarity Indexer

inductive Json where
  | null
  | bool (b : Bool)
  | number (n : JsNumber)
  | string (s : JsString)
  | array (elements : List Json)
  | object (members : List (JsString × Json))

namespace JsonText

/-! ## Keys -/

/-- The index of an array that the key is, if it is one. -/
def arrayIndex (key : JsString) : Option Nat :=
  (digitsIn 10 (key.map unitChar)).filter fun n => n < 2 ^ 32 - 1 ∧ js (Nat.toDigits 10 n) = key

/-- Indices in their order, and then everything else. -/
def keyLe (a b : JsString) : Bool :=
  match arrayIndex a, arrayIndex b with
  | some i, some j => i ≤ j
  | some _, none => true
  | none, some _ => false
  | none, none => true

section Members
variable {α : Type}

/-- `CreateDataProperty`. -/
def setMember (members : List (JsString × α)) (m : JsString × α) : List (JsString × α) :=
  if m.1 ∈ members.map Prod.fst then members.map fun m' => if m'.1 = m.1 then m else m'
  else members ++ [m]

/-- The object of some members, one set after the other. -/
def ofMembers (members : List (JsString × α)) : List (JsString × α) :=
  (members.foldl setMember []).mergeSort fun m m' => keyLe m.1 m'.1

/-- The members of an object. -/
def Own (members : List (JsString × α)) : Prop :=
  (members.map Prod.fst).Nodup ∧ members.Pairwise fun m m' => keyLe m.1 m'.1 = true

instance (members : List (JsString × α)) : Decidable (Own members) :=
  inferInstanceAs (Decidable (_ ∧ _))

theorem foldl_setMember {members earlier : List (JsString × α)}
    (h : ((earlier ++ members).map Prod.fst).Nodup) :
    members.foldl setMember earlier = earlier ++ members := by
  induction members generalizing earlier with
  | nil => simp
  | cons m members ih =>
      have hnew : m.1 ∉ earlier.map Prod.fst := by
        rw [List.map_append, List.map_cons, List.nodup_append] at h
        exact fun hmem => h.2.2 _ hmem _ List.mem_cons_self rfl
      have hset : setMember earlier m = earlier ++ [m] := if_neg hnew
      rw [List.foldl_cons, hset, ih (by simpa using h), List.append_assoc]
      rfl

/-- The members of an object are set to themselves. -/
theorem ofMembers_of_own {members : List (JsString × α)} (h : Own members) :
    ofMembers members = members := by
  rw [ofMembers, foldl_setMember (by simpa using h.1), List.nil_append]
  exact List.mergeSort_of_pairwise h.2

end Members

/-! ## Writing -/

def IsLeading (u : UInt16) : Prop := 0xd800 ≤ u ∧ u ≤ 0xdbff

def IsTrailing (u : UInt16) : Prop := 0xdc00 ≤ u ∧ u ≤ 0xdfff

instance : DecidablePred IsLeading := fun _ => inferInstanceAs (Decidable (_ ∧ _))

instance : DecidablePred IsTrailing := fun _ => inferInstanceAs (Decidable (_ ∧ _))

/-- Units that have an escape of one letter. -/
def shortEscapes : List (UInt16 × UInt16) :=
  [(0x08, unit 'b'), (0x09, unit 't'), (0x0a, unit 'n'), (0x0c, unit 'f'), (0x0d, unit 'r'),
    (0x22, 0x22), (0x5c, 0x5c)]

/-- `\u` and four digits. -/
def longEscape (u : UInt16) : JsString :=
  [0x5c, unit 'u', unit (hexDigit (u.toNat / 4096)), unit (hexDigit (u.toNat / 256 % 16)),
    unit (hexDigit (u.toNat / 16 % 16)), unit (hexDigit (u.toNat % 16))]

def escape (u : UInt16) : JsString :=
  match shortEscapes.lookup u with
  | some c => [0x5c, c]
  | none => if u < 0x20 ∨ IsLeading u ∨ IsTrailing u then longEscape u else [u]

/-- Pairs of surrogates stay, single ones are escaped. -/
def escaped : JsString → JsString
  | [] => []
  | [u] => escape u
  | u :: v :: s =>
      if IsLeading u ∧ IsTrailing v then u :: v :: escaped s else escape u ++ escaped (v :: s)

/-- `QuoteJSONString`. -/
def quote (s : JsString) : JsString := 0x22 :: (escaped s ++ [0x22])

mutual
/-- `JSON.stringify`. -/
def text : Json → JsString
  | .null => js "null".toList
  | .bool true => js "true".toList
  | .bool false => js "false".toList
  | .number n => js n.toText
  | .string s => quote s
  | .array [] => [unit '[', unit ']']
  | .array (j :: elements) => unit '[' :: (text j ++ elementsText elements)
  | .object [] => [unit '\x7b', unit '\x7d']
  | .object ((key, j) :: members) =>
      unit '\x7b' :: (quote key ++ unit ':' :: (text j ++ membersText members))
/-- The elements behind the first one. -/
def elementsText : List Json → JsString
  | [] => [unit ']']
  | j :: elements => unit ',' :: (text j ++ elementsText elements)
/-- The members behind the first one. -/
def membersText : List (JsString × Json) → JsString
  | [] => [unit '\x7d']
  | (key, j) :: members => unit ',' :: (quote key ++ unit ':' :: (text j ++ membersText members))
end

/-! ## Reading -/

def IsWhite (u : UInt16) : Prop := u ∈ [0x09, 0x0a, 0x0d, 0x20]

instance : DecidablePred IsWhite := fun _ => inferInstanceAs (Decidable (_ ∈ _))

def skip (s : JsString) : JsString := s.dropWhile fun u => IsWhite u

/-- What an escape of one letter stands for. -/
def unescape (c : UInt16) : Option UInt16 :=
  if c = unit '/' then some c
  else (shortEscapes.find? fun e => e.2 = c).map Prod.fst

def prepend (u : UInt16) (p : JsString × JsString) : JsString × JsString := (u :: p.1, p.2)

/-- A string behind its first quote, and what is behind its last one. -/
def readString : JsString → Option (JsString × JsString)
  | [] => none
  | u :: s =>
      if u = 0x22 then some ([], s)
      else if u = 0x5c then
        match s with
        | [] => none
        | c :: s =>
            if c = unit 'u' then
              match s with
              | a :: b :: c :: d :: s =>
                  (digitsIn 16 ([a, b, c, d].map unitChar)).bind fun n =>
                    (readString s).map (prepend (UInt16.ofNat n))
              | _ => none
            else (unescape c).bind fun u => (readString s).map (prepend u)
      else if u < 0x20 then none
      else (readString s).map (prepend u)

def readNumber (s : JsString) : Option (Json × JsString) :=
  (jsonNumber ((s.takeWhile fun u => IsNumeric (unitChar u)).map unitChar)).map fun n =>
    (.number n, s.dropWhile fun u => IsNumeric (unitChar u))

def readWord (j : Json) (word : Text) (s : JsString) : Option (Json × JsString) :=
  if js word <+: s then some (j, s.drop word.length) else none

mutual
/-- A value and what is behind it. -/
def readValue : Nat → JsString → Option (Json × JsString)
  | 0, _ => none
  | fuel + 1, s =>
      match skip s with
      | [] => none
      | u :: s =>
          if u = 0x22 then (readString s).map fun p => (.string p.1, p.2)
          else if u = unit '[' then
            if (skip s).head? = some (unit ']') then some (.array [], (skip s).drop 1)
            else (readValue fuel s).bind fun p =>
              (readElements fuel p.2).map fun q => (.array (p.1 :: q.1), q.2)
          else if u = unit '\x7b' then
            if (skip s).head? = some (unit '\x7d') then some (.object [], (skip s).drop 1)
            else (readMember fuel s).bind fun p =>
              (readMembers fuel p.2).map fun q => (.object (ofMembers (p.1 :: q.1)), q.2)
          else if u = unit 'n' then readWord .null "ull".toList s
          else if u = unit 't' then readWord (.bool true) "rue".toList s
          else if u = unit 'f' then readWord (.bool false) "alse".toList s
          else readNumber (u :: s)
/-- Elements behind the first one, and the bracket. -/
def readElements : Nat → JsString → Option (List Json × JsString)
  | 0, _ => none
  | fuel + 1, s =>
      match skip s with
      | [] => none
      | u :: s =>
          if u = unit ']' then some ([], s)
          else if u = unit ',' then (readValue fuel s).bind fun p =>
            (readElements fuel p.2).map fun q => (p.1 :: q.1, q.2)
          else none
def readMember : Nat → JsString → Option ((JsString × Json) × JsString)
  | 0, _ => none
  | fuel + 1, s =>
      match skip s with
      | [] => none
      | u :: s =>
          if u = 0x22 then (readString s).bind fun p =>
            match skip p.2 with
            | [] => none
            | u :: s =>
                if u = unit ':' then (readValue fuel s).map fun q => ((p.1, q.1), q.2) else none
          else none
/-- Members behind the first one, and the brace. -/
def readMembers : Nat → JsString → Option (List (JsString × Json) × JsString)
  | 0, _ => none
  | fuel + 1, s =>
      match skip s with
      | [] => none
      | u :: s =>
          if u = unit '\x7d' then some ([], s)
          else if u = unit ',' then (readMember fuel s).bind fun p =>
            (readMembers fuel p.2).map fun q => (p.1 :: q.1, q.2)
          else none
end

/-- `JSON.parse`, which throws a `SyntaxError` where there is none. -/
def parse (s : JsString) : Option Json :=
  match readValue s.length s with
  | some (j, rest) => if skip rest = [] then some j else none
  | none => none

/-! ## Strings -/

theorem readString_quote (s : JsString) : readString (0x22 :: s) = some ([], s) := by
  rw [readString.eq_def]
  rfl

theorem readString_raw {u : UInt16} {s : JsString} (hquote : u ≠ 0x22) (hslash : u ≠ 0x5c)
    (hcontrol : ¬ u < 0x20) : readString (u :: s) = (readString s).map (prepend u) := by
  rw [readString.eq_def]
  simp only [if_neg hquote, if_neg hslash, if_neg hcontrol]

theorem hexValue_unit {n : Nat} (h : n < 16) :
    hexValue (unitChar (unit (hexDigit n))) = some n := by
  have hall : ∀ n < 16, hexValue (unitChar (unit (hexDigit n))) = some n := by decide +kernel
  exact hall n h

theorem readString_longEscape (u : UInt16) (s : JsString) :
    readString (longEscape u ++ s) = (readString s).map (prepend u) := by
  have hlt : u.toNat < 65536 := u.toNat_lt
  have hdigits : digitsIn 16 ([unit (hexDigit (u.toNat / 4096)),
      unit (hexDigit (u.toNat / 256 % 16)), unit (hexDigit (u.toNat / 16 % 16)),
      unit (hexDigit (u.toNat % 16))].map unitChar) = some u.toNat := by
    have h1 : u.toNat / 4096 < 16 := by omega
    have h2 : u.toNat / 256 % 16 < 16 := by omega
    have h3 : u.toNat / 16 % 16 < 16 := by omega
    have h4 : u.toNat % 16 < 16 := by omega
    simp only [digitsIn, List.map_cons, List.map_nil, List.foldlM_cons, List.foldlM_nil,
      hexValue_unit h1, hexValue_unit h2, hexValue_unit h3, hexValue_unit h4, h1, h2, h3, h4,
      Option.bind_some, if_true, reduceCtorEq, if_false, Option.bind_eq_bind, Option.pure_def]
    congr 1
    omega
  rw [readString.eq_def]
  simp only [longEscape, List.cons_append, List.nil_append, if_neg (show (0x5c : UInt16) ≠ 0x22 by
    decide), if_true, hdigits, Option.bind_some, UInt16.ofNat_toNat]

theorem readString_shortEscape {u c : UInt16} (h : shortEscapes.lookup u = some c) (s : JsString) :
    readString (0x5c :: c :: s) = (readString s).map (prepend u) := by
  have hall : (shortEscapes.all fun e => e.2 ≠ unit 'u' ∧ unescape e.2 = some e.1) = true := by
    decide +kernel
  obtain ⟨earlier, later, hsplit, -⟩ := List.lookup_eq_some_iff.mp h
  have hmem : (u, c) ∈ shortEscapes := by simp [hsplit]
  obtain ⟨hlong, hback⟩ := of_decide_eq_true (List.all_eq_true.mp hall (u, c) hmem)
  rw [readString.eq_def]
  simp only [if_neg (show (0x5c : UInt16) ≠ 0x22 by decide), if_true, if_neg hlong, hback,
    Option.bind_some]

/-- A unit that needs no escape. -/
theorem ne_of_lookup {u : UInt16} (h : shortEscapes.lookup u = none) : u ≠ 0x22 ∧ u ≠ 0x5c := by
  constructor
  · rintro rfl
    exact absurd h (by decide)
  · rintro rfl
    exact absurd h (by decide)

theorem readString_escape (u : UInt16) (s : JsString) :
    readString (escape u ++ s) = (readString s).map (prepend u) := by
  unfold escape
  split
  · next c hshort => exact readString_shortEscape hshort s
  · next hnone =>
      obtain ⟨hquote, hslash⟩ := ne_of_lookup hnone
      split
      · exact readString_longEscape u s
      · next hraw => exact readString_raw hquote hslash fun h => hraw (Or.inl h)

/-- A surrogate is neither a quote nor a backslash, and no control character. -/
theorem readString_surrogate {u : UInt16} (h : 0xd800 ≤ u) (s : JsString) :
    readString (u :: s) = (readString s).map (prepend u) := by
  have hle : 0xd800 ≤ u.toNat := h
  refine readString_raw ?_ ?_ ?_
  · rintro rfl
    exact absurd h (by decide)
  · rintro rfl
    exact absurd h (by decide)
  · intro hlt
    have hlt : u.toNat < 0x20 := hlt
    omega

/-- **A string is read as it was, up to the quote behind it.** -/
theorem readString_escaped (s rest : JsString) :
    readString (escaped s ++ 0x22 :: rest) = some (s, rest) := by
  induction s using escaped.induct with
  | case1 => exact readString_quote rest
  | case2 u =>
      rw [escaped, readString_escape, readString_quote]
      rfl
  | case3 u v s hpair ih =>
      rw [escaped, if_pos hpair, List.cons_append, List.cons_append,
        readString_surrogate hpair.1.1,
        readString_surrogate (UInt16.le_trans (by decide) hpair.2.1), ih]
      rfl
  | case4 u v s hpair ih =>
      rw [escaped, if_neg hpair, List.append_assoc, readString_escape, ih]
      rfl

/-! ## Numbers -/

/-- What is behind a value does not go on with a number. -/
def Delimited (rest : JsString) : Prop := ∀ u ∈ rest.head?, ¬ IsNumeric (unitChar u)

theorem readNumber_text (n : JsNumber) {rest : JsString} (hrest : Delimited rest) :
    readNumber (js n.toText ++ rest) = some (.number n, rest) := by
  obtain ⟨hnumeric, -⟩ := n.numeric_toText
  have hunits : ∀ u ∈ js n.toText, decide (IsNumeric (unitChar u)) = true := by
    intro u hu
    obtain ⟨c, hc, rfl⟩ := List.mem_map.mp hu
    rw [unitChar_unit (hnumeric c hc)]
    exact decide_eq_true (hnumeric c hc)
  have hend : ∀ u ∈ rest.head?, decide (IsNumeric (unitChar u)) = false :=
    fun u hu => decide_eq_false (hrest u hu)
  obtain ⟨htake, hdrop⟩ := takeWhile_append_rest hunits hend
  rw [readNumber, htake, hdrop, map_unitChar_js hnumeric, n.jsonNumber_toText]
  rfl

/-- A number starts with none of the units that something else starts with. -/
theorem unit_notMem {c : Char} (h : c.isDigit = true ∨ c = '-') :
    unit c ∉ [0x09, 0x0a, 0x0d, 0x20, 0x22, unit '[', unit ']', unit '\x7b', unit 'n', unit 't',
      unit 'f'] := by
  have hall : ∀ n < 58, (Char.ofNat n).isDigit = true ∨ Char.ofNat n = '-' →
      unit (Char.ofNat n) ∉ [0x09, 0x0a, 0x0d, 0x20, 0x22, unit '[', unit ']', unit '\x7b',
        unit 'n', unit 't', unit 'f'] := by decide +kernel
  have hlt : c.toNat < 58 := by
    rcases h with hdigit | rfl
    · exact Nat.lt_succ_of_le (Char.isDigit_iff_toNat.mp hdigit).2
    · decide
  have hc := hall c.toNat hlt
  rw [Char.ofNat_toNat] at hc
  exact hc h

theorem not_isWhite_unit {c : Char} (h : c.isDigit = true ∨ c = '-') : ¬ IsWhite (unit c) := by
  have hnot := unit_notMem h
  simp only [List.mem_cons, List.not_mem_nil, or_false, not_or] at hnot
  simp only [IsWhite, List.mem_cons, List.not_mem_nil, or_false, not_or]
  exact ⟨hnot.1, hnot.2.1, hnot.2.2.1, hnot.2.2.2.1⟩

/-! ## Values -/

mutual
/-- Every object in it is one. -/
def Proper : Json → Prop
  | .array elements => ProperElements elements
  | .object members => Own members ∧ ProperMembers members
  | _ => True
def ProperElements : List Json → Prop
  | [] => True
  | j :: elements => Proper j ∧ ProperElements elements
def ProperMembers : List (JsString × Json) → Prop
  | [] => True
  | (_, j) :: members => Proper j ∧ ProperMembers members
end

theorem skip_cons {u : UInt16} {s : JsString} (h : ¬ IsWhite u) : skip (u :: s) = u :: s := by
  rw [skip, List.dropWhile_cons, decide_eq_false h]
  rfl

section Steps
variable (fuel : Nat) (s : JsString)

theorem readValue_quote : readValue (fuel + 1) (0x22 :: s) =
    (readString s).map fun p => (.string p.1, p.2) := by
  rw [readValue, skip_cons (by decide)]
  rfl

theorem readValue_bracket (h : (skip s).head? ≠ some (unit ']')) :
    readValue (fuel + 1) (unit '[' :: s) = (readValue fuel s).bind fun p =>
      (readElements fuel p.2).map fun q => (.array (p.1 :: q.1), q.2) := by
  rw [readValue, skip_cons (by decide)]
  exact if_neg h

theorem readValue_brace (h : (skip s).head? ≠ some (unit '\x7d')) :
    readValue (fuel + 1) (unit '\x7b' :: s) = (readMember fuel s).bind fun p =>
      (readMembers fuel p.2).map fun q => (.object (ofMembers (p.1 :: q.1)), q.2) := by
  rw [readValue, skip_cons (by decide)]
  exact if_neg h

theorem readElements_comma : readElements (fuel + 1) (unit ',' :: s) =
    (readValue fuel s).bind fun p => (readElements fuel p.2).map fun q => (p.1 :: q.1, q.2) := by
  rw [readElements, skip_cons (by decide)]
  rfl

theorem readMembers_comma : readMembers (fuel + 1) (unit ',' :: s) =
    (readMember fuel s).bind fun p => (readMembers fuel p.2).map fun q => (p.1 :: q.1, q.2) := by
  rw [readMembers, skip_cons (by decide)]
  rfl

/-- A key is read as it was, and the value is behind the colon. -/
theorem readMember_quote (key : JsString) :
    readMember (fuel + 1) (quote key ++ unit ':' :: s) =
      (readValue fuel s).map fun q => ((key, q.1), q.2) := by
  rw [quote, List.cons_append, List.append_assoc, readMember, skip_cons (by decide)]
  have hread : readString (escaped key ++ ([0x22] ++ unit ':' :: s)) = some (key, unit ':' :: s) :=
    readString_escaped key _
  have hcolon : skip (unit ':' :: s) = unit ':' :: s := skip_cons (by decide)
  simp only [if_true, hread, Option.bind_some, hcolon]

end Steps

theorem readValue_number (fuel : Nat) (n : JsNumber) {rest : JsString} (hrest : Delimited rest) :
    readValue (fuel + 1) (js n.toText ++ rest) = some (.number n, rest) := by
  obtain ⟨-, c, text, htext, hfirst⟩ := n.numeric_toText
  have hread := readNumber_text n hrest
  have hnot := unit_notMem hfirst
  simp only [List.mem_cons, List.not_mem_nil, or_false, not_or] at hnot
  obtain ⟨-, -, -, -, hquote, hbracket, -, hbrace, hn, ht, hf⟩ := hnot
  have hcons : js n.toText ++ rest = unit c :: (js text ++ rest) := by rw [htext]; rfl
  rw [hcons] at hread ⊢
  rw [readValue, skip_cons (not_isWhite_unit hfirst)]
  simp only [if_neg hquote, if_neg hbracket, if_neg hbrace, if_neg hn, if_neg ht, if_neg hf, hread]

/-- A value starts neither with white space nor with a bracket that closes. -/
theorem text_head (j : Json) : ∃ u s, text j = u :: s ∧ ¬ IsWhite u ∧ u ≠ unit ']' := by
  cases j with
  | null => exact ⟨_, _, rfl, by decide, by decide⟩
  | bool b => cases b <;> exact ⟨_, _, rfl, by decide, by decide⟩
  | number n =>
      obtain ⟨-, c, s, htext, hfirst⟩ := n.numeric_toText
      have hnot := unit_notMem hfirst
      simp only [List.mem_cons, List.not_mem_nil, or_false, not_or] at hnot
      exact ⟨unit c, js s, by rw [text, htext]; rfl, not_isWhite_unit hfirst,
        hnot.2.2.2.2.2.2.1⟩
  | string s => exact ⟨_, _, rfl, by decide, by decide⟩
  | array elements => cases elements <;> exact ⟨_, _, by rw [text], by decide, by decide⟩
  | object members =>
      rcases members with _ | ⟨⟨key, j⟩, members⟩ <;>
        exact ⟨_, _, by rw [text], by decide, by decide⟩

theorem head_skip_text (j : Json) (s : JsString) :
    (skip (text j ++ s)).head? ≠ some (unit ']') := by
  obtain ⟨u, s', htext, hwhite, hclose⟩ := text_head j
  rw [htext, List.cons_append, skip_cons hwhite]
  exact fun h => hclose (Option.some.inj h)

theorem delimited_elementsText (elements : List Json) (rest : JsString) :
    Delimited (elementsText elements ++ rest) := by
  cases elements <;> rintro u hu <;> obtain rfl := Option.some.inj hu <;> decide

theorem delimited_membersText (members : List (JsString × Json)) (rest : JsString) :
    Delimited (membersText members ++ rest) := by
  rcases members with _ | ⟨⟨key, j⟩, members⟩ <;> rintro u hu <;>
    obtain rfl := Option.some.inj hu <;> decide

theorem text_pos (j : Json) : 0 < (text j).length := by
  obtain ⟨u, s, htext, -⟩ := text_head j
  rw [htext]
  exact Nat.succ_pos _

mutual
/-- **A value is read as it was, and what is behind it stays.** -/
theorem readValue_text : ∀ (j : Json) (fuel : Nat) (rest : JsString), Proper j →
    (text j).length ≤ fuel → Delimited rest → readValue fuel (text j ++ rest) = some (j, rest)
  -- every call is behind a unit of its own, so the length is fuel enough
  | j, 0, _, _, hfuel, _ => absurd (text_pos j) (Nat.not_lt.mpr hfuel)
  | .null, fuel + 1, rest, _, _, _ => by rw [text]; rfl
  | .bool true, fuel + 1, rest, _, _, _ => by rw [text]; rfl
  | .bool false, fuel + 1, rest, _, _, _ => by rw [text]; rfl
  | .number n, fuel + 1, rest, _, _, hrest => by
      rw [text]
      exact readValue_number fuel n hrest
  | .string s, fuel + 1, rest, _, _, _ => by
      rw [text, quote, List.cons_append, List.append_assoc, readValue_quote]
      exact congrArg (Option.map _) (readString_escaped s rest)
  | .array [], fuel + 1, rest, _, _, _ => by rw [text]; rfl
  | .array (j :: elements), fuel + 1, rest, hproper, hfuel, _ => by
      rw [Proper, ProperElements] at hproper
      rw [text, List.length_cons, List.length_append] at hfuel
      have hfirst := readValue_text j fuel (elementsText elements ++ rest) hproper.1 (by omega)
        (delimited_elementsText elements rest)
      have hothers := readElements_text elements fuel rest hproper.2 (by omega)
      rw [text, List.cons_append, List.append_assoc,
        readValue_bracket fuel _ (head_skip_text j _), hfirst, Option.bind_some, hothers]
      rfl
  | .object [], fuel + 1, rest, _, _, _ => by rw [text]; rfl
  | .object ((key, j) :: members), fuel + 1, rest, hproper, hfuel, _ => by
      rw [Proper, ProperMembers] at hproper
      obtain ⟨hown, hj, hmembers⟩ := hproper
      rw [text, List.length_cons, List.length_append, List.length_cons, List.length_append] at hfuel
      have hfirst := readMember_text key j fuel (membersText members ++ rest) hj (by omega)
        (delimited_membersText members rest)
      have hothers := readMembers_text members fuel rest hmembers (by omega)
      -- a quote is no brace, so there is a first member
      have hquote : (skip (quote key ++ unit ':' :: (text j ++ (membersText members ++
          rest)))).head? ≠ some (unit '\x7d') := by
        rw [quote, List.cons_append, skip_cons (by decide)]
        exact fun h => absurd (Option.some.inj h) (by decide)
      rw [text, List.cons_append, List.append_assoc, List.cons_append, List.append_assoc,
        readValue_brace fuel _ hquote, hfirst, Option.bind_some, hothers, Option.map_some,
        ofMembers_of_own hown]
theorem readElements_text : ∀ (elements : List Json) (fuel : Nat) (rest : JsString),
    ProperElements elements → (elementsText elements).length ≤ fuel →
      readElements fuel (elementsText elements ++ rest) = some (elements, rest)
  | [], 0, _, _, hfuel => nomatch hfuel
  | [], fuel + 1, rest, _, _ => rfl
  | _ :: _, 0, _, _, hfuel => by
      rw [elementsText] at hfuel
      exact nomatch hfuel
  | j :: elements, fuel + 1, rest, hproper, hfuel => by
      rw [ProperElements] at hproper
      rw [elementsText, List.length_cons, List.length_append] at hfuel
      have hfirst := readValue_text j fuel (elementsText elements ++ rest) hproper.1 (by omega)
        (delimited_elementsText elements rest)
      have hothers := readElements_text elements fuel rest hproper.2 (by omega)
      rw [elementsText, List.cons_append, List.append_assoc, readElements_comma, hfirst,
        Option.bind_some, hothers]
      rfl
theorem readMember_text : ∀ (key : JsString) (j : Json) (fuel : Nat) (rest : JsString), Proper j →
    (quote key).length + ((text j).length + 1) ≤ fuel → Delimited rest →
      readMember fuel (quote key ++ unit ':' :: (text j ++ rest)) = some ((key, j), rest)
  | _, _, 0, _, _, hfuel, _ => absurd hfuel (by omega)
  | key, j, fuel + 1, rest, hproper, hfuel, hrest => by
      rw [readMember_quote, readValue_text j fuel rest hproper (by omega) hrest]
      rfl
theorem readMembers_text : ∀ (members : List (JsString × Json)) (fuel : Nat) (rest : JsString),
    ProperMembers members → (membersText members).length ≤ fuel →
      readMembers fuel (membersText members ++ rest) = some (members, rest)
  | [], 0, _, _, hfuel => nomatch hfuel
  | [], fuel + 1, rest, _, _ => rfl
  | _ :: _, 0, _, _, hfuel => by
      rw [membersText] at hfuel
      exact nomatch hfuel
  | (key, j) :: members, fuel + 1, rest, hproper, hfuel => by
      rw [ProperMembers] at hproper
      rw [membersText, List.length_cons, List.length_append, List.length_cons,
        List.length_append] at hfuel
      have hfirst := readMember_text key j fuel (membersText members ++ rest) hproper.1 (by omega)
        (delimited_membersText members rest)
      have hothers := readMembers_text members fuel rest hproper.2 (by omega)
      rw [membersText, List.cons_append, List.append_assoc, List.cons_append, List.append_assoc,
        readMembers_comma, hfirst, Option.bind_some, hothers]
      rfl
end

/-- **What is written is read as it was.** -/
theorem parse_text {j : Json} (h : Proper j) : parse (text j) = some j := by
  have hread := readValue_text j (text j).length [] h (Nat.le_refl _) nofun
  rw [List.append_nil] at hread
  rw [parse, hread]
  rfl

end JsonText
end BitcoinOracle
