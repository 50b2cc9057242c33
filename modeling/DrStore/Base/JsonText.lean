import DrStore.Base.PyJson
import Mathlib.Tactic.Common

/-! # Reading JSON text back

A parser for the compact texts of `PyJson`, with the reader of a float as a parameter. Nesting
is bounded by a fuel argument, for which the length of the text is always enough.
`parse_dumps` is the round trip: what `dumps` wrote is read back as the same value. -/
namespace DrStore.Base.JsonText
open DrStore.Base.PyJson

/-! ## Numbers -/

def isNumberChar (c : Char) : Bool :=
  c.isDigit || c == '-' || c == '+' || c == '.' || c == 'e' || c == 'E'

def isFloatMark (c : Char) : Bool := c == '.' || c == 'e' || c == 'E'

/-- What the text of a float has to satisfy to be read back. -/
structure FloatText (repr : Double → List Char) (read : List Char → Option Double) : Prop where
  read_repr : ∀ x, read (repr x) = some x
  number : ∀ x, ∀ c ∈ repr x, isNumberChar c = true
  marked : ∀ x, (repr x).any isFloatMark = true

def readNat (cs : List Char) : Option Nat :=
  if cs ≠ [] ∧ cs.all Char.isDigit = true then some (Nat.ofDigitChars 10 cs 0) else none

def readInt : List Char → Option Int
  | '-' :: cs => (readNat cs).map (fun n => -(n : Int))
  | cs => (readNat cs).map Int.ofNat

def readNumber (read : List Char → Option Double) (cs : List Char) : Option Json :=
  if cs.any isFloatMark then (read cs).map .float else (readInt cs).map .int

/-! ## Strings -/

def hexVal (c : Char) : Option Nat :=
  if c.isDigit then some (c.toNat - 48)
  else if 97 ≤ c.toNat ∧ c.toNat ≤ 102 then some (c.toNat - 87)
  else none

/-- The characters up to the closing quote, unescaped. -/
def readString : List Char → Option (List Char × List Char)
  | [] => none
  | '"' :: rest => some ([], rest)
  | '\\' :: 'n' :: rest => (readString rest).map fun p => ('\n' :: p.1, p.2)
  | '\\' :: 'r' :: rest => (readString rest).map fun p => ('\r' :: p.1, p.2)
  | '\\' :: 't' :: rest => (readString rest).map fun p => ('\t' :: p.1, p.2)
  | '\\' :: 'f' :: rest => (readString rest).map fun p => (Char.ofNat 12 :: p.1, p.2)
  | '\\' :: 'b' :: rest => (readString rest).map fun p => (Char.ofNat 8 :: p.1, p.2)
  | '\\' :: 'u' :: '0' :: '0' :: a :: b :: rest =>
    match hexVal a, hexVal b with
    | some x, some y => (readString rest).map fun p => (Char.ofNat (16 * x + y) :: p.1, p.2)
    | _, _ => none
  | '\\' :: c :: rest =>
    if c = '"' ∨ c = '\\' then (readString rest).map fun p => (c :: p.1, p.2) else none
  | c :: rest => (readString rest).map fun p => (c :: p.1, p.2)

/-! ## Values -/

section
variable (read : List Char → Option Double)

mutual

def parseValue : Nat → List Char → Option (Json × List Char)
  | 0, _ => none
  | fuel + 1, cs => match cs with
    | '"' :: rest => (readString rest).map fun p => (.str (String.ofList p.1), p.2)
    | '[' :: ']' :: rest => some (.arr [], rest)
    | '[' :: rest => (parseItems fuel rest).map fun p => (.arr p.1, p.2)
    | '\x7b' :: '\x7d' :: rest => some (.obj [], rest)
    | '\x7b' :: rest => (parseFields fuel rest).map fun p => (.obj p.1, p.2)
    | 'n' :: 'u' :: 'l' :: 'l' :: rest => some (.null, rest)
    | 't' :: 'r' :: 'u' :: 'e' :: rest => some (.bool true, rest)
    | 'f' :: 'a' :: 'l' :: 's' :: 'e' :: rest => some (.bool false, rest)
    | _ => (readNumber read (cs.takeWhile isNumberChar)).map (·, cs.dropWhile isNumberChar)

/-- One or more items, up to the closing bracket. -/
def parseItems : Nat → List Char → Option (List Json × List Char)
  | 0, _ => none
  | fuel + 1, cs => match parseValue fuel cs with
    | some (v, ',' :: rest) => (parseItems fuel rest).map fun p => (v :: p.1, p.2)
    | some (v, ']' :: rest) => some ([v], rest)
    | _ => none

/-- One or more fields, up to the closing brace. -/
def parseFields : Nat → List Char → Option (List (String × Json) × List Char)
  | 0, _ => none
  | fuel + 1, cs => match cs with
    | '"' :: cs => match readString cs with
      | some (k, ':' :: cs) => match parseValue fuel cs with
        | some (v, ',' :: rest) =>
          (parseFields fuel rest).map fun p => ((String.ofList k, v) :: p.1, p.2)
        | some (v, '\x7d' :: rest) => some ([(String.ofList k, v)], rest)
        | _ => none
      | _ => none
    | _ => none

end

def parse (text : String) : Option Json :=
  match parseValue read text.toList.length text.toList with
  | some (v, []) => some v
  | _ => none

end

/-! ## Reading numbers back -/

theorem readNat_toDigits (n : Nat) : readNat (Nat.toDigits 10 n) = some n := by
  have hall : (Nat.toDigits 10 n).all Char.isDigit = true := by
    rw [List.all_eq_true]
    intro c hc
    exact Nat.isDigit_of_mem_toDigits (by decide) (by decide) hc
  rw [readNat, if_pos ⟨Nat.toDigits_ne_nil, hall⟩, Nat.ofDigitChars_ten_toDigits]

theorem digits_head_ne_minus (n : Nat) (cs : List Char) : Nat.toDigits 10 n ≠ '-' :: cs := by
  intro h
  have hdigit : Char.isDigit '-' = true :=
    Nat.isDigit_of_mem_toDigits (n := n) (b := 10) (by decide) (by decide) (by rw [h]; simp)
  revert hdigit
  decide

theorem readInt_intText (n : Int) : readInt (intText n) = some n := by
  unfold intText
  split
  · rename_i hneg
    have hread : readInt ('-' :: Nat.toDigits 10 n.natAbs) = some (-(n.natAbs : Int)) := by
      simp [readInt, readNat_toDigits]
    rw [hread, Option.some.injEq]
    omega
  · rename_i hpos
    have hread : readInt (Nat.toDigits 10 n.natAbs) =
        (readNat (Nat.toDigits 10 n.natAbs)).map Int.ofNat := by
      rw [readInt.eq_def]
      split
      · rename_i h
        exact absurd h (digits_head_ne_minus _ _)
      · rfl
    rw [hread, readNat_toDigits, Option.map_some, Option.some.injEq]
    exact Int.natAbs_of_nonneg (by omega)

theorem isDigit_number {c : Char} (h : c.isDigit = true) :
    isNumberChar c = true ∧ isFloatMark c = false := by
  refine ⟨by simp [isNumberChar, h], ?_⟩
  rw [Bool.eq_false_iff]
  intro hmark
  simp only [isFloatMark, Bool.or_eq_true, beq_iff_eq] at hmark
  rcases hmark with (rfl | rfl) | rfl <;> exact absurd h (by decide)

theorem intText_chars (n : Int) :
    ∀ c ∈ intText n, isNumberChar c = true ∧ isFloatMark c = false := by
  have hdigits : ∀ c ∈ Nat.toDigits 10 n.natAbs, isNumberChar c = true ∧ isFloatMark c = false :=
    fun c hc => isDigit_number (Nat.isDigit_of_mem_toDigits (by decide) (by decide) hc)
  unfold intText
  split
  · intro c hc
    rcases List.mem_cons.mp hc with rfl | hc
    · decide
    · exact hdigits c hc
  · exact hdigits

/-- The text after a number does not go on with a number character. -/
def Stops (rest : List Char) : Prop := ∀ c ∈ rest.head?, isNumberChar c = false

theorem stops_cons {c : Char} (h : isNumberChar c = false) (rest : List Char) :
    Stops (c :: rest) := by
  intro d hd
  cases hd
  exact h

theorem takeWhile_number {text rest : List Char} (h : ∀ c ∈ text, isNumberChar c = true)
    (hrest : Stops rest) :
    (text ++ rest).takeWhile isNumberChar = text ∧ (text ++ rest).dropWhile isNumberChar = rest := by
  have hstop : rest.takeWhile isNumberChar = [] ∧ rest.dropWhile isNumberChar = rest := by
    cases rest with
    | nil => exact ⟨rfl, rfl⟩
    | cons c cs =>
      have hc := hrest c rfl
      simp [hc]
  refine ⟨?_, ?_⟩
  · rw [List.takeWhile_append_of_pos h, hstop.1, List.append_nil]
  · rw [List.dropWhile_append_of_pos h, hstop.2]

/-! ## Reading strings back -/

theorem hexVal_hexDigit : ∀ d < 16, hexVal (hexDigit d) = some d := by decide

theorem readString_escapeChar (c : Char) (rest : List Char) :
    readString (escapeChar c ++ rest) = (readString rest).map fun p => (c :: p.1, p.2) := by
  unfold escapeChar
  split
  · subst_vars; simp [readString]
  · split
    · subst_vars; simp [readString]
    · split
      · subst_vars; simp [readString]
      · split
        · subst_vars; simp [readString]
        · split
          · subst_vars; simp [readString]
          · split
            · subst_vars; simp [readString]
            · split
              · subst_vars; simp [readString]
              · split
                · rename_i hlow
                  have hhigh := hexVal_hexDigit (c.toNat / 16) (by omega)
                  have hdigit : hexVal (hexDigit c.toNat) = some (c.toNat % 16) := by
                    rw [← hexVal_hexDigit (c.toNat % 16) (by omega)]
                    simp [hexDigit]
                  have hback : Char.ofNat (16 * (c.toNat / 16) + c.toNat % 16) = c := by
                    rw [Nat.div_add_mod, Char.ofNat_toNat]
                  simp [readString, hhigh, hdigit, hback]
                · rename_i hquote hback _ _ _ _ _ _
                  simp only [List.cons_append, List.nil_append]
                  rw [readString.eq_def]
                  split <;> simp_all

theorem readString_body (cs rest : List Char) :
    readString (cs.flatMap escapeChar ++ '"' :: rest) = some (cs, rest) := by
  induction cs with
  | nil => simp [readString]
  | cons c cs ih => rw [List.flatMap_cons, List.append_assoc, readString_escapeChar, ih]; rfl

theorem readString_quoted (s : String) (rest : List Char) :
    ∃ body, quoted s ++ rest = '"' :: body ∧ readString body = some (s.toList, rest) := by
  refine ⟨s.toList.flatMap escapeChar ++ '"' :: rest, ?_, readString_body s.toList rest⟩
  simp [quoted]

/-! ## Reading values back -/

section
variable {repr : Double → List Char} {read : List Char → Option Double}

/-- The first character of a value's text decides which kind of value is read. -/
theorem parseValue_number {fuel : Nat} {c : Char} {cs : List Char} (h : isNumberChar c = true) :
    parseValue read (fuel + 1) (c :: cs) =
      (readNumber read ((c :: cs).takeWhile isNumberChar)).map
        (·, (c :: cs).dropWhile isNumberChar) := by
  rw [parseValue]
  all_goals
    intros
    rename_i heq
    cases heq
    exact absurd h (by decide)

theorem parseValue_numberText {fuel : Nat} {text rest : List Char} {v : Json}
    (hne : text ≠ []) (hnum : ∀ c ∈ text, isNumberChar c = true) (hrest : Stops rest)
    (hread : readNumber read text = some v) :
    parseValue read (fuel + 1) (text ++ rest) = some (v, rest) := by
  obtain ⟨htake, hdrop⟩ := takeWhile_number hnum hrest
  cases text with
  | nil => exact absurd rfl hne
  | cons c cs =>
    rw [List.cons_append, parseValue_number (hnum c (by simp)), ← List.cons_append, htake, hdrop,
      hread]
    rfl

theorem intText_ne_nil (n : Int) : intText n ≠ [] := by
  unfold intText
  split
  · simp
  · exact Nat.toDigits_ne_nil

theorem readNumber_intText (n : Int) : readNumber read (intText n) = some (.int n) := by
  have hmark : (intText n).any isFloatMark = false := by
    rw [List.any_eq_false]
    intro c hc
    simp [(intText_chars n c hc).2]
  simp [readNumber, hmark, readInt_intText]

theorem number_head {text : List Char} (hne : text ≠ []) (h : ∀ c ∈ text, isNumberChar c = true) :
    ∃ c cs, text = c :: cs ∧ c ≠ ']' := by
  cases text with
  | nil => exact absurd rfl hne
  | cons c cs =>
    refine ⟨c, cs, rfl, ?_⟩
    rintro rfl
    exact absurd (h ']' (by simp)) (by decide)

theorem floatText_ne_nil (hf : FloatText repr read) (x : Double) : repr x ≠ [] := by
  intro h
  have hm := hf.marked x
  simp [h] at hm

/-- No value's text starts like the end of an array. -/
theorem valueText_head (hf : FloatText repr read) (v : Json) :
    ∃ c cs, valueText repr v = c :: cs ∧ c ≠ ']' := by
  cases v with
  | null => exact ⟨'n', _, rfl, by decide⟩
  | bool b => cases b <;> exact ⟨_, _, rfl, by decide⟩
  | int n => exact number_head (intText_ne_nil n) (fun c hc => (intText_chars n c hc).1)
  | float x => exact number_head (floatText_ne_nil hf x) (hf.number x)
  | str s => exact ⟨'"', _, rfl, by decide⟩
  | arr xs => exact ⟨'[', _, rfl, by decide⟩
  | obj fs => exact ⟨'\x7b', _, rfl, by decide⟩

theorem valueText_length_pos (hf : FloatText repr read) (v : Json) :
    0 < (valueText repr v).length := by
  obtain ⟨c, cs, h, -⟩ := valueText_head hf v
  simp [h]

mutual

theorem parseValue_text (hf : FloatText repr read) : ∀ (v : Json) (fuel : Nat) (rest : List Char),
    Stops rest → (valueText repr v).length ≤ fuel →
      parseValue read fuel (valueText repr v ++ rest) = some (v, rest)
  | v, 0, rest, _, hl => by
    have := valueText_length_pos hf v
    omega
  | .null, fuel + 1, rest, _, _ => by simp [valueText, parseValue]
  | .bool b, fuel + 1, rest, _, _ => by cases b <;> simp [valueText, parseValue]
  | .int n, fuel + 1, rest, hrest, _ => by
    rw [valueText]
    exact parseValue_numberText (intText_ne_nil n) (fun c hc => (intText_chars n c hc).1) hrest
      (readNumber_intText n)
  | .float x, fuel + 1, rest, hrest, _ => by
    rw [valueText]
    refine parseValue_numberText (floatText_ne_nil hf x) (hf.number x) hrest ?_
    simp [readNumber, hf.marked x, hf.read_repr x]
  | .str s, fuel + 1, rest, _, _ => by
    obtain ⟨body, htext, hread⟩ := readString_quoted s rest
    rw [valueText, htext, parseValue, hread]
    simp
  | .arr [], fuel + 1, rest, _, _ => by simp [valueText, itemsText, parseValue]
  | .arr (x :: xs), fuel + 1, rest, _, hl => by
    obtain ⟨c, cs, hx, hc⟩ := valueText_head hf x
    have hitems := parseItems_text hf (x :: xs) fuel rest (by simp)
      (by simpa [valueText] using hl)
    rw [valueText, List.cons_append]
    rw [itemsText, hx, List.cons_append, List.cons_append] at hitems ⊢
    rw [parseValue, hitems]
    · rfl
    · intro _ heq
      cases heq
      exact hc rfl
  | .obj [], fuel + 1, rest, _, _ => by simp [valueText, fieldsText, parseValue]
  | .obj ((k, v) :: fs), fuel + 1, rest, _, hl => by
    have hfields := parseFields_text hf ((k, v) :: fs) fuel rest (by simp)
      (by simpa [valueText] using hl)
    rw [valueText, List.cons_append]
    rw [fieldsText, quoted, List.cons_append, List.cons_append] at hfields ⊢
    rw [parseValue, hfields]
    · rfl
    · intro _ heq
      cases heq

theorem parseItems_text (hf : FloatText repr read) : ∀ (xs : List Json) (fuel : Nat)
    (rest : List Char), xs ≠ [] → (itemsText repr xs).length ≤ fuel →
      parseItems read fuel (itemsText repr xs ++ rest) = some (xs, rest)
  | [], _, _, hne, _ => absurd rfl hne
  | x :: xs, 0, rest, _, hl => by
    have := valueText_length_pos hf x
    simp [itemsText] at hl
    simp [hl.1] at this
  | [x], fuel + 1, rest, _, hl => by
    have hx := parseValue_text hf x fuel (']' :: rest) (stops_cons (by decide) _)
      (by simpa [itemsText] using hl)
    rw [itemsText, List.isEmpty_nil, if_pos rfl, itemsText, List.append_assoc, List.cons_append,
      List.nil_append, parseItems, hx]
    rfl
  | x :: y :: xs, fuel + 1, rest, _, hl => by
    have hpos := valueText_length_pos hf x
    rw [itemsText, List.isEmpty_cons, if_neg (by decide)] at hl ⊢
    rw [List.length_append, List.length_cons] at hl
    have hx := parseValue_text hf x fuel (',' :: (itemsText repr (y :: xs) ++ rest))
      (stops_cons (by decide) _) (by omega)
    have hxs := parseItems_text hf (y :: xs) fuel rest (by simp) (by omega)
    rw [List.append_assoc, List.cons_append, parseItems, hx]
    simp only [hxs, Option.map_some]

theorem parseFields_text (hf : FloatText repr read) : ∀ (fs : List (String × Json)) (fuel : Nat)
    (rest : List Char), fs ≠ [] → (fieldsText repr fs).length ≤ fuel →
      parseFields read fuel (fieldsText repr fs ++ rest) = some (fs, rest)
  | [], _, _, hne, _ => absurd rfl hne
  | (k, v) :: fs, 0, rest, _, hl => by simp [fieldsText, quoted] at hl
  | [(k, v)], fuel + 1, rest, _, hl => by
    rw [fieldsText, List.isEmpty_nil, if_pos rfl, fieldsText] at hl ⊢
    rw [List.length_append, List.length_cons, List.length_append] at hl
    have hv := parseValue_text hf v fuel ('\x7d' :: rest) (stops_cons (by decide) _) (by omega)
    obtain ⟨body, htext, hread⟩ := readString_quoted k
      (':' :: (valueText repr v ++ '\x7d' :: rest))
    rw [show quoted k ++ ':' :: (valueText repr v ++ ['\x7d']) ++ rest =
      quoted k ++ ':' :: (valueText repr v ++ '\x7d' :: rest) by simp, htext, parseFields, hread]
    simp only [hv, String.ofList_toList]
  | (k, v) :: (k', v') :: fs, fuel + 1, rest, _, hl => by
    rw [fieldsText, List.isEmpty_cons, if_neg (by decide)] at hl ⊢
    rw [List.length_append, List.length_cons, List.length_append, List.length_cons] at hl
    have hpos := valueText_length_pos hf v
    have hv := parseValue_text hf v fuel (',' :: (fieldsText repr ((k', v') :: fs) ++ rest))
      (stops_cons (by decide) _) (by omega)
    have hfs := parseFields_text hf ((k', v') :: fs) fuel rest (by simp) (by omega)
    obtain ⟨body, htext, hread⟩ := readString_quoted k
      (':' :: (valueText repr v ++ ',' :: (fieldsText repr ((k', v') :: fs) ++ rest)))
    rw [show quoted k ++ ':' :: (valueText repr v ++ ',' :: fieldsText repr ((k', v') :: fs)) ++ rest
      = quoted k ++ ':' :: (valueText repr v ++ ',' :: (fieldsText repr ((k', v') :: fs) ++ rest))
      by simp, htext, parseFields, hread]
    simp only [hv, hfs, Option.map_some, String.ofList_toList]

end

/-- **Reading back what `dumps` wrote gives the value.** -/
theorem parse_dumps (hf : FloatText repr read) (v : Json) : parse read (dumps repr v) = some v := by
  have h := parseValue_text hf v (valueText repr v).length [] (by intro c hc; cases hc) (Nat.le_refl _)
  rw [List.append_nil] at h
  simp only [parse, dumps, String.toList_ofList, h]

end

/-! ## A text for floats

Mantissa and binary exponent in decimal digits: not the shortest decimal, but a text with an
inverse, which is all that `FloatText` asks for. -/

def binaryRepr (x : Double) : List Char :=
  intText (if x.neg then -1 else 1) ++ 'e' :: (Nat.toDigits 10 x.mantissa ++ 'e' :: intText x.exponent)

def readParts (sign mantissa exponent : List Char) : Option Double :=
  match readInt sign, readNat mantissa, readInt exponent with
  | some s, some m, some e =>
    if h : m < 2 ^ 53 ∧ -1074 ≤ e ∧ e ≤ 971 ∧ (2 ^ 52 ≤ m ∨ e = -1074) then
      some ⟨decide (s < 0), m, e, h⟩
    else none
  | _, _, _ => none

def upToMark (cs : List Char) : List Char × List Char :=
  (cs.takeWhile (· != 'e'), (cs.dropWhile (· != 'e')).drop 1)

def binaryRead (cs : List Char) : Option Double :=
  readParts (upToMark cs).1 (upToMark (upToMark cs).2).1 (upToMark (upToMark cs).2).2

theorem upToMark_append {text : List Char} (h : ∀ c ∈ text, isFloatMark c = false)
    (rest : List Char) : upToMark (text ++ 'e' :: rest) = (text, rest) := by
  have hne : ∀ c ∈ text, (c != 'e') = true := by
    intro c hc
    rw [bne_iff_ne]
    rintro rfl
    exact absurd (h 'e' hc) (by decide)
  simp [upToMark, List.takeWhile_append_of_pos hne, List.dropWhile_append_of_pos hne]

theorem digits_chars (n : Nat) :
    ∀ c ∈ Nat.toDigits 10 n, isNumberChar c = true ∧ isFloatMark c = false :=
  fun _ hc => isDigit_number (Nat.isDigit_of_mem_toDigits (by decide) (by decide) hc)

theorem binaryRead_binaryRepr (x : Double) : binaryRead (binaryRepr x) = some x := by
  have hsign := upToMark_append (fun c hc => (intText_chars (if x.neg then -1 else 1) c hc).2)
    (Nat.toDigits 10 x.mantissa ++ 'e' :: intText x.exponent)
  have hrest := upToMark_append (fun c hc => (digits_chars x.mantissa c hc).2) (intText x.exponent)
  rw [binaryRead, binaryRepr, hsign, hrest, readParts]
  simp only [readInt_intText, readNat_toDigits]
  rw [dif_pos x.normal, Option.some.injEq]
  cases x with
  | mk neg mantissa exponent normal => cases neg <;> rfl

theorem binaryText : FloatText binaryRepr binaryRead where
  read_repr := binaryRead_binaryRepr
  number := by
    intro x c hc
    simp only [binaryRepr, List.mem_append, List.mem_cons] at hc
    rcases hc with hc | rfl | hc | rfl | hc
    · exact (intText_chars _ c hc).1
    · decide
    · exact (digits_chars _ c hc).1
    · decide
    · exact (intText_chars _ c hc).1
  marked := by
    intro x
    simp [binaryRepr, isFloatMark]

end DrStore.Base.JsonText
