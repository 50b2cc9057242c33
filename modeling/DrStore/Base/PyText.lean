import Mathlib.Data.List.Basic
import Mathlib.Tactic.Common

/-! # Python strings

A Python string is a sequence of code points, unpaired surrogates included; those without a
surrogate are the texts. `rpartition` splits at the last separator. -/
namespace DrStore.Base.PyText

abbrev CodePoint := Fin 0x110000

abbrev PyStr := List CodePoint

def codePoint (c : Char) : CodePoint :=
  ⟨c.toNat, by
    rcases c.valid with h | ⟨_, h⟩
    · exact Nat.lt_trans h (by decide)
    · exact h⟩

def char? (c : CodePoint) : Option Char :=
  if c.val.isValidChar then some (Char.ofNat c.val) else none

@[simp] theorem char?_codePoint (c : Char) : char? (codePoint c) = some c := by
  rw [char?, if_pos (show (codePoint c).val.isValidChar from c.valid)]
  exact congrArg some (Char.ofNat_toNat c)

theorem codePoint_of_char? {c : CodePoint} {d : Char} (h : char? c = some d) : codePoint d = c := by
  unfold char? at h
  split at h
  · rename_i hvalid
    cases h
    refine Fin.ext ?_
    show (Char.ofNat c.val).toNat = c.val
    rw [Char.ofNat, dif_pos hvalid]
    rfl
  · cases h

/-- The code points of a text. -/
def ofString (s : String) : PyStr := s.toList.map codePoint

/-- The text, if there is no surrogate in it. -/
def text? (s : PyStr) : Option String := (s.mapM char?).map String.ofList

@[simp] theorem text?_ofString (s : String) : text? (ofString s) = some s := by
  have hmap : (s.toList.map codePoint).mapM char? = some s.toList := by
    induction s.toList with
    | nil => rfl
    | cons c cs ih => simp [ih]
  rw [text?, ofString, hmap]
  exact congrArg some (String.ofList_toList)

theorem ofString_of_text? {s : PyStr} {text : String} (h : text? s = some text) :
    ofString text = s := by
  have hall : ∀ (s : PyStr) (cs : List Char), s.mapM char? = some cs → cs.map codePoint = s := by
    intro s
    induction s with
    | nil =>
      intro cs hcs
      cases hcs
      rfl
    | cons c s ih =>
      intro cs hcs
      rw [List.mapM_cons] at hcs
      cases hc : char? c with
      | none => simp [hc] at hcs
      | some d =>
        cases hs : s.mapM char? with
        | none => simp [hc, hs] at hcs
        | some ds =>
          simp only [hc, hs, Option.pure_def, Option.bind_eq_bind, Option.bind_some,
            Option.some.injEq] at hcs
          rw [← hcs, List.map_cons, codePoint_of_char? hc, ih ds hs]
  rw [text?, Option.map_eq_some_iff] at h
  obtain ⟨cs, hcs, rfl⟩ := h
  rw [ofString, String.toList_ofList, hall s cs hcs]

@[simp] theorem ofString_append (a b : String) : ofString (a ++ b) = ofString a ++ ofString b := by
  simp [ofString]

theorem ofString_inj {a b : String} (h : ofString a = ofString b) : a = b := by
  have htext := congrArg text? h
  simpa using htext

/-! ## Partition at the last separator -/

section

variable {α : Type} [DecidableEq α]

/-- `str.rpartition`: what is before the last separator, the separator, and what is after it;
without one, everything is after it. -/
def rpartition (sep : α) : List α → List α × List α × List α
  | [] => ([], [], [])
  | c :: cs =>
    match rpartition sep cs with
    | (_, [], tail) => if c = sep then ([], [sep], tail) else ([], [], c :: tail)
    | (head, found, tail) => (c :: head, found, tail)

theorem rpartition_none {sep : α} {cs : List α} (h : sep ∉ cs) :
    rpartition sep cs = ([], [], cs) := by
  induction cs with
  | nil => rfl
  | cons c cs ih =>
    obtain ⟨hne, hcs⟩ := not_or.mp (List.mem_cons.not.mp h)
    rw [rpartition, ih hcs]
    exact if_neg (Ne.symm hne)

theorem rpartition_append {sep : α} (head : List α) {tail : List α} (h : sep ∉ tail) :
    rpartition sep (head ++ sep :: tail) = (head, [sep], tail) := by
  induction head with
  | nil =>
    rw [List.nil_append, rpartition, rpartition_none h]
    exact if_pos rfl
  | cons c head ih => rw [List.cons_append, rpartition, ih]

/-- The parts make up the whole, with or without a separator. -/
theorem rpartition_parts (sep : α) (cs : List α) :
    ∃ head tail, sep ∉ tail ∧ (rpartition sep cs = (head, [sep], tail) ∧ cs = head ++ sep :: tail ∨
      rpartition sep cs = ([], [], tail) ∧ cs = tail) := by
  induction cs with
  | nil => exact ⟨[], [], List.not_mem_nil, .inr ⟨rfl, rfl⟩⟩
  | cons c cs ih =>
    obtain ⟨head, tail, htail, ⟨hparts, rfl⟩ | ⟨hparts, rfl⟩⟩ := ih
    · refine ⟨c :: head, tail, htail, .inl ⟨?_, rfl⟩⟩
      rw [rpartition, hparts]
    · rw [rpartition, hparts]
      by_cases hc : c = sep
      · exact ⟨[], cs, htail, .inl ⟨if_pos hc, by rw [hc]; rfl⟩⟩
      · refine ⟨[], c :: cs, ?_, .inr ⟨if_neg hc, rfl⟩⟩
        exact List.not_mem_cons_of_ne_of_not_mem (Ne.symm hc) htail

end

/-! ## Words -/

/-- `str.isspace` of one character. -/
def isSpace (c : Char) : Bool :=
  let n := c.toNat
  (9 ≤ n && n ≤ 13) || (28 ≤ n && n ≤ 32) || n == 0x85 || n == 0xa0 || n == 0x1680 ||
    (0x2000 ≤ n && n ≤ 0x200a) || n == 0x2028 || n == 0x2029 || n == 0x202f || n == 0x205f ||
    n == 0x3000

/-- The word read so far, if any, before the words of the rest. -/
def wordsFrom : List Char → List Char → List (List Char)
  | word, [] => if word = [] then [] else [word]
  | word, c :: cs =>
    if isSpace c then (if word = [] then [] else [word]) ++ wordsFrom [] cs
    else wordsFrom (word ++ [c]) cs

/-- `str.split()`: the maximal runs of characters that are no white space. -/
def words (cs : List Char) : List (List Char) := wordsFrom [] cs

/-- `" ".join(...)`. -/
def joinWords : List (List Char) → List Char
  | [] => []
  | [w] => w
  | w :: ws => w ++ ' ' :: joinWords ws

/-- White space at the end makes no word. -/
theorem wordsFrom_concat_space (word cs : List Char) {c : Char} (hc : isSpace c = true) :
    wordsFrom word (cs ++ [c]) = wordsFrom word cs := by
  induction cs generalizing word with
  | nil =>
    rw [List.nil_append, wordsFrom]
    simp only [hc, if_true, wordsFrom, List.append_nil]
  | cons d cs ih => rw [List.cons_append, wordsFrom, wordsFrom, ih, ih]

/-! ## `repr` -/

def apostrophe : Char := Char.ofNat 39

def quotationMark : Char := Char.ofNat 34

/-- `str.isprintable`, exactly up to U+00FF; all that lies beyond is taken for printable. -/
def isPrintable (c : Char) : Bool :=
  (0x20 ≤ c.toNat && c.toNat < 0x7f) || (0xa1 ≤ c.toNat && c.toNat != 0xad)

def reprChar (quote c : Char) : List Char :=
  if c = quote ∨ c = '\\' then ['\\', c]
  else if c = '\t' then ['\\', 't']
  else if c = '\n' then ['\\', 'n']
  else if c = '\r' then ['\\', 'r']
  else if isPrintable c then [c]
  else ['\\', 'x', Nat.digitChar (c.toNat / 16), Nat.digitChar (c.toNat % 16)]

/-- `repr` of a string: in apostrophes, unless it has one and no quotation mark. -/
def pyRepr (s : String) : String :=
  let quote := if s.toList.contains apostrophe && !s.toList.contains quotationMark
    then quotationMark else apostrophe
  String.ofList (quote :: s.toList.flatMap (reprChar quote) ++ [quote])

example : pyRepr "a\tb" = "'a\\tb'" ∧ (pyRepr "it's").toList.head? = some quotationMark := by decide

end DrStore.Base.PyText
