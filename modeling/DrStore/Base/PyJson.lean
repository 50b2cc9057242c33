import DrStore.Base.PyText
import Mathlib.Algebra.Ring.Int.Defs
import Mathlib.Algebra.Ring.Nat
import Mathlib.Order.Lattice

/-! # JSON values as Python holds them

`Json` keeps apart what a JSON text keeps apart (`true`, `1` and `1.0` are three values);
`pyEq` is Python's `==`, which does not: booleans, integers and floats compare by value,
at any depth. A dict is the list of its items in key order (`canonical`), since neither `==`
nor sorted-key text sees insertion order. `dumps` is the compact sorted-key text; the text
of a float is a parameter of it. -/
namespace DrStore.Base.PyJson
open DrStore.Base.PyText (pyRepr)

/-- A finite binary64 number, `mantissa * 2 ^ exponent`, negated when `neg`. -/
structure Double where
  neg : Bool
  mantissa : Nat
  exponent : Int
  normal : mantissa < 2 ^ 53 ∧ -1074 ≤ exponent ∧ exponent ≤ 971 ∧
    (2 ^ 52 ≤ mantissa ∨ exponent = -1074)
deriving DecidableEq

/-- The value in units of `2 ^ (-1074)`, of which every finite double is a multiple. -/
def Double.scaled (x : Double) : Int :=
  (if x.neg then -1 else 1) * (x.mantissa * 2 ^ (x.exponent + 1074).toNat)

inductive Json where
  | null
  | bool (b : Bool)
  | int (n : Int)
  | float (x : Double)
  | str (s : String)
  | arr (items : List Json)
  | obj (fields : List (String × Json))

/-- The numeric value, in units of `2 ^ (-1074)`. -/
def Json.numeric? : Json → Option Int
  | .bool b => some (if b then 2 ^ 1074 else 0)
  | .int n => some (n * 2 ^ 1074)
  | .float x => some x.scaled
  | _ => none

mutual

def pyEq : Json → Json → Bool
  | .null, w => match w with
    | .null => true
    | _ => false
  | .str s, w => match w with
    | .str t => s == t
    | _ => false
  | .arr xs, w => match w with
    | .arr ys => pyEqItems xs ys
    | _ => false
  | .obj fs, w => match w with
    | .obj gs => pyEqFields fs gs
    | _ => false
  | v, w => match v.numeric?, w.numeric? with
    | some a, some b => a == b
    | _, _ => false

def pyEqItems : List Json → List Json → Bool
  | [], ys => ys.isEmpty
  | x :: xs, ys => match ys with
    | [] => false
    | y :: ys => pyEq x y && pyEqItems xs ys

def pyEqFields : List (String × Json) → List (String × Json) → Bool
  | [], gs => gs.isEmpty
  | (k, v) :: fs, gs => match gs with
    | [] => false
    | (k', w) :: gs => k == k' && (pyEq v w && pyEqFields fs gs)

end

mutual

theorem pyEq_refl : ∀ v : Json, pyEq v v = true
  | .null => rfl
  | .bool b => by simp only [pyEq, Json.numeric?, beq_self_eq_true]
  | .int n => by simp only [pyEq, Json.numeric?, beq_self_eq_true]
  | .float x => by simp only [pyEq, Json.numeric?, beq_self_eq_true]
  | .str s => by simp [pyEq]
  | .arr xs => by simpa [pyEq] using pyEqItems_refl xs
  | .obj fs => by simpa [pyEq] using pyEqFields_refl fs

theorem pyEqItems_refl : ∀ xs : List Json, pyEqItems xs xs = true
  | [] => rfl
  | x :: xs => by simp [pyEqItems, pyEq_refl x, pyEqItems_refl xs]

theorem pyEqFields_refl : ∀ fs : List (String × Json), pyEqFields fs fs = true
  | [] => rfl
  | (k, v) :: fs => by simp [pyEqFields, pyEq_refl v, pyEqFields_refl fs]

end

/-! ## What `==` confuses -/

mutual

/-- Equal by value everywhere, and at some place two different representations of one number. -/
inductive Confused : Json → Json → Prop
  | number {v w : Json} {n : Int} : v.numeric? = some n → w.numeric? = some n → v ≠ w →
      Confused v w
  | arr {xs ys : List Json} : ConfusedItems xs ys → Confused (.arr xs) (.arr ys)
  | obj {fs gs : List (String × Json)} : ConfusedFields fs gs → Confused (.obj fs) (.obj gs)

inductive ConfusedItems : List Json → List Json → Prop
  | here {x y : Json} {xs ys : List Json} : Confused x y → pyEqItems xs ys = true →
      ConfusedItems (x :: xs) (y :: ys)
  | later {x y : Json} {xs ys : List Json} : pyEq x y = true → ConfusedItems xs ys →
      ConfusedItems (x :: xs) (y :: ys)

inductive ConfusedFields : List (String × Json) → List (String × Json) → Prop
  | here {k : String} {v w : Json} {fs gs : List (String × Json)} : Confused v w →
      pyEqFields fs gs = true → ConfusedFields ((k, v) :: fs) ((k, w) :: gs)
  | later {k : String} {v w : Json} {fs gs : List (String × Json)} : pyEq v w = true →
      ConfusedFields fs gs → ConfusedFields ((k, v) :: fs) ((k, w) :: gs)

end

theorem pyEq_number {v w : Json} {n : Int} (hv : v.numeric? = some n) (hw : w.numeric? = some n) :
    pyEq v w = true := by
  cases v with
  | null | str | arr | obj => cases hv
  | bool | int | float => simp [pyEq, hv, hw]

mutual

theorem Confused.sound : ∀ {v w : Json}, Confused v w → pyEq v w = true ∧ v ≠ w
  | _, _, .number hv hw hne => ⟨pyEq_number hv hw, hne⟩
  | _, _, .arr h => ⟨by rw [pyEq]; exact h.sound.1, fun heq => h.sound.2 (Json.arr.inj heq)⟩
  | _, _, .obj h => ⟨by rw [pyEq]; exact h.sound.1, fun heq => h.sound.2 (Json.obj.inj heq)⟩

theorem ConfusedItems.sound : ∀ {xs ys : List Json}, ConfusedItems xs ys →
    pyEqItems xs ys = true ∧ xs ≠ ys
  | _, _, .here h hrest =>
    ⟨by simp [pyEqItems, h.sound.1, hrest], fun heq => h.sound.2 (List.cons.inj heq).1⟩
  | _, _, .later hx h =>
    ⟨by simp [pyEqItems, hx, h.sound.1], fun heq => h.sound.2 (List.cons.inj heq).2⟩

theorem ConfusedFields.sound : ∀ {fs gs : List (String × Json)}, ConfusedFields fs gs →
    pyEqFields fs gs = true ∧ fs ≠ gs
  | _, _, .here h hrest => ⟨by simp [pyEqFields, h.sound.1, hrest], fun heq =>
      h.sound.2 (Prod.mk.inj (List.cons.inj heq).1).2⟩
  | _, _, .later hv h =>
    ⟨by simp [pyEqFields, hv, h.sound.1], fun heq => h.sound.2 (List.cons.inj heq).2⟩

end

/-- Two values of which neither is a list or a dict. -/
theorem Confused.of_scalar {v w : Json} (heq : (match v.numeric?, w.numeric? with
    | some a, some b => a == b
    | _, _ => false) = true) (hne : v ≠ w) : Confused v w := by
  cases hv : v.numeric? with
  | none => simp [hv] at heq
  | some a =>
    cases hw : w.numeric? with
    | none => simp [hv, hw] at heq
    | some b =>
      simp only [hv, hw, beq_iff_eq] at heq
      subst heq
      exact .number hv hw hne

mutual

theorem Confused.complete : ∀ {v w : Json}, pyEq v w = true → v ≠ w → Confused v w
  | .null, w, heq, hne => by cases w <;> simp_all [pyEq]
  | .str s, w, heq, hne => by cases w <;> simp_all [pyEq]
  | .bool b, w, heq, hne => .of_scalar heq hne
  | .int n, w, heq, hne => .of_scalar heq hne
  | .float x, w, heq, hne => .of_scalar heq hne
  | .arr xs, w, heq, hne => by
    cases w with
    | arr ys =>
      exact .arr (ConfusedItems.complete (by simpa [pyEq] using heq) fun h => hne (by rw [h]))
    | null | bool | int | float | str | obj => simp [pyEq] at heq
  | .obj fs, w, heq, hne => by
    cases w with
    | obj gs =>
      exact .obj (ConfusedFields.complete (by simpa [pyEq] using heq) fun h => hne (by rw [h]))
    | null | bool | int | float | str | arr => simp [pyEq] at heq

theorem ConfusedItems.complete : ∀ {xs ys : List Json}, pyEqItems xs ys = true → xs ≠ ys →
    ConfusedItems xs ys
  | [], ys, heq, hne => by
    cases ys with
    | nil => exact absurd rfl hne
    | cons y ys => simp [pyEqItems] at heq
  | x :: xs, ys, heq, hne => by
    cases ys with
    | nil => simp [pyEqItems] at heq
    | cons y ys =>
      simp only [pyEqItems, Bool.and_eq_true] at heq
      by_cases hx : x = y
      · subst hx
        exact .later heq.1 (ConfusedItems.complete heq.2 fun h => hne (by rw [h]))
      · exact .here (Confused.complete heq.1 hx) heq.2

theorem ConfusedFields.complete : ∀ {fs gs : List (String × Json)}, pyEqFields fs gs = true →
    fs ≠ gs → ConfusedFields fs gs
  | [], gs, heq, hne => by
    cases gs with
    | nil => exact absurd rfl hne
    | cons g gs => simp [pyEqFields] at heq
  | (k, v) :: fs, gs, heq, hne => by
    cases gs with
    | nil => simp [pyEqFields] at heq
    | cons g gs =>
      obtain ⟨k', w⟩ := g
      simp only [pyEqFields, Bool.and_eq_true, beq_iff_eq] at heq
      obtain ⟨rfl, hv, hrest⟩ := heq
      by_cases hvw : v = w
      · subst hvw
        exact .later hv (ConfusedFields.complete hrest fun h => hne (by rw [h]))
      · exact .here (Confused.complete hv hvw) hrest

end

/-- **What `==` takes for equal though it is not**: one number in two representations, somewhere. -/
theorem confused_iff {v w : Json} : Confused v w ↔ pyEq v w = true ∧ v ≠ w :=
  ⟨Confused.sound, fun h => Confused.complete h.1 h.2⟩

/-! ## Dicts in key order -/

def sortedKeys : List String → Bool
  | [] => true
  | [_] => true
  | a :: b :: rest => decide (a < b) && sortedKeys (b :: rest)

mutual

def Json.canonical : Json → Bool
  | .arr xs => canonicalItems xs
  | .obj fs => sortedKeys (fs.map Prod.fst) && canonicalFields fs
  | _ => true

def canonicalItems : List Json → Bool
  | [] => true
  | x :: xs => x.canonical && canonicalItems xs

def canonicalFields : List (String × Json) → Bool
  | [] => true
  | (_, v) :: fs => v.canonical && canonicalFields fs

end

/-- A dict with string keys. -/
structure JsonObject where
  fields : List (String × Json)
  canonical : (Json.obj fields).canonical = true

/-! ## Text -/

def hexDigit (n : Nat) : Char := Nat.digitChar (n % 16)

def escapeChar (c : Char) : List Char :=
  if c = '"' then ['\\', '"']
  else if c = '\\' then ['\\', '\\']
  else if c = '\n' then ['\\', 'n']
  else if c = '\r' then ['\\', 'r']
  else if c = '\t' then ['\\', 't']
  else if c = Char.ofNat 12 then ['\\', 'f']
  else if c = Char.ofNat 8 then ['\\', 'b']
  else if c.toNat < 32 then ['\\', 'u', '0', '0', hexDigit (c.toNat / 16), hexDigit c.toNat]
  else [c]

def quoted (s : String) : List Char := '"' :: (s.toList.flatMap escapeChar ++ ['"'])

def intText (n : Int) : List Char :=
  if n < 0 then '-' :: Nat.toDigits 10 n.natAbs else Nat.toDigits 10 n.natAbs

mutual

/-- The compact text of a value, with `repr` for the text of a float. -/
def valueText (repr : Double → List Char) : Json → List Char
  | .null => "null".toList
  | .bool b => if b then "true".toList else "false".toList
  | .int n => intText n
  | .float x => repr x
  | .str s => quoted s
  | .arr xs => '[' :: itemsText repr xs
  | .obj fs => '\x7b' :: fieldsText repr fs

def itemsText (repr : Double → List Char) : List Json → List Char
  | [] => [']']
  | x :: xs => valueText repr x ++ (if xs.isEmpty then itemsText repr xs else ',' :: itemsText repr xs)

def fieldsText (repr : Double → List Char) : List (String × Json) → List Char
  | [] => ['\x7d']
  | (k, v) :: fs => quoted k ++ ':' :: (valueText repr v ++
      (if fs.isEmpty then fieldsText repr fs else ',' :: fieldsText repr fs))

end

mutual

/-- `repr` of a value, with `repr` for the text of a float. -/
def reprValue (repr : Double → List Char) : Json → String
  | .null => "None"
  | .bool b => if b then "True" else "False"
  | .int n => String.ofList (intText n)
  | .float x => String.ofList (repr x)
  | .str s => pyRepr s
  | .arr xs => "[" ++ ", ".intercalate (reprItems repr xs) ++ "]"
  | .obj fs => "\x7b" ++ ", ".intercalate (reprFields repr fs) ++ "\x7d"

def reprItems (repr : Double → List Char) : List Json → List String
  | [] => []
  | x :: xs => reprValue repr x :: reprItems repr xs

def reprFields (repr : Double → List Char) : List (String × Json) → List String
  | [] => []
  | (k, v) :: fs => (pyRepr k ++ ": " ++ reprValue repr v) :: reprFields repr fs

end

def dumps (repr : Double → List Char) (v : Json) : String := String.ofList (valueText repr v)

/-- Python keeps `true`, `1` and `1.0` equal; their texts differ. -/
example : pyEq (.obj [("a", .bool true)]) (.obj [("a", .int 1)]) = true ∧
    dumps (fun _ => []) (.obj [("a", .bool true)]) ≠ dumps (fun _ => []) (.obj [("a", .int 1)]) := by
  decide +kernel

end DrStore.Base.PyJson
