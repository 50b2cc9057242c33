import Mathlib.Algebra.Ring.Int.Defs
import Mathlib.Algebra.Ring.Nat
import Mathlib.Order.Lattice
import Mathlib.Data.Nat.Basic
import Mathlib.Tactic.Common

/-! # UTC datetimes at microsecond resolution

A datetime of the proleptic Gregorian calendar, years 1 to 9999, kept as the
number of microseconds since 0001-01-01T00:00:00. The ordinal arithmetic
(`ordToYmd`, `ymdToOrd`) is the usual 400/100/4/1-year decomposition. The text form is
`YYYY-MM-DDTHH:MM:SS.ffffff+00:00`; `readIso_isoformat` says that reading it back gives
the same datetime, for every datetime. -/
namespace DrStore.Base.Calendar

/-! ## Years, months and ordinals -/

def isLeap (year : Nat) : Bool := year % 4 == 0 && (year % 100 != 0 || year % 400 == 0)

/-- Days before January 1st of `year`. -/
def daysBeforeYear (year : Nat) : Nat :=
  (year - 1) * 365 + (year - 1) / 4 - (year - 1) / 100 + (year - 1) / 400

/-- Days before the first of `month` in its year. -/
def daysBeforeMonth (leap : Bool) (month : Nat) : Nat :=
  [0, 0, 31, 59, 90, 120, 151, 181, 212, 243, 273, 304, 334].getD month 0 +
    (if leap && 2 < month then 1 else 0)

def daysInMonth (leap : Bool) (month : Nat) : Nat :=
  [0, 31, 28, 31, 30, 31, 30, 31, 31, 30, 31, 30, 31].getD month 0 +
    (if leap && month == 2 then 1 else 0)

def ymdToOrd (year month day : Nat) : Nat :=
  daysBeforeYear year + daysBeforeMonth (isLeap year) month + day

/-- Month and day of the 0-based day `n` of a year. The estimate `(n + 50) / 32` is right or
one too high. -/
def monthDay (leap : Bool) (n : Nat) : Nat × Nat :=
  let month := (n + 50) / 32
  if n < daysBeforeMonth leap month then (month - 1, n - daysBeforeMonth leap (month - 1) + 1)
  else (month, n - daysBeforeMonth leap month + 1)

def ordToYmd (ordinal : Nat) : Nat × Nat × Nat :=
  let n := ordinal - 1
  let n400 := n / 146097
  let n100 := n % 146097 / 36524
  let n4 := n % 146097 % 36524 / 1461
  let n1 := n % 146097 % 36524 % 1461 / 365
  let year := n400 * 400 + n100 * 100 + n4 * 4 + n1 + 1
  if n1 = 4 ∨ n100 = 4 then (year - 1, 12, 31)
  else
    let leap := n1 == 3 && (n4 != 24 || n100 == 3)
    (year, monthDay leap (n % 146097 % 36524 % 1461 % 365))

def maxOrdinal : Nat := 3652059

def validDate (year month day : Nat) : Bool :=
  1 ≤ year && year ≤ 9999 && 1 ≤ month && month ≤ 12 && 1 ≤ day &&
    day ≤ daysInMonth (isLeap year) month

theorem monthDay_spec : ∀ (leap : Bool) (n : Fin (if leap then 366 else 365)),
    (1 ≤ (monthDay leap n).1 ∧ (monthDay leap n).1 ≤ 12) ∧
    (1 ≤ (monthDay leap n).2 ∧ (monthDay leap n).2 ≤ daysInMonth leap (monthDay leap n).1) ∧
    daysBeforeMonth leap (monthDay leap n).1 + (monthDay leap n).2 = n.val + 1 := by
  decide +kernel

/-- The year that lies `a`, `b`, `c`, `d` whole cycles of 400, 100, 4 and 1 years after year 1. -/
theorem daysBeforeYear_cycles {a b c d : Nat} (hb : b < 4) (hc : c < 25) (hd : d < 4) :
    daysBeforeYear (a * 400 + b * 100 + c * 4 + d + 1) =
      a * 146097 + b * 36524 + c * 1461 + d * 365 ∧
    isLeap (a * 400 + b * 100 + c * 4 + d + 1) = (d == 3 && (c != 24 || b == 3)) := by
  constructor
  · have h4 : (a * 400 + b * 100 + c * 4 + d) / 4 = a * 100 + b * 25 + c := by omega
    have h100 : (a * 400 + b * 100 + c * 4 + d) / 100 = a * 4 + b := by omega
    have h400 : (a * 400 + b * 100 + c * 4 + d) / 400 = a := by omega
    rw [daysBeforeYear, Nat.add_sub_cancel, h4, h100, h400]
    omega
  · rw [Bool.eq_iff_iff]
    simp only [isLeap, Bool.and_eq_true, Bool.or_eq_true, beq_iff_eq, bne_iff_ne, ne_eq]
    omega

/-- The last day of a leap cycle is December 31st of the leap year that ends it. -/
theorem ymdToOrd_cycle_end {a b c d : Nat} (h : (b = 4 ∧ c = 0 ∧ d = 0) ∨ (b < 4 ∧ c < 25 ∧ d = 4 ∧
    (c ≠ 24 ∨ b = 3))) (hn : a * 146097 + b * 36524 + c * 1461 + d * 365 < maxOrdinal) :
    validDate (a * 400 + b * 100 + c * 4 + d) 12 31 = true ∧
    ymdToOrd (a * 400 + b * 100 + c * 4 + d) 12 31 =
      a * 146097 + b * 36524 + c * 1461 + d * 365 + 1 := by
  -- the same year, counted as the fourth year of its last complete cycle
  obtain ⟨b', c', hb, hc, hl, hy, hsum⟩ : ∃ b' c', b' < 4 ∧ c' < 25 ∧ (c' ≠ 24 ∨ b' = 3) ∧
      a * 400 + b * 100 + c * 4 + d = a * 400 + b' * 100 + c' * 4 + 3 + 1 ∧
      a * 146097 + b' * 36524 + c' * 1461 + 3 * 365 + 366 =
        a * 146097 + b * 36524 + c * 1461 + d * 365 + 1 := by
    rcases h with ⟨rfl, rfl, rfl⟩ | ⟨hb, hc, rfl, hl⟩
    · exact ⟨3, 24, by omega, by omega, by omega, by omega, by omega⟩
    · exact ⟨b, c, hb, hc, hl, by omega, by omega⟩
  obtain ⟨hdays, hleap⟩ := daysBeforeYear_cycles (a := a) (d := 3) hb hc (by omega)
  have hleap' : isLeap (a * 400 + b' * 100 + c' * 4 + 3 + 1) = true := by
    rw [hleap]
    simpa using hl
  rw [hy]
  have hyear : a * 400 + b' * 100 + c' * 4 + 3 + 1 ≤ 9999 := by
    unfold maxOrdinal at hn
    omega
  refine ⟨?_, ?_⟩
  · simp only [validDate, hleap', Bool.and_eq_true, decide_eq_true_eq]
    exact ⟨⟨⟨⟨⟨by omega, hyear⟩, by decide⟩, by decide⟩, by decide⟩, by decide⟩
  · rw [ymdToOrd, hdays, hleap', ← hsum, show daysBeforeMonth true 12 = 335 by decide]

/-- The cycle counts of a day number and the days left over. -/
theorem cycle_split (n : Nat) : ∃ a b c d r : Nat,
    (a = n / 146097 ∧ b = n % 146097 / 36524 ∧ c = n % 146097 % 36524 / 1461 ∧
      d = n % 146097 % 36524 % 1461 / 365 ∧ r = n % 146097 % 36524 % 1461 % 365) ∧
    n = a * 146097 + b * 36524 + c * 1461 + d * 365 + r ∧ b ≤ 4 ∧ c ≤ 24 ∧ d ≤ 4 ∧ r < 365 ∧
    (b = 4 ∨ d = 4 → r = 0 ∧ ((b = 4 ∧ c = 0 ∧ d = 0) ∨
      (b < 4 ∧ c < 25 ∧ d = 4 ∧ (c ≠ 24 ∨ b = 3)))) := by
  refine ⟨_, _, _, _, _, ⟨rfl, rfl, rfl, rfl, rfl⟩, ?_, ?_, ?_, ?_, ?_, ?_⟩ <;> omega

theorem ordToYmd_valid (ordinal : Nat) (h1 : 1 ≤ ordinal) (h2 : ordinal ≤ maxOrdinal) :
    validDate (ordToYmd ordinal).1 (ordToYmd ordinal).2.1 (ordToYmd ordinal).2.2 = true ∧
    ymdToOrd (ordToYmd ordinal).1 (ordToYmd ordinal).2.1 (ordToYmd ordinal).2.2 = ordinal := by
  obtain ⟨n, rfl⟩ : ∃ n, ordinal = n + 1 := ⟨ordinal - 1, by omega⟩
  have hn : n < maxOrdinal := h2
  obtain ⟨a, b, c, d, r, ⟨ha, hb, hc, hd, hr⟩, hsum, hb4, hc24, hd4, hr365, hend⟩ := cycle_split n
  simp only [ordToYmd, Nat.add_sub_cancel, ← ha, ← hb, ← hc, ← hd, ← hr]
  clear ha hb hc hd hr h1 h2
  split
  · rename_i h
    obtain ⟨rfl, hcases⟩ := hend h.symm
    rw [Nat.add_zero] at hsum
    obtain ⟨hv, ho⟩ := ymdToOrd_cycle_end hcases (hsum ▸ hn)
    exact ⟨hv, by rw [hsum]; exact ho⟩
  · rename_i h
    obtain ⟨hdays, hleap⟩ := daysBeforeYear_cycles (a := a) (b := b) (c := c) (d := d) (by omega)
      (by omega) (by omega)
    rw [← hleap]
    have hyear : a * 400 + b * 100 + c * 4 + d + 1 ≤ 9999 := by
      unfold maxOrdinal at hn
      omega
    obtain ⟨hm, hday, hmd⟩ := monthDay_spec (isLeap (a * 400 + b * 100 + c * 4 + d + 1))
      ⟨r, by split <;> omega⟩
    refine ⟨?_, ?_⟩
    · simp only [validDate, Bool.and_eq_true, decide_eq_true_eq]
      exact ⟨⟨⟨⟨⟨Nat.le_add_left 1 _, hyear⟩, hm.1⟩, hm.2⟩, hday.1⟩, hday.2⟩
    · rw [ymdToOrd, Nat.add_assoc, hmd, hdays, hsum]
      exact (Nat.add_assoc _ r 1).symm

/-! ## Datetimes -/

def microsPerDay : Nat := 86400000000

/-- One instant, in microseconds since 0001-01-01T00:00:00 UTC. -/
structure Datetime where
  micros : Nat
  inRange : micros < maxOrdinal * microsPerDay
deriving DecidableEq

theorem Datetime.ext {a b : Datetime} (h : a.micros = b.micros) : a = b := by
  cases a; cases b; simp_all

instance : LinearOrder Datetime :=
  LinearOrder.lift' Datetime.micros fun _ _ => Datetime.ext

theorem Datetime.lt_def {a b : Datetime} : a < b ↔ a.micros < b.micros := Iff.rfl

/-- `a + delta` where it is a datetime: the sum overflows outside years 1 to 9999. -/
def Datetime.add? (a : Datetime) (delta : Int) : Option Datetime :=
  if h : 0 ≤ a.micros + delta ∧ ((a.micros : Int) + delta).toNat < maxOrdinal * microsPerDay then
    some ⟨((a.micros : Int) + delta).toNat, h.2⟩
  else none

theorem Datetime.add?_lt {a b : Datetime} {delta : Int} (h : a.add? delta = some b)
    (hd : 0 < delta) : a < b := by
  unfold Datetime.add? at h
  split at h
  · cases h
    rw [Datetime.lt_def]
    simp only
    omega
  · cases h

/-! ## Text -/

def digit (n : Nat) : Char := Char.ofNat (48 + n % 10)

def digitVal? (c : Char) : Option Nat :=
  if 48 ≤ c.toNat ∧ c.toNat ≤ 57 then some (c.toNat - 48) else none

theorem digitVal?_digit (n : Nat) : digitVal? (digit n) = some (n % 10) := by
  have key : ∀ d < 10, digitVal? (Char.ofNat (48 + d)) = some d := by decide
  exact key _ (Nat.mod_lt _ (by omega))

/-- The last `width` decimal digits of `n`, zero-padded. -/
def padded : Nat → Nat → List Char
  | 0, _ => []
  | width + 1, n => padded width (n / 10) ++ [digit n]

def number? (cs : List Char) : Option Nat :=
  cs.foldlM (fun acc c => (digitVal? c).map (acc * 10 + ·)) 0

theorem padded_length : ∀ (width n : Nat), (padded width n).length = width
  | 0, _ => rfl
  | width + 1, n => by simp [padded, padded_length width]

theorem number?_padded : ∀ (width n : Nat), number? (padded width n) = some (n % 10 ^ width)
  | 0, n => by simp [number?, padded, Nat.mod_one]
  | width + 1, n => by
    have ih := number?_padded width (n / 10)
    simp only [number?] at ih
    simp only [number?, padded, List.foldlM_append, ih, List.foldlM_cons, List.foldlM_nil,
      digitVal?_digit]
    simp only [Option.bind_eq_bind, Option.bind_some, Option.map_some, Option.pure_def,
      Option.some.injEq]
    rw [Nat.pow_succ, Nat.mul_comm (10 ^ width) 10, Nat.mod_mul]
    omega

/-- Read exactly `width` digits. -/
def readNumber (width : Nat) (cs : List Char) : Option (Nat × List Char) :=
  if (cs.take width).length = width then (number? (cs.take width)).map (·, cs.drop width)
  else none

def readChar (c : Char) : List Char → Option (List Char)
  | [] => none
  | d :: rest => if d = c then some rest else none

theorem readNumber_padded {width n : Nat} (h : n < 10 ^ width) (rest : List Char) :
    readNumber width (padded width n ++ rest) = some (n, rest) := by
  have hl := padded_length width n
  have htake : (padded width n ++ rest).take width = padded width n := List.take_left' hl
  have hdrop : (padded width n ++ rest).drop width = rest := List.drop_left' hl
  simp [readNumber, htake, hdrop, hl, number?_padded, Nat.mod_eq_of_lt h]

@[simp] theorem readChar_cons (c : Char) (rest : List Char) : readChar c (c :: rest) = some rest :=
  if_pos rfl

/-- The text of a datetime with microseconds always present. -/
def Datetime.isoformat (t : Datetime) : String :=
  let date := ordToYmd (t.micros / microsPerDay + 1)
  let time := t.micros % microsPerDay
  String.ofList (padded 4 date.1 ++ '-' :: (padded 2 date.2.1 ++ '-' :: (padded 2 date.2.2 ++
    'T' :: (padded 2 (time / 3600000000) ++ ':' :: (padded 2 (time / 60000000 % 60) ++
      ':' :: (padded 2 (time / 1000000 % 60) ++ '.' :: (padded 6 (time % 1000000) ++
        ['+', '0', '0', ':', '0', '0'])))))))

/-- Read the text that `isoformat` writes; other spellings of a datetime are not read here. -/
def readIso (text : String) : Option Datetime := do
  let (year, cs) ← readNumber 4 text.toList
  let cs ← readChar '-' cs
  let (month, cs) ← readNumber 2 cs
  let cs ← readChar '-' cs
  let (day, cs) ← readNumber 2 cs
  let cs ← readChar 'T' cs
  let (hour, cs) ← readNumber 2 cs
  let cs ← readChar ':' cs
  let (minute, cs) ← readNumber 2 cs
  let cs ← readChar ':' cs
  let (second, cs) ← readNumber 2 cs
  let cs ← readChar '.' cs
  let (micro, cs) ← readNumber 6 cs
  if cs = ['+', '0', '0', ':', '0', '0'] ∧ validDate year month day = true ∧ hour < 24 ∧
      minute < 60 ∧ second < 60 then
    let micros := (ymdToOrd year month day - 1) * microsPerDay +
      (((hour * 60 + minute) * 60 + second) * 1000000 + micro)
    if h : micros < maxOrdinal * microsPerDay then some ⟨micros, h⟩ else none
  else none

theorem validDate_bounds {year month day : Nat} (h : validDate year month day = true) :
    year < 10 ^ 4 ∧ month < 10 ^ 2 ∧ day < 10 ^ 2 := by
  simp only [validDate, Bool.and_eq_true, decide_eq_true_eq] at h
  obtain ⟨⟨⟨⟨⟨_, hy⟩, _⟩, hm⟩, _⟩, hd⟩ := h
  have hdim : ∀ leap : Bool, ∀ m < 13, daysInMonth leap m ≤ 31 := by decide
  have := hdim (isLeap year) month (by omega)
  omega

/-- **Reading back what `isoformat` wrote gives the datetime.** -/
theorem readIso_isoformat (t : Datetime) : readIso t.isoformat = some t := by
  have hr := t.inRange
  have hd : 0 < microsPerDay := by decide
  have hord : t.micros / microsPerDay < maxOrdinal :=
    Nat.div_lt_of_lt_mul (by rwa [Nat.mul_comm])
  obtain ⟨hvalid, hback⟩ := ordToYmd_valid (t.micros / microsPerDay + 1) (Nat.le_add_left 1 _) hord
  obtain ⟨hy, hm, hday⟩ := validDate_bounds hvalid
  have htime : t.micros % microsPerDay < microsPerDay := Nat.mod_lt _ hd
  have hsplit := Nat.div_add_mod t.micros microsPerDay
  simp only [readIso, Datetime.isoformat, String.toList_ofList, Option.bind_eq_bind]
  generalize t.micros % microsPerDay = time at *
  unfold microsPerDay at htime
  rw [readNumber_padded hy, Option.bind_some, readChar_cons, Option.bind_some, readNumber_padded hm,
    Option.bind_some, readChar_cons, Option.bind_some, readNumber_padded hday, Option.bind_some,
    readChar_cons, Option.bind_some, readNumber_padded (by omega), Option.bind_some, readChar_cons,
    Option.bind_some, readNumber_padded (by omega), Option.bind_some, readChar_cons, Option.bind_some,
    readNumber_padded (by omega), Option.bind_some, readChar_cons, Option.bind_some,
    readNumber_padded (by omega), Option.bind_some]
  have hmicros : (ymdToOrd (ordToYmd (t.micros / microsPerDay + 1)).1
        (ordToYmd (t.micros / microsPerDay + 1)).2.1 (ordToYmd (t.micros / microsPerDay + 1)).2.2
        - 1) * microsPerDay +
      (((time / 3600000000 * 60 + time / 60000000 % 60) * 60 + time / 1000000 % 60) * 1000000 +
        time % 1000000) = t.micros := by
    rw [hback, Nat.add_sub_cancel, Nat.mul_comm, ← hsplit]
    congr 1
    · rw [hsplit]
    · omega
  rw [if_pos ⟨rfl, hvalid, by omega, by omega, by omega⟩]
  simp only [hmicros, hr, dite_true]

-- from here on the two are used through the round trip only
attribute [irreducible] Datetime.isoformat readIso

end DrStore.Base.Calendar
