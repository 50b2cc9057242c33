import Mathlib.Algebra.Ring.Int.Defs
import Mathlib.Data.Int.Order.Basic
import Mathlib.Order.Lattice
import Mathlib.Tactic.Common

/-! # Fenced leases, abstractly

One cell guards one piece of work. It is empty, held under a grant (holder,
fence, expiry) or done with an outcome. `Move now` is everything that may happen
to it at time `now`: nothing, a first grant at fence 1, an extension of the live
grant, a takeover of an expired one at the next fence, or completion. The clock
is not assumed monotone: each move only compares its own `now`.

All safety facts are read off one partial order: `Below` is climbed by every
move, so a cell that has been left never comes back (`Below.antisymm`). -/
namespace DrStore.Base.FencedLease

variable {Work Holder Time Outcome : Type}

structure Grant (Work Holder Time : Type) where
  work : Work
  holder : Holder
  fence : Int
  expiry : Time

inductive Cell (Work Holder Time Outcome : Type) where
  | held (g : Grant Work Holder Time)
  | done (work : Work) (fence : Int) (outcome : Outcome)

def Cell.fence : Cell Work Holder Time Outcome → Int
  | .held g => g.fence
  | .done _ f _ => f

def Cell.work : Cell Work Holder Time Outcome → Work
  | .held g => g.work
  | .done w _ _ => w

variable [LinearOrder Time]

inductive Move (now : Time) :
    Option (Cell Work Holder Time Outcome) → Option (Cell Work Holder Time Outcome) → Prop
  | stay (c) : Move now c c
  | grant (w : Work) (h : Holder) (e : Time) :
      Move now none (some (.held ⟨w, h, 1, e⟩))
  | extend (g : Grant Work Holder Time) (e : Time) : now < g.expiry → g.expiry < e →
      Move now (some (.held g)) (some (.held { g with expiry := e }))
  | takeover (g : Grant Work Holder Time) (h : Holder) (e : Time) : g.expiry ≤ now → now < e →
      Move now (some (.held g)) (some (.held ⟨g.work, h, g.fence + 1, e⟩))
  | finish (g : Grant Work Holder Time) (o : Outcome) :
      Move now (some (.held g)) (some (.done g.work g.fence o))

/-- A later grant on the same cell: a higher fence with a later expiry, or the
same fence and holder with an expiry at least as late. -/
def Grant.Below (g g' : Grant Work Holder Time) : Prop :=
  g.work = g'.work ∧
    ((g.fence < g'.fence ∧ g.expiry < g'.expiry) ∨
      (g.fence = g'.fence ∧ g.holder = g'.holder ∧ g.expiry ≤ g'.expiry))

def Below : Option (Cell Work Holder Time Outcome) → Option (Cell Work Holder Time Outcome) → Prop
  | none, _ => True
  | some (.held g), some (.held g') => g.Below g'
  | some (.held g), some (.done w f _) => g.work = w ∧ g.fence ≤ f
  | some (.done w f o), c => c = some (.done w f o)
  | some (.held _), none => False

theorem Grant.Below.refl (g : Grant Work Holder Time) : g.Below g :=
  ⟨rfl, Or.inr ⟨rfl, rfl, le_refl _⟩⟩

theorem Grant.Below.trans {a b c : Grant Work Holder Time} (hab : a.Below b)
    (hbc : b.Below c) : a.Below c := by
  obtain ⟨hw, hab⟩ := hab
  obtain ⟨hw', hbc⟩ := hbc
  refine ⟨hw.trans hw', ?_⟩
  rcases hab with ⟨hf, he⟩ | ⟨hf, hh, he⟩ <;> rcases hbc with ⟨hf', he'⟩ | ⟨hf', hh', he'⟩
  · exact Or.inl ⟨by omega, lt_trans he he'⟩
  · exact Or.inl ⟨by omega, lt_of_lt_of_le he he'⟩
  · exact Or.inl ⟨by omega, lt_of_le_of_lt he he'⟩
  · exact Or.inr ⟨hf.trans hf', hh.trans hh', le_trans he he'⟩

theorem Grant.Below.antisymm {a b : Grant Work Holder Time} (hab : a.Below b)
    (hba : b.Below a) : a = b := by
  obtain ⟨hw, hab⟩ := hab
  obtain ⟨-, hba⟩ := hba
  rcases hab with ⟨hf, -⟩ | ⟨hf, hh, he⟩
  · rcases hba with ⟨hf', -⟩ | ⟨hf', -⟩ <;> omega
  · rcases hba with ⟨hf', -⟩ | ⟨-, -, he'⟩
    · omega
    · cases a; cases b
      simp only at hw hf hh he he'
      rw [hw, hf, hh, le_antisymm he he']

theorem Below.refl (c : Option (Cell Work Holder Time Outcome)) : Below c c := by
  match c with
  | none => trivial
  | some (.held g) => exact Grant.Below.refl g
  | some (.done _ _ _) => rfl

theorem Below.trans {a b c : Option (Cell Work Holder Time Outcome)} (hab : Below a b)
    (hbc : Below b c) : Below a c := by
  match a, b, c with
  | none, _, _ => trivial
  | some (.held _), none, _ => exact hab.elim
  | some (.held _), some (.held _), none => exact hbc.elim
  | some (.held _), some (.held _), some (.held _) => exact Grant.Below.trans hab hbc
  | some (.held a), some (.held b), some (.done w f o) =>
    obtain ⟨hw, hf⟩ := hab
    obtain ⟨hw', hf'⟩ : b.work = w ∧ b.fence ≤ f := hbc
    refine ⟨hw.trans hw', ?_⟩
    rcases hf with ⟨hf, -⟩ | ⟨hf, -⟩ <;> omega
  | some (.held _), some (.done _ _ _), c =>
    rw [show c = _ from hbc]
    exact hab
  | some (.done _ _ _), b, c =>
    rw [show b = _ from hab] at hbc
    exact hbc

theorem Below.antisymm {a b : Option (Cell Work Holder Time Outcome)} (hab : Below a b)
    (hba : Below b a) : a = b := by
  match a, b with
  | none, none => rfl
  | none, some (.held _) => exact hba.elim
  | none, some (.done _ _ _) => cases hba
  | some (.held _), none => exact hab.elim
  | some (.held _), some (.held _) => rw [Grant.Below.antisymm hab hba]
  | some (.held _), some (.done _ _ _) => cases hba
  | some (.done _ _ _), b => exact (show b = _ from hab).symm

theorem Move.below {now : Time} {a b : Option (Cell Work Holder Time Outcome)}
    (h : Move now a b) : Below a b := by
  cases h with
  | stay => exact Below.refl _
  | grant => trivial
  | extend g e _ he => exact ⟨rfl, Or.inr ⟨rfl, rfl, le_of_lt he⟩⟩
  | takeover g h e ht he => exact ⟨rfl, Or.inl ⟨Int.lt_succ g.fence, lt_of_le_of_lt ht he⟩⟩
  | finish g o => exact ⟨rfl, le_refl _⟩

/-- Fences only grow. -/
theorem Below.fence_le {a b : Cell Work Holder Time Outcome} (h : Below (some a) (some b)) :
    a.fence ≤ b.fence := by
  match a, b with
  | .held _, .held _ =>
    rcases h.2 with ⟨hf, -⟩ | ⟨hf, -⟩
    · exact le_of_lt hf
    · exact le_of_eq hf
  | .held _, .done _ _ _ => exact h.2
  | .done _ _ _, _ => cases h; exact le_refl _

/-- At one fence there is one holder. -/
theorem Below.holder_eq {g g' : Grant Work Holder Time}
    (h : @Below Work Holder Time Outcome _ (some (.held g)) (some (.held g'))) (hf : g.fence = g'.fence) :
    g.holder = g'.holder := by
  rcases h.2 with ⟨hlt, -⟩ | ⟨-, hh, -⟩
  · omega
  · exact hh

theorem Below.expiry_le {g g' : Grant Work Holder Time}
    (h : @Below Work Holder Time Outcome _ (some (.held g)) (some (.held g'))) :
    g.expiry ≤ g'.expiry := by
  rcases h.2 with ⟨-, he⟩ | ⟨-, -, he⟩
  · exact le_of_lt he
  · exact he

/-- The first fence is 1. -/
theorem Move.first_fence {now : Time} {b : Cell Work Holder Time Outcome}
    (h : Move now none (some b)) : b.fence = 1 := by
  cases h
  rfl

end DrStore.Base.FencedLease
