import Mathlib.Tactic.Common

/-! # Rows with uncommitted changes

A row is what is committed, and at most one change that a transaction has made and not yet
committed. A transaction sees its own change and otherwise what is committed. Its writes go
to rows that no other transaction has changed, so they are invisible to the others until it
commits, and a rollback was never visible. -/
namespace DrStore.Base.Versions

variable {T ν : Type} [DecidableEq T] [DecidableEq ν]

/-- The committed value, and the transaction with a pending value, which may be a deletion. -/
structure Version (T ν : Type) where
  committed : Option ν
  pending : Option (T × Option ν)

namespace Version

def settled (v : Option ν) : Version T ν := ⟨v, none⟩

/-- What a transaction sees. -/
def view (t : T) (v : Version T ν) : Option ν :=
  match v.pending with
  | some (u, x) => if u = t then x else v.committed
  | none => v.committed

/-- Another transaction has a change pending. -/
def Busy (t : T) (v : Version T ν) : Prop := ∃ u x, v.pending = some (u, x) ∧ u ≠ t

def commit (t : T) (v : Version T ν) : Version T ν :=
  match v.pending with
  | some (u, x) => if u = t then ⟨x, none⟩ else v
  | none => v

def rollback (t : T) (v : Version T ν) : Version T ν :=
  match v.pending with
  | some (u, _) => if u = t then ⟨v.committed, none⟩ else v
  | none => v

/-- The row as the transaction wants to see it; a row it does not change stays as it is. -/
def write (t : T) (v : Version T ν) (x : Option ν) : Version T ν :=
  if v.view t = x then v else ⟨v.committed, some (t, x)⟩

omit [DecidableEq ν] in
@[simp] theorem view_settled (t : T) (v : Option ν) : (settled v : Version T ν).view t = v := rfl

@[simp] theorem view_write_self (t : T) (v : Version T ν) (x : Option ν) :
    (v.write t x).view t = x := by
  unfold write
  split
  · assumption
  · simp [view]

omit [DecidableEq ν] in
/-- On a row that only `t` may have changed, the others see what is committed. -/
theorem view_of_not_busy {t u : T} {v : Version T ν} (h : ¬ Busy t v) (hu : u ≠ t) :
    v.view u = v.committed := by
  unfold view
  split
  · rename_i w x hp
    have hw : w = t := by
      by_contra hne
      exact h ⟨w, x, hp, hne⟩
    rw [hw, if_neg (Ne.symm hu)]
  · rfl

theorem view_write_other {t u : T} {v : Version T ν} {x : Option ν}
    (h : v.view t ≠ x → ¬ Busy t v) (hu : u ≠ t) : (v.write t x).view u = v.view u := by
  unfold write
  split
  · rfl
  · rename_i hne
    rw [view_of_not_busy (h hne) hu]
    simp [view, Ne.symm hu]

omit [DecidableEq ν] in
theorem view_rollback_other {t u : T} (v : Version T ν) (hu : u ≠ t) :
    (v.rollback t).view u = v.view u := by
  unfold rollback
  split
  · rename_i w x hp
    split
    · rename_i hw
      subst hw
      simp [view, hp, Ne.symm hu]
    · rfl
  · rfl

omit [DecidableEq ν] in
/-- A commit shows the others the changes of the transaction. -/
theorem view_commit_other {t u : T} (v : Version T ν) (hu : u ≠ t) :
    (∃ x, v.pending = some (t, x) ∧ (v.commit t).view u = x) ∨
      (v.commit t).view u = v.view u := by
  unfold commit
  split
  · rename_i w x hp
    split
    · rename_i hw
      subst hw
      exact .inl ⟨x, hp, rfl⟩
    · exact .inr rfl
  · exact .inr rfl

@[simp] theorem committed_write (t : T) (v : Version T ν) (x : Option ν) :
    (v.write t x).committed = v.committed := by
  unfold write
  split <;> rfl

omit [DecidableEq ν] in
@[simp] theorem committed_rollback (t : T) (v : Version T ν) :
    (v.rollback t).committed = v.committed := by
  unfold rollback
  split
  · split <;> rfl
  · rfl

/-- A write leaves the pending change or makes one of its own. -/
theorem pending_write {t u : T} {v : Version T ν} {x y : Option ν}
    (h : (v.write t x).pending = some (u, y)) :
    (v.view t = x ∧ v.pending = some (u, y)) ∨ (v.view t ≠ x ∧ u = t ∧ y = x) := by
  unfold write at h
  split at h
  · rename_i heq
    exact .inl ⟨heq, h⟩
  · rename_i hne
    cases h
    exact .inr ⟨hne, rfl, rfl⟩

omit [DecidableEq ν] in
/-- What is pending after a transaction ended was so before, for another one. -/
theorem pending_rollback {t u : T} {v : Version T ν} {y : Option ν}
    (h : (v.rollback t).pending = some (u, y)) : u ≠ t ∧ v.pending = some (u, y) := by
  unfold rollback at h
  split at h
  · rename_i w x hp
    split at h
    · cases h
    · rename_i hne
      rw [hp, Option.some.injEq, Prod.mk.injEq] at h
      exact ⟨h.1 ▸ hne, by rw [hp, h.1, h.2]⟩
  · rename_i hp
    rw [hp] at h
    cases h

omit [DecidableEq ν] in
theorem pending_commit {t u : T} {v : Version T ν} {y : Option ν}
    (h : (v.commit t).pending = some (u, y)) : u ≠ t ∧ v.pending = some (u, y) := by
  unfold commit at h
  split at h
  · rename_i w x hp
    split at h
    · cases h
    · rename_i hne
      rw [hp, Option.some.injEq, Prod.mk.injEq] at h
      exact ⟨h.1 ▸ hne, by rw [hp, h.1, h.2]⟩
  · rename_i hp
    rw [hp] at h
    cases h

omit [DecidableEq ν] in
/-- A commit makes the transaction's change the committed value. -/
theorem committed_commit (t : T) (v : Version T ν) :
    (∃ x, v.pending = some (t, x) ∧ (v.commit t).committed = x) ∨
      (∀ x, v.pending ≠ some (t, x)) ∧ (v.commit t).committed = v.committed := by
  unfold commit
  split
  · rename_i u x hp
    split
    · rename_i hu
      exact .inl ⟨x, hu ▸ hp, rfl⟩
    · rename_i hu
      refine .inr ⟨?_, rfl⟩
      intro y hy
      rw [hp] at hy
      cases hy
      exact hu rfl
  · rename_i hp
    refine .inr ⟨?_, rfl⟩
    intro y hy
    rw [hp] at hy
    cases hy

/-! ## Rows that are only inserted

When no transaction deletes a row, a pending change is its insertion, and a committed value
stays. A transaction that has offered a value finds its own insertion or the committed value. -/

def Inserting (v : Version T ν) : Prop :=
  ∀ u x, v.pending = some (u, x) → x.isSome = true ∧ v.committed = none

/-- `t` has no change pending. -/
def Idle (t : T) (v : Version T ν) : Prop := ∀ x, v.pending ≠ some (t, x)

/-- What `t` reads back of a value it has offered, and whether it is its own. -/
def Offered (t : T) (x : ν) (own : Bool) (v : Version T ν) : Prop :=
  if own then v.pending = some (t, some x) else v.committed = some x

/-- What a step of `u` leaves of a row: its committed value, and what the others have pending. -/
structure Kept (u : T) (v v' : Version T ν) : Prop where
  committed : ∀ x, v.committed = some x → v'.committed = some x
  pending : ∀ t y, t ≠ u → (v'.pending = some (t, y) ↔ v.pending = some (t, y))

omit [DecidableEq T] [DecidableEq ν] in
theorem Kept.refl (u : T) (v : Version T ν) : Kept u v v := ⟨fun _ h => h, fun _ _ _ => Iff.rfl⟩

omit [DecidableEq T] [DecidableEq ν] in
theorem Kept.idle {t u : T} {v v' : Version T ν} (h : Kept u v v') (hu : u ≠ t)
    (hidle : Idle t v) : Idle t v' :=
  fun x hx => hidle x ((h.pending t x (Ne.symm hu)).mp hx)

omit [DecidableEq T] [DecidableEq ν] in
theorem Kept.offered {t u : T} {v v' : Version T ν} {x : ν} {own : Bool} (h : Kept u v v')
    (hu : u ≠ t) (hx : Offered t x own v) : Offered t x own v' := by
  cases own with
  | true => exact (h.pending t (some x) (Ne.symm hu)).mpr hx
  | false => exact h.committed x hx

omit [DecidableEq ν] in
/-- What is offered is what the transaction sees. -/
theorem Offered.view {t : T} {x : ν} {own : Bool} {v : Version T ν} (hv : Inserting v)
    (hx : Offered t x own v) : v.view t = some x := by
  cases own with
  | true =>
    have hp : v.pending = some (t, some x) := hx
    simp [Version.view, hp]
  | false =>
    have hc : v.committed = some x := hx
    unfold Version.view
    split
    · rename_i u y hp
      rw [(hv u y hp).2] at hc
      cases hc
    · exact hc

omit [DecidableEq ν] in
theorem view_of_idle {t : T} {v : Version T ν} (h : Idle t v) : v.view t = v.committed := by
  unfold Version.view
  split
  · rename_i u y hp
    rw [if_neg]
    intro hu
    exact h y (hu ▸ hp)
  · rfl

/-- Writing what is seen already, or to a row that is seen absent, keeps the row insert-only. -/
theorem write_kept {t : T} {v : Version T ν} {x : Option ν} (hv : Inserting v)
    (hbusy : v.view t ≠ x → ¬ Busy t v) (hx : v.view t ≠ x → v.view t = none ∧ x.isSome = true) :
    Inserting (v.write t x) ∧ Kept t v (v.write t x) := by
  unfold Version.write
  split
  · exact ⟨hv, .refl t v⟩
  · rename_i hne
    obtain ⟨hnone, hsome⟩ := hx hne
    have hfree : v.pending = none := by
      cases hp : v.pending with
      | none => rfl
      | some p =>
        obtain ⟨u, y⟩ := p
        by_cases hu : u = t
        · subst hu
          rw [Version.view, hp] at hnone
          simp only [if_true] at hnone
          rw [hnone] at hp
          cases (hv u none hp).1
        · exact absurd ⟨u, y, hp, hu⟩ (hbusy hne)
    have hcommitted : v.committed = none := by
      rw [Version.view, hfree] at hnone
      exact hnone
    refine ⟨?_, fun y hy => hy, ?_⟩
    · intro u y hp
      cases hp
      exact ⟨hsome, hcommitted⟩
    · intro u y hu
      rw [hfree]
      refine iff_of_false ?_ (by simp)
      intro hp
      cases hp
      exact hu rfl

omit [DecidableEq ν] in
theorem commit_kept {t : T} {v : Version T ν} (hv : Inserting v) :
    Inserting (v.commit t) ∧ Kept t v (v.commit t) := by
  refine ⟨?_, ?_, ?_⟩
  · intro u y hp
    obtain ⟨hu, hp⟩ := pending_commit hp
    refine ⟨(hv u y hp).1, ?_⟩
    rcases committed_commit t v with ⟨z, hz, _⟩ | ⟨_, hc⟩
    · rw [hp] at hz
      cases hz
      exact absurd rfl hu
    · rw [hc]
      exact (hv u y hp).2
  · intro y hy
    rcases committed_commit t v with ⟨z, hz, _⟩ | ⟨_, hc⟩
    · rw [(hv t z hz).2] at hy
      cases hy
    · rw [hc]
      exact hy
  · intro u y hu
    refine ⟨fun hp => (pending_commit hp).2, ?_⟩
    intro hp
    simp only [Version.commit, hp, if_neg hu]

omit [DecidableEq ν] in
theorem rollback_kept {t : T} {v : Version T ν} (hv : Inserting v) :
    Inserting (v.rollback t) ∧ Kept t v (v.rollback t) := by
  refine ⟨?_, ?_, ?_⟩
  · intro u y hp
    rw [committed_rollback]
    exact hv u y (pending_rollback hp).2
  · intro y hy
    rw [committed_rollback]
    exact hy
  · intro u y hu
    refine ⟨fun hp => (pending_rollback hp).2, ?_⟩
    intro hp
    simp only [Version.rollback, hp, if_neg hu]

end Version

end DrStore.Base.Versions
