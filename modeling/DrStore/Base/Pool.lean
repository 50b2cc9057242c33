import DrStore.Base.Programs
import Mathlib.Data.Fintype.Card
import Mathlib.Logic.Function.Basic
import Mathlib.Logic.Relation
import Mathlib.Order.WellFounded

/-! # Pools of interleaved programs

Any number of threads run programs over one shared state, one operation of one thread at a
time. An operation that has to wait has no step; a thread may be killed at any point, with the
effect `kill` on the state. Proofs are by rely and guarantee: `wp` says that a thread, whatever
the others do within their guarantees, keeps the invariant, does only what it guarantees, and
ends as `Q` says. `Pool.reachable_wp` is its soundness for every reachable configuration. -/
namespace DrStore.Base.Pool
open DrStore.Base.Programs

variable {T σ Op : Type} {Reply : Op → Type} {ε ε' α β : Type}

structure System (T σ Op : Type) (Reply : Op → Type) where
  step : T → σ → (op : Op) → Reply op → σ → Prop
  kill : T → σ → σ → Prop

/-- The same system, with only the steps that meet a condition on the state before them. -/
def System.restrict (S : System T σ Op Reply) (ok : T → σ → Op → Prop) : System T σ Op Reply :=
  ⟨fun t s op r s' => S.step t s op r s' ∧ ok t s op, S.kill⟩

/-! ## Interleaving -/

/-- The shared state, and what is left of each thread's program; nothing of a killed one. -/
structure Config (T σ Op : Type) (Reply : Op → Type) (ε α : Type) where
  state : σ
  prog : T → Option (Prog Op Reply ε α)

inductive Step [DecidableEq T] (S : System T σ Op Reply) :
    Config T σ Op Reply ε α → Config T σ Op Reply ε α → Prop
  | exec (c : Config T σ Op Reply ε α) (t : T) (op : Op) (k : Reply op → Prog Op Reply ε α)
      (r : Reply op) (s' : σ) : c.prog t = some (.exec op k) → S.step t c.state op r s' →
      Step S c ⟨s', Function.update c.prog t (some (k r))⟩
  | kill (c : Config T σ Op Reply ε α) (t : T) (p : Prog Op Reply ε α) (s' : σ) :
      c.prog t = some p → S.kill t c.state s' →
      Step S c ⟨s', Function.update c.prog t none⟩

/-- All threads at the start of their programs. -/
def start (s : σ) (progs : T → Prog Op Reply ε α) : Config T σ Op Reply ε α :=
  ⟨s, fun t => some (progs t)⟩

def Reachable [DecidableEq T] (S : System T σ Op Reply) (s : σ) (progs : T → Prog Op Reply ε α) :
    Config T σ Op Reply ε α → Prop :=
  Relation.ReflTransGen (Step S) (start s progs)

/-- One more operation of a thread. -/
theorem Reachable.exec [DecidableEq T] {S : System T σ Op Reply} {s s' : σ}
    {progs : T → Prog Op Reply ε α} {c : Config T σ Op Reply ε α} (hc : Reachable S s progs c)
    {t : T} {op : Op} {k : Reply op → Prog Op Reply ε α} {r : Reply op}
    (hp : c.prog t = some (.exec op k)) (hs : S.step t c.state op r s') :
    Reachable S s progs ⟨s', Function.update c.prog t (some (k r))⟩ :=
  .tail hc (.exec c t op k r s' hp hs)

/-! Runs of two threads, written out operation by operation. -/

section
variable {S : System Bool σ Op Reply} {s₀ s s' : σ} {progs : Bool → Prog Op Reply ε α}
variable {p q : Prog Op Reply ε α} {op : Op} {k : Reply op → Prog Op Reply ε α}

/-- Thread `true` is at `p`, thread `false` at `q`. -/
def both (s : σ) (p q : Prog Op Reply ε α) : Config Bool σ Op Reply ε α :=
  ⟨s, fun t => some (if t then p else q)⟩

theorem Reachable.both {c : Config Bool σ Op Reply ε α} (h : Reachable S s₀ progs c)
    (hs : c.state = s) (hp : c.prog true = some p) (hq : c.prog false = some q) :
    Reachable S s₀ progs (both s p q) := by
  obtain ⟨state, prog⟩ := c
  have hprog : prog = fun t => some (if t then p else q) := by
    funext t
    cases t with
    | true => exact hp
    | false => exact hq
  subst hs hprog
  exact h

theorem Reachable.both_start : Reachable S s₀ progs (Pool.both s₀ (progs true) (progs false)) :=
  Reachable.both .refl rfl rfl rfl

theorem Reachable.exec_true (h : Reachable S s₀ progs (Pool.both s (.exec op k) q)) (r : Reply op)
    (hs : S.step true s op r s') : Reachable S s₀ progs (Pool.both s' (k r) q) :=
  (h.exec (t := true) rfl hs).both rfl rfl rfl

theorem Reachable.exec_false (h : Reachable S s₀ progs (Pool.both s p (.exec op k))) (r : Reply op)
    (hs : S.step false s op r s') : Reachable S s₀ progs (Pool.both s' p (k r)) :=
  (h.exec (t := false) rfl hs).both rfl rfl rfl

end

/-- A run of a restricted system is one of the system. -/
theorem Reachable.unrestrict [DecidableEq T] {S : System T σ Op Reply} {ok : T → σ → Op → Prop}
    {s : σ} {progs : T → Prog Op Reply ε α} {c : Config T σ Op Reply ε α}
    (hc : Reachable (S.restrict ok) s progs c) : Reachable S s progs c := by
  induction hc with
  | refl => exact .refl
  | tail _ hstep ih =>
    cases hstep with
    | exec t op k r s' hp hs => exact .tail ih (.exec _ t op k r s' hp hs.1)
    | kill t p s' hp hs => exact .tail ih (.kill _ t p s' hp hs)

/-- A step of `t` on the way to `c`, from one state to the next. -/
def Took [DecidableEq T] (S : System T σ Op Reply) (s₀ : σ) (progs : T → Prog Op Reply ε α)
    (t : T) (c : Config T σ Op Reply ε α) (s s' : σ) : Prop :=
  ∃ (c₁ : Config T σ Op Reply ε α) (op : Op) (k : Reply op → Prog Op Reply ε α) (r : Reply op),
    Reachable S s₀ progs c₁ ∧ c₁.state = s ∧ c₁.prog t = some (.exec op k) ∧ S.step t s op r s' ∧
      Relation.ReflTransGen (Step S) ⟨s', Function.update c₁.prog t (some (k r))⟩ c

/-- An end that a thread can come to on its own, it can come to while the others stand still. -/
theorem runs_alone [DecidableEq T] {S : System T σ Op Reply} {t : T} {p : Prog Op Reply ε α}
    {Q : Except ε α → σ → Prop} {c : Config T σ Op Reply ε α} (h : p.allows (S.step t) Q c.state)
    (hp : c.prog t = some p) :
    ∃ out s', Q out s' ∧ Relation.ReflTransGen (Step S) c
      ⟨s', Function.update c.prog t (some (.ofExcept out))⟩ := by
  have hended : ∀ q, c.prog t = some q →
      Relation.ReflTransGen (Step S) c ⟨c.state, Function.update c.prog t (some q)⟩ := by
    intro q hq
    rw [← hq, Function.update_eq_self]
  induction p generalizing c with
  | pure a => exact ⟨.ok a, c.state, h, hended _ hp⟩
  | fail e => exact ⟨.error e, c.state, h, hended _ hp⟩
  | exec op k ih =>
    obtain ⟨r, s₁, hstep, hrest⟩ := h
    obtain ⟨out, s', hout, hsteps⟩ := ih r (c := ⟨s₁, Function.update c.prog t (some (k r))⟩) hrest
      (Function.update_self ..) fun q hq => by rw [← hq, Function.update_eq_self]
    refine ⟨out, s', hout, .head (.exec c t op k r s₁ hp hstep) ?_⟩
    simpa only [Function.update_idem] using hsteps

/-- What every step keeps, a run keeps. -/
theorem steps_keep [DecidableEq T] {S : System T σ Op Reply} {A : σ → Prop}
    (hstep : ∀ t s op r s', S.step t s op r s' → A s → A s')
    (hkill : ∀ t s s', S.kill t s s' → A s → A s') {c c' : Config T σ Op Reply ε α}
    (h : Relation.ReflTransGen (Step S) c c') (hc : A c.state) : A c'.state := by
  induction h with
  | refl => exact hc
  | tail _ hs ih =>
    cases hs with
    | exec t op k r s' _ hs => exact hstep t _ op r s' hs ih
    | kill t p s' _ hs => exact hkill t _ s' hs ih

/-- What holds by now and did not at the start came about in a step of some thread. -/
theorem Reachable.took [DecidableEq T] {S : System T σ Op Reply} {s₀ : σ}
    {progs : T → Prog Op Reply ε α} {c : Config T σ Op Reply ε α} {A : σ → Prop}
    (hkill : ∀ t s s', S.kill t s s' → A s' → A s) (hc : Reachable S s₀ progs c)
    (h₀ : ¬ A s₀) (h : A c.state) :
    ∃ t s s', Took S s₀ progs t c s s' ∧ ¬ A s ∧ A s' := by
  induction hc with
  | refl => exact absurd h h₀
  | @tail c₁ c₂ hc hs ih =>
    by_cases hold : A c₁.state
    · obtain ⟨t, s, s', ⟨c₀, op, k, r, hreach, hstate, hp, hstep, hrest⟩, hA⟩ := ih hold
      exact ⟨t, s, s', ⟨c₀, op, k, r, hreach, hstate, hp, hstep, hrest.tail hs⟩, hA⟩
    · cases hs with
      | exec t op k r s' hp hs =>
        exact ⟨t, c₁.state, s', ⟨c₁, op, k, r, hc, rfl, hp, hs, .refl⟩, hold, h⟩
      | kill t p s' hp hs => exact absurd (hkill t _ s' hs h) hold

/-- Among finitely many threads that do not wait in a circle, each waits in the end for one that
does not wait. -/
theorem exists_unblocked [Finite T] {W : T → T → Prop} (h : ∀ t, ¬ Relation.TransGen W t t)
    (t : T) : ∃ u, Relation.ReflTransGen W t u ∧ ∀ v, ¬ W u v := by
  have hwf : WellFounded fun u t => Relation.TransGen W t u := by
    have htrans : IsTrans T fun u t => Relation.TransGen W t u := ⟨fun _ _ _ h h' => h'.trans h⟩
    have hirrefl : Std.Irrefl fun u t => Relation.TransGen W t u := ⟨h⟩
    exact Finite.wellFounded_of_trans_of_irrefl _
  induction t using hwf.induction with
  | h t ih =>
    by_cases hwaits : ∃ v, W t v
    · obtain ⟨v, hv⟩ := hwaits
      obtain ⟨u, hpath, hfree⟩ := ih v (.single hv)
      exact ⟨u, .head hv hpath, hfree⟩
    · exact ⟨t, .refl, fun v hv => hwaits ⟨v, hv⟩⟩

/-! ## Rely and guarantee -/

structure Rules (T σ : Type) where
  inv : σ → Prop
  guar : T → σ → σ → Prop

variable (S : System T σ Op Reply) (R : Rules T σ)

/-- One step of some thread other than `t`, within its guarantee. -/
def Others (t : T) (s s' : σ) : Prop := R.inv s ∧ R.inv s' ∧ ∃ u, u ≠ t ∧ R.guar u s s'

def Rely (t : T) : σ → σ → Prop := Relation.ReflTransGen (Others R t)

def Stable (t : T) (A : σ → Prop) : Prop := ∀ s s', Others R t s s' → A s → A s'

/-- Thread `t`, about to run `p` in state `s`, keeps the invariant, stays within its guarantee
and ends as `Q` says, whatever the others do. -/
def wp (t : T) : Prog Op Reply ε α → (Except ε α → σ → Prop) → σ → Prop
  | .pure a, Q, s => ∀ s', Rely R t s s' → R.inv s' → Q (.ok a) s'
  | .fail e, Q, s => ∀ s', Rely R t s s' → R.inv s' → Q (.error e) s'
  | .exec op k, Q, s => ∀ s', Rely R t s s' → R.inv s' → ∀ r s'', S.step t s' op r s'' →
      R.inv s'' ∧ R.guar t s' s'' ∧ wp t (k r) Q s''

variable {S R} {t : T}

theorem Stable.rely {A : σ → Prop} (hA : Stable R t A) {s s' : σ} (h : Rely R t s s') (hs : A s) :
    A s' := by
  induction h with
  | refl => exact hs
  | tail _ hstep ih => exact hA _ _ hstep ih

theorem Stable.and {A B : σ → Prop} (hA : Stable R t A) (hB : Stable R t B) :
    Stable R t (fun s => A s ∧ B s) :=
  fun s s' ho h => ⟨hA s s' ho h.1, hB s s' ho h.2⟩

theorem wp_rely {p : Prog Op Reply ε α} {Q : Except ε α → σ → Prop} {s s' : σ}
    (h : wp S R t p Q s) (hr : Rely R t s s') : wp S R t p Q s' := by
  cases p with
  | pure a => exact fun s'' hr' => h s'' (hr.trans hr')
  | fail e => exact fun s'' hr' => h s'' (hr.trans hr')
  | exec op k => exact fun s'' hr' => h s'' (hr.trans hr')

theorem wp_mono {p : Prog Op Reply ε α} {Q Q' : Except ε α → σ → Prop} {s : σ}
    (hQ : ∀ out s, R.inv s → Q out s → Q' out s) (h : wp S R t p Q s) : wp S R t p Q' s := by
  induction p generalizing s with
  | pure a => exact fun s' hr hinv => hQ _ _ hinv (h s' hr hinv)
  | fail e => exact fun s' hr hinv => hQ _ _ hinv (h s' hr hinv)
  | exec op k ih =>
    intro s' hr hinv r s'' hstep
    obtain ⟨hi, hg, hw⟩ := h s' hr hinv r s'' hstep
    exact ⟨hi, hg, ih r hw⟩

/-! ### Rules for proofs: an assertion the others keep, then one step -/

theorem wp_pure {A : σ → Prop} {a : α} {Q : Except ε α → σ → Prop} {s : σ} (hA : Stable R t A)
    (hs : A s) (h : ∀ s', R.inv s' → A s' → Q (.ok a) s') :
    wp S R t (.pure a : Prog Op Reply ε α) Q s :=
  fun s' hr hinv => h s' hinv (hA.rely hr hs)

theorem wp_fail {A : σ → Prop} {e : ε} {Q : Except ε α → σ → Prop} {s : σ} (hA : Stable R t A)
    (hs : A s) (h : ∀ s', R.inv s' → A s' → Q (.error e) s') :
    wp S R t (.fail e : Prog Op Reply ε α) Q s :=
  fun s' hr hinv => h s' hinv (hA.rely hr hs)

theorem wp_exec {A : σ → Prop} {op : Op} {k : Reply op → Prog Op Reply ε α}
    {Q : Except ε α → σ → Prop} {s : σ} (hA : Stable R t A) (hs : A s)
    (h : ∀ s' r s'', R.inv s' → A s' → S.step t s' op r s'' →
      R.inv s'' ∧ R.guar t s' s'' ∧ wp S R t (k r) Q s'') :
    wp S R t (.exec op k) Q s :=
  fun s' hr hinv r s'' hstep => h s' r s'' hinv (hA.rely hr hs) hstep

/-- What no step of any thread undoes holds at the end as well. -/
theorem wp_frame {A : σ → Prop} (hA : ∀ u s s', R.guar u s s' → A s → A s')
    {p : Prog Op Reply ε α} {Q : Except ε α → σ → Prop} {s : σ} (hs : A s)
    (h : wp S R t p Q s) : wp S R t p (fun out s' => Q out s' ∧ A s') s := by
  have hrely : Stable R t A := fun s s' ho h => by
    obtain ⟨_, _, u, _, hguar⟩ := ho
    exact hA u s s' hguar h
  induction p generalizing s with
  | pure a => exact fun s' hr hinv => ⟨h s' hr hinv, hrely.rely hr hs⟩
  | fail e => exact fun s' hr hinv => ⟨h s' hr hinv, hrely.rely hr hs⟩
  | exec op k ih =>
    intro s' hr hinv r s'' hstep
    obtain ⟨hi, hg, hw⟩ := h s' hr hinv r s'' hstep
    exact ⟨hi, hg, ih r (hA t s' s'' hg (hrely.rely hr hs)) hw⟩

theorem wp_settle {p : Prog Op Reply ε α} {f : Except ε α → Prog Op Reply ε' β}
    {Q : Except ε' β → σ → Prop} {s : σ} (hinv : R.inv s)
    (h : wp S R t p (fun out s' => wp S R t (f out) Q s') s) :
    wp S R t (p.settle f) Q s := by
  induction p generalizing s with
  | pure a => exact h s .refl hinv
  | fail e => exact h s .refl hinv
  | exec op k ih =>
    intro s' hr hinv' r s'' hstep
    obtain ⟨hi, hg, hw⟩ := h s' hr hinv' r s'' hstep
    exact ⟨hi, hg, ih r hi hw⟩

theorem wp_bind {p : Prog Op Reply ε α} {f : α → Prog Op Reply ε β} {Q : Except ε β → σ → Prop}
    {s : σ} (hinv : R.inv s)
    (h : wp S R t p (fun out s' => match out with
      | .ok a => wp S R t (f a) Q s'
      | .error e => wp S R t (.fail e : Prog Op Reply ε β) Q s') s) :
    wp S R t (p >>= f) Q s := by
  refine wp_settle hinv ?_
  refine cast (congrArg (fun Q' => wp S R t p Q' s) ?_) h
  funext out s'
  cases out <;> rfl

/-- A program of other operations, each carried out where `B` holds, so that it holds again. -/
theorem wp_translate {Op' : Type} {Reply' : Op' → Type}
    {f : (op : Op') → Prog Op Reply ε (Reply' op)} {ok : Op' → Prop}
    {replies : (op : Op') → Reply' op → Prop} {B : σ → Prop} (hB : Stable R t B)
    (hf : ∀ op s, ok op → R.inv s → B s →
      wp S R t (f op) (fun out s' => ∃ r, out = .ok r ∧ replies op r ∧ B s') s)
    {p : Prog Op' Reply' ε α} {Q : Except ε α → Prop} (hp : p.follows ok replies Q) {s : σ}
    (hinv : R.inv s) (hs : B s) : wp S R t (p.translate f) (fun out s' => Q out ∧ B s') s := by
  induction p generalizing s with
  | pure a => exact wp_pure hB hs fun _ _ hb => ⟨hp, hb⟩
  | fail e => exact wp_fail hB hs fun _ _ hb => ⟨hp, hb⟩
  | exec op k ih =>
    refine wp_bind hinv (wp_mono ?_ (hf op s hp.1 hinv hs))
    intro out s hinv h
    obtain ⟨r, rfl, hr, hb⟩ := h
    exact ih r (hp.2 r hr) hinv hb

/-- A program all of whose operations keep the invariant and `B`. -/
theorem wp_follows {ok : Op → Prop} {B : σ → Prop} (hB : Stable R t B)
    (hstep : ∀ s op r s', ok op → R.inv s → B s → S.step t s op r s' →
      R.inv s' ∧ R.guar t s s' ∧ B s')
    {p : Prog Op Reply ε α} {Q : Except ε α → Prop} (hp : p.follows ok (fun _ _ => True) Q)
    {s : σ} (hs : B s) : wp S R t p (fun out s' => Q out ∧ B s') s := by
  induction p generalizing s with
  | pure a => exact wp_pure hB hs fun _ _ hb => ⟨hp, hb⟩
  | fail e => exact wp_fail hB hs fun _ _ hb => ⟨hp, hb⟩
  | exec op k ih =>
    refine wp_exec hB hs ?_
    intro s r s' hinv hb hdone
    obtain ⟨hinv', hguar, hb'⟩ := hstep s op r s' hp.1 hinv hb hdone
    exact ⟨hinv', hguar, ih r (hp.2 r trivial) hb'⟩

/-- A program of a part of the state, each operation carried out by the whole where `B` holds:
what `wp` says of the part, it says of the whole, since the others' steps are steps of the part. -/
theorem wp_component {T' τ Op' : Type} {Reply' : Op' → Type} {S' : System T' τ Op' Reply'}
    (R' : Rules T' τ) (u : T') (part : σ → τ) {f : (op : Op') → Prog Op Reply ε (Reply' op)}
    {B : σ → Prop} (hB : Stable R t B) (hinv : ∀ s, R.inv s → R'.inv (part s))
    (hguar : ∀ v s s', v ≠ t → R.guar v s s' → ∃ v', v' ≠ u ∧ R'.guar v' (part s) (part s'))
    (hf : ∀ (op : Op') (k : Reply' op → Prog Op Reply ε α) (Q : Except ε α → σ → Prop) (s : σ),
      B s → (∀ s₁ r x, R.inv s₁ → Rely R t s s₁ → S'.step u (part s₁) op r x →
        R'.inv x ∧ R'.guar u (part s₁) x) →
      (∀ s₁ r s₂, R.inv s₁ → Rely R t s s₁ → S'.step u (part s₁) op r (part s₂) → B s₂ →
        wp S R t (k r) Q s₂) → wp S R t (f op >>= k) Q s)
    {p : Prog Op' Reply' ε α} {Q : Except ε α → τ → Prop} {s : σ} (hs : B s)
    (hp : wp S' R' u p Q (part s)) :
    wp S R t (p.translate f) (fun out s' => Q out (part s') ∧ B s') s := by
  have hrely : ∀ s s', Rely R t s s' → Rely R' u (part s) (part s') := by
    intro s s' hr
    induction hr with
    | refl => exact .refl
    | tail _ hothers ih =>
      obtain ⟨hi, hi', v, hv, hg⟩ := hothers
      obtain ⟨v', hv', hg'⟩ := hguar v _ _ hv hg
      exact ih.tail ⟨hinv _ hi, hinv _ hi', v', hv', hg'⟩
  induction p generalizing s with
  | pure a => exact fun s' hr hi => ⟨hp _ (hrely s s' hr) (hinv s' hi), hB.rely hr hs⟩
  | fail e => exact fun s' hr hi => ⟨hp _ (hrely s s' hr) (hinv s' hi), hB.rely hr hs⟩
  | exec op k ih =>
    refine hf op (fun r => (k r).translate f) _ s hs ?_ ?_
    · intro s₁ r x hi hr hstep
      obtain ⟨hix, hgx, _⟩ := hp _ (hrely s s₁ hr) (hinv s₁ hi) r x hstep
      exact ⟨hix, hgx⟩
    · intro s₁ r s₂ hi hr hstep hb
      exact ih r hb (hp _ (hrely s s₁ hr) (hinv s₁ hi) r _ hstep).2.2

/-! ## Soundness -/

/-- What `wp` says of the threads of a configuration holds of what is left of them later. -/
theorem steps_wp [DecidableEq T] {Q : T → Except ε α → σ → Prop} {c c' : Config T σ Op Reply ε α}
    (hkill : ∀ t s s', R.inv s → S.kill t s s' → R.inv s' ∧ R.guar t s s')
    (hinv : R.inv c.state) (hwp : ∀ t p, c.prog t = some p → wp S R t p (Q t) c.state)
    (h : Relation.ReflTransGen (Step S) c c') :
    R.inv c'.state ∧ ∀ t p, c'.prog t = some p → wp S R t p (Q t) c'.state := by
  induction h with
  | refl => exact ⟨hinv, hwp⟩
  | tail _ hstep ih =>
    obtain ⟨hi, hthreads⟩ := ih
    cases hstep with
    | exec t op k r s' hp hs =>
      obtain ⟨hi', hg, hw⟩ := hthreads t _ hp _ .refl hi r s' hs
      refine ⟨hi', ?_⟩
      intro u q hq
      by_cases hu : u = t
      · subst hu
        simp only [Function.update_self, Option.some.injEq] at hq
        subst hq
        exact hw
      · simp only [Function.update_of_ne hu] at hq
        exact wp_rely (hthreads u q hq) (.single ⟨hi, hi', t, Ne.symm hu, hg⟩)
    | kill t p s' hp hs =>
      obtain ⟨hi', hg⟩ := hkill t _ s' hi hs
      refine ⟨hi', ?_⟩
      intro u q hq
      by_cases hu : u = t
      · subst hu
        simp at hq
      · simp only [Function.update_of_ne hu] at hq
        exact wp_rely (hthreads u q hq) (.single ⟨hi, hi', t, Ne.symm hu, hg⟩)

/-- **What `wp` says of the threads at the start holds of what is left of them in every
reachable configuration.** -/
theorem reachable_wp [DecidableEq T] {s : σ} {progs : T → Prog Op Reply ε α}
    {Q : T → Except ε α → σ → Prop} (hinv : R.inv s)
    (hkill : ∀ t s s', R.inv s → S.kill t s s' → R.inv s' ∧ R.guar t s s')
    (hwp : ∀ t, wp S R t (progs t) (Q t) s) {c : Config T σ Op Reply ε α}
    (hc : Reachable S s progs c) :
    R.inv c.state ∧ ∀ t p, c.prog t = some p → wp S R t p (Q t) c.state := by
  refine steps_wp hkill hinv ?_ hc
  intro t p hp
  cases hp
  exact hwp t

/-- Every step of a run is within the guarantee of some thread. -/
theorem reachable_guar [DecidableEq T] {s : σ} {progs : T → Prog Op Reply ε α}
    {Q : T → Except ε α → σ → Prop} (hinv : R.inv s)
    (hkill : ∀ t s s', R.inv s → S.kill t s s' → R.inv s' ∧ R.guar t s s')
    (hwp : ∀ t, wp S R t (progs t) (Q t) s) {c c' : Config T σ Op Reply ε α}
    (hc : Reachable S s progs c) (hsteps : Relation.ReflTransGen (Step S) c c') :
    Relation.ReflTransGen (fun s s' => ∃ t, R.guar t s s') c.state c'.state := by
  induction hsteps with
  | refl => exact .refl
  | tail hsteps hstep ih =>
    obtain ⟨hi, hthreads⟩ := reachable_wp hinv hkill hwp (hc.trans hsteps)
    refine ih.tail ?_
    cases hstep with
    | exec t op k r s' hp hs => exact ⟨t, (hthreads t _ hp _ .refl hi r s' hs).2.1⟩
    | kill t p s' hp hs => exact ⟨t, (hkill t _ s' hi hs).2⟩

/-- A step on the way to a configuration keeps the invariant, and is within the guarantee. -/
theorem Took.kept [DecidableEq T] {s₀ : σ} {progs : T → Prog Op Reply ε α}
    {Q : T → Except ε α → σ → Prop} (hinv : R.inv s₀)
    (hkill : ∀ t s s', R.inv s → S.kill t s s' → R.inv s' ∧ R.guar t s s')
    (hwp : ∀ t, wp S R t (progs t) (Q t) s₀) {c : Config T σ Op Reply ε α} {s s' : σ}
    (h : Took S s₀ progs t c s s') : R.inv s ∧ R.guar t s s' := by
  obtain ⟨c₁, op, k, r, hreach, rfl, hp, hstep, _⟩ := h
  obtain ⟨hi, hthreads⟩ := reachable_wp hinv hkill hwp hreach
  exact ⟨hi, (hthreads t _ hp _ .refl hi r s' hstep).2.1⟩

/-- The outcome of a thread that has ended satisfies its postcondition. -/
theorem wp_ended {Q : Except ε α → σ → Prop} {s : σ} (hinv : R.inv s) (out : Except ε α)
    (h : wp S R t (Prog.ofExcept out : Prog Op Reply ε α) Q s) : Q out s := by
  cases out with
  | ok a => exact h s .refl hinv
  | error e => exact h s .refl hinv

/-! ## Rules on top of rules

Once the threads are known to keep to `R`, further rules are proved on the system whose steps
come with what `R` says of them. -/

def System.within (S : System T σ Op Reply) (R : Rules T σ) : System T σ Op Reply where
  step t s op r s' := S.step t s op r s' ∧ R.inv s' ∧ R.guar t s s'
  kill t s s' := S.kill t s s' ∧ R.inv s' ∧ R.guar t s s'

def Rules.and (R R' : Rules T σ) : Rules T σ where
  inv s := R.inv s ∧ R'.inv s
  guar t s s' := R.guar t s s' ∧ R'.guar t s s'

theorem reachable_within [DecidableEq T] {s : σ} {progs : T → Prog Op Reply ε α}
    {Q : T → Except ε α → σ → Prop} (hinv : R.inv s)
    (hkill : ∀ t s s', R.inv s → S.kill t s s' → R.inv s' ∧ R.guar t s s')
    (hwp : ∀ t, wp S R t (progs t) (Q t) s) {c : Config T σ Op Reply ε α}
    (hc : Reachable S s progs c) : Reachable (S.within R) s progs c := by
  induction hc with
  | refl => exact .refl
  | tail hc hstep ih =>
    obtain ⟨hi, hthreads⟩ := reachable_wp hinv hkill hwp hc
    refine .tail ih ?_
    cases hstep with
    | exec t op k r s' hp hs =>
      obtain ⟨hi', hg, _⟩ := hthreads t _ hp _ .refl hi r s' hs
      exact .exec _ t op k r s' hp ⟨hs, hi', hg⟩
    | kill t p s' hp hs => exact .kill _ t p s' hp ⟨hs, hkill t _ s' hi hs⟩

theorem Stable.of_left {R' : Rules T σ} {A : σ → Prop} (hA : Stable R t A) :
    Stable (R.and R') t A := by
  intro s s' hothers hs
  obtain ⟨hinv, hinv', u, hu, hguar⟩ := hothers
  exact hA s s' ⟨hinv.1, hinv'.1, u, hu, hguar.1⟩ hs

/-- One step under both rules: only the second are left to prove. -/
theorem wp_within {R' : Rules T σ} {A : σ → Prop} {op : Op} {k : Reply op → Prog Op Reply ε α}
    {Q : Except ε α → σ → Prop} {s : σ} (hA : Stable (R.and R') t A) (hs : A s)
    (h : ∀ s r s', R.inv s → R'.inv s → A s → S.step t s op r s' → R.inv s' → R.guar t s s' →
      R'.inv s' ∧ R'.guar t s s' ∧ wp (S.within R) (R.and R') t (k r) Q s') :
    wp (S.within R) (R.and R') t (.exec op k) Q s := by
  refine wp_exec hA hs ?_
  intro s r s' hinv ha hstep
  obtain ⟨hstep, hinv', hguar⟩ := hstep
  obtain ⟨hinv₂, hguar₂, hwp⟩ := h s r s' hinv.1 hinv.2 ha hstep hinv' hguar
  exact ⟨⟨hinv', hinv₂⟩, ⟨hguar, hguar₂⟩, hwp⟩

/-! ## Watched runs

A record beside the state, extended with every operation, for what a run has done but its state
does not show. -/

def System.watch {γ : Type} (S : System T σ Op Reply) (note : T → σ → Op → γ → γ) :
    System T (σ × γ) Op Reply where
  step t s op r s' := S.step t s.1 op r s'.1 ∧ s'.2 = note t s.1 op s.2
  kill t s s' := S.kill t s.1 s'.1 ∧ s'.2 = s.2

/-- Watching changes no run. -/
theorem steps_watch [DecidableEq T] {γ : Type} (note : T → σ → Op → γ → γ)
    {c c' : Config T σ Op Reply ε α} (g : γ) (h : Relation.ReflTransGen (Step S) c c') :
    ∃ g', Relation.ReflTransGen (Step (S.watch note)) ⟨(c.state, g), c.prog⟩
      ⟨(c'.state, g'), c'.prog⟩ := by
  induction h with
  | refl => exact ⟨g, .refl⟩
  | tail _ hstep ih =>
    obtain ⟨g', ih⟩ := ih
    cases hstep with
    | exec t op k r s' hp hs =>
      exact ⟨_, ih.tail (.exec _ t op k r (s', note t _ op g') hp ⟨hs, rfl⟩)⟩
    | kill t p s' hp hs => exact ⟨g', ih.tail (.kill _ t p (s', g') hp ⟨hs, rfl⟩)⟩

theorem reachable_watch [DecidableEq T] {γ : Type} (note : T → σ → Op → γ → γ) {s : σ}
    {progs : T → Prog Op Reply ε α} {c : Config T σ Op Reply ε α} (g : γ)
    (hc : Reachable S s progs c) :
    ∃ g', Reachable (S.watch note) (s, g) progs ⟨(c.state, g'), c.prog⟩ :=
  steps_watch note g hc

/-! ## From the middle of a run -/

/-- What is left of a program after one operation. -/
def Next (p q : Prog Op Reply ε α) : Prop := ∃ op k r, q = .exec op k ∧ p = k r

theorem next_wf : WellFounded (Next : Prog Op Reply ε α → Prog Op Reply ε α → Prop) := by
  refine ⟨?_⟩
  intro q
  induction q with
  | pure a => exact ⟨_, fun _ ⟨_, _, _, h, _⟩ => by cases h⟩
  | fail e => exact ⟨_, fun _ ⟨_, _, _, h, _⟩ => by cases h⟩
  | exec op k ih =>
    refine ⟨_, ?_⟩
    rintro _ ⟨_, _, r, h, rfl⟩
    cases h
    exact ih r

/-- A thread with all of its program left has done nothing: what the others keep still holds. -/
theorem Reachable.unbegun [DecidableEq T] {s : σ} {progs : T → Prog Op Reply ε α}
    {Q : T → Except ε α → σ → Prop} (hinv : R.inv s)
    (hkill : ∀ t s s', R.inv s → S.kill t s s' → R.inv s' ∧ R.guar t s s')
    (hwp : ∀ t, wp S R t (progs t) (Q t) s) {A : σ → Prop} (hA : Stable R t A) (hs : A s)
    {c : Config T σ Op Reply ε α} (hc : Reachable S s progs c)
    (hp : c.prog t = some (progs t)) : A c.state := by
  have hleft : ∀ p, c.prog t = some p →
      (p = progs t ∧ A c.state) ∨ Relation.TransGen Next p (progs t) := by
    clear hp
    induction hc with
    | refl =>
      intro p hp
      cases hp
      exact .inl ⟨rfl, hs⟩
    | tail hc hstep ih =>
      obtain ⟨hi, hthreads⟩ := reachable_wp hinv hkill hwp hc
      cases hstep with
      | exec u op k r s' hp hs =>
        intro p h
        by_cases hu : t = u
        · subst hu
          simp only [Function.update_self, Option.some.injEq] at h
          subst h
          have hnext : Next (k r) (Prog.exec op k) := ⟨op, k, r, rfl, rfl⟩
          rcases ih _ hp with ⟨heq, _⟩ | hleft
          · exact .inr (.single (heq ▸ hnext))
          · exact .inr (.head hnext hleft)
        · simp only [Function.update_of_ne hu] at h
          obtain ⟨hi', hg, _⟩ := hthreads u _ hp _ .refl hi r s' hs
          exact (ih p h).imp_left fun ha => ⟨ha.1, hA _ _ ⟨hi, hi', u, Ne.symm hu, hg⟩ ha.2⟩
      | kill u q s' hp hs =>
        intro p h
        by_cases hu : t = u
        · subst hu
          simp at h
        · simp only [Function.update_of_ne hu] at h
          obtain ⟨hi', hg⟩ := hkill u _ s' hi hs
          exact (ih p h).imp_left fun ha => ⟨ha.1, hA _ _ ⟨hi, hi', u, Ne.symm hu, hg⟩ ha.2⟩
  rcases hleft _ hp with ⟨_, ha⟩ | hloop
  · exact ha
  · exact absurd hloop (next_wf.transGen.irrefl.irrefl _)

end DrStore.Base.Pool
