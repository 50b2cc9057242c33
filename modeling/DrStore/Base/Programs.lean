import Mathlib.Logic.Basic

/-! # Programs that talk to an engine

A program performs operations one at a time and goes on with their replies, until it returns
or raises. `settle` goes on after either outcome (a `try` with both arms), `bind` after a
return only. `run` executes a program against an engine that answers every operation at once,
`ensures` against anything an engine may answer; programs that wait for each other are the
subject of `Pool`. -/
namespace DrStore.Base.Programs

inductive Prog (Op : Type) (Reply : Op → Type) (ε α : Type) where
  | pure (a : α)
  | fail (e : ε)
  | exec (op : Op) (k : Reply op → Prog Op Reply ε α)

variable {Op : Type} {Reply : Op → Type} {ε ε' α β σ : Type}

namespace Prog

/-- Go on with whatever `p` ended with. -/
def settle : Prog Op Reply ε α → (Except ε α → Prog Op Reply ε' β) → Prog Op Reply ε' β
  | .pure a, f => f (.ok a)
  | .fail e, f => f (.error e)
  | .exec op k, f => .exec op fun r => (k r).settle f

protected def bind (p : Prog Op Reply ε α) (f : α → Prog Op Reply ε β) : Prog Op Reply ε β :=
  p.settle fun
    | .ok a => f a
    | .error e => .fail e

instance : Monad (Prog Op Reply ε) where
  pure := .pure
  bind := Prog.bind

def perform (op : Op) : Prog Op Reply ε (Reply op) := .exec op .pure

def ofExcept : Except ε α → Prog Op Reply ε α
  | .ok a => .pure a
  | .error e => .fail e

/-- Perform `op`, then end as `out` says. -/
def closing (op : Op) (out : Except ε α) : Prog Op Reply ε α := .exec op fun _ => ofExcept out

@[simp] theorem exec_bind (op : Op) (k : Reply op → Prog Op Reply ε α)
    (f : α → Prog Op Reply ε β) : (Prog.exec op k >>= f) = .exec op fun r => k r >>= f := rfl

@[simp] theorem pure_bind (a : α) (f : α → Prog Op Reply ε β) :
    ((.pure a : Prog Op Reply ε α) >>= f) = f a := rfl

@[simp] theorem fail_bind (e : ε) (f : α → Prog Op Reply ε β) :
    ((.fail e : Prog Op Reply ε α) >>= f) = .fail e := rfl

@[simp] theorem ofExcept_ok (a : α) : (ofExcept (.ok a) : Prog Op Reply ε α) = .pure a := rfl

@[simp] theorem ofExcept_error (e : ε) : (ofExcept (.error e) : Prog Op Reply ε α) = .fail e := rfl

theorem settle_bind (p : Prog Op Reply ε α) (f : Except ε α → Prog Op Reply ε' β)
    {γ : Type} (g : β → Prog Op Reply ε' γ) : (p.settle f >>= g) = p.settle fun out => f out >>= g := by
  induction p with
  | pure a => rfl
  | fail e => rfl
  | exec op k ih => exact congrArg (Prog.exec op) (funext ih)

theorem bind_assoc (p : Prog Op Reply ε α) (f : α → Prog Op Reply ε β) {γ : Type}
    (g : β → Prog Op Reply ε γ) : (p >>= f >>= g) = p >>= fun a => f a >>= g := by
  refine (settle_bind p _ g).trans (congrArg p.settle (funext fun out => ?_))
  cases out <;> rfl

/-! ## Running against an engine -/

def run (answer : σ → (op : Op) → Reply op × σ) : Prog Op Reply ε α → σ → Except ε α × σ
  | .pure a, s => (.ok a, s)
  | .fail e, s => (.error e, s)
  | .exec op k, s => (k (answer s op).1).run answer (answer s op).2

variable (answer : σ → (op : Op) → Reply op × σ)

@[simp] theorem run_pure (a : α) (s : σ) :
    (pure a : Prog Op Reply ε α).run answer s = (.ok a, s) := rfl

@[simp] theorem run_fail (e : ε) (s : σ) :
    (Prog.fail e : Prog Op Reply ε α).run answer s = (.error e, s) := rfl

@[simp] theorem run_exec (op : Op) (k : Reply op → Prog Op Reply ε α) (s : σ) :
    (Prog.exec op k).run answer s = (k (answer s op).1).run answer (answer s op).2 := rfl

@[simp] theorem run_perform (op : Op) (s : σ) :
    (perform op : Prog Op Reply ε (Reply op)).run answer s =
      (.ok (answer s op).1, (answer s op).2) := rfl

@[simp] theorem run_ofExcept (out : Except ε α) (s : σ) :
    (ofExcept out : Prog Op Reply ε α).run answer s = (out, s) := by
  cases out <;> rfl

@[simp] theorem run_closing (op : Op) (out : Except ε α) (s : σ) :
    (closing op out : Prog Op Reply ε α).run answer s = (out, (answer s op).2) := by
  rw [closing, run_exec, run_ofExcept]

theorem run_settle (p : Prog Op Reply ε α) (f : Except ε α → Prog Op Reply ε' β) (s : σ) :
    (p.settle f).run answer s = (f (p.run answer s).1).run answer (p.run answer s).2 := by
  induction p generalizing s with
  | pure a => rfl
  | fail e => rfl
  | exec op k ih => exact ih (answer s op).1 (answer s op).2

@[simp] theorem run_bind (p : Prog Op Reply ε α) (f : α → Prog Op Reply ε β) (s : σ) :
    (p >>= f).run answer s = match p.run answer s with
      | (.ok a, s') => (f a).run answer s'
      | (.error e, s') => (.error e, s') := by
  show (p.settle _).run answer s = _
  rw [run_settle]
  match p.run answer s with
  | (.ok a, s') => rfl
  | (.error e, s') => rfl

/-! ## Whatever the engine answers -/

/-- However operations are answered within `does`, the program ends as `Q` says. -/
def ensures (does : σ → (op : Op) → Reply op → σ → Prop) :
    Prog Op Reply ε α → (Except ε α → σ → Prop) → σ → Prop
  | .pure a, Q, s => Q (.ok a) s
  | .fail e, Q, s => Q (.error e) s
  | .exec op k, Q, s => ∀ r s', does s op r s' → (k r).ensures does Q s'

variable {does : σ → (op : Op) → Reply op → σ → Prop}

theorem ensures_mono {p : Prog Op Reply ε α} {Q Q' : Except ε α → σ → Prop} {s : σ}
    (h : p.ensures does Q s) (hQ : ∀ out s, Q out s → Q' out s) : p.ensures does Q' s := by
  induction p generalizing s with
  | pure a => exact hQ _ _ h
  | fail e => exact hQ _ _ h
  | exec op k ih => exact fun r s' hdoes => ih r (h r s' hdoes)

theorem ensures_true (p : Prog Op Reply ε α) (s : σ) : p.ensures does (fun _ _ => True) s := by
  induction p generalizing s with
  | pure a => trivial
  | fail e => trivial
  | exec op k ih => exact fun r s' _ => ih r s'

theorem ensures_and {p : Prog Op Reply ε α} {Q Q' : Except ε α → σ → Prop} {s : σ}
    (h : p.ensures does Q s) (h' : p.ensures does Q' s) :
    p.ensures does (fun out s' => Q out s' ∧ Q' out s') s := by
  induction p generalizing s with
  | pure a => exact ⟨h, h'⟩
  | fail e => exact ⟨h, h'⟩
  | exec op k ih => exact fun r s' hdoes => ih r (h r s' hdoes) (h' r s' hdoes)

theorem ensures_settle (p : Prog Op Reply ε α) (f : Except ε α → Prog Op Reply ε' β)
    (Q : Except ε' β → σ → Prop) (s : σ) :
    (p.settle f).ensures does Q s ↔
      p.ensures does (fun out s' => (f out).ensures does Q s') s := by
  induction p generalizing s with
  | pure a => rfl
  | fail e => rfl
  | exec op k ih =>
    refine forall_congr' fun r => forall_congr' fun s' => ?_
    exact imp_congr_right fun _ => ih r s'

/-- Either outcome of the first part: the rest after a return, the end after a failure. -/
theorem ensures_bind {p : Prog Op Reply ε α} {f : α → Prog Op Reply ε β}
    {Q : Except ε β → σ → Prop} {s : σ} (P : Except ε α → σ → Prop) (hp : p.ensures does P s)
    (hok : ∀ a s', P (.ok a) s' → (f a).ensures does Q s')
    (herror : ∀ e s', P (.error e) s' → Q (.error e) s') : (p >>= f).ensures does Q s := by
  refine (ensures_settle p _ Q s).mpr (ensures_mono hp ?_)
  intro out s' h
  cases out with
  | ok a => exact hok a s' h
  | error e => exact herror e s' h

/-- A first part that returns, then the rest. -/
theorem ensures_after {p : Prog Op Reply ε α} {f : α → Prog Op Reply ε β}
    {Q : Except ε β → σ → Prop} {s : σ} (P : α → σ → Prop)
    (hp : p.ensures does (fun out s' => ∃ a, out = .ok a ∧ P a s') s)
    (hf : ∀ a s', P a s' → (f a).ensures does Q s') : (p >>= f).ensures does Q s := by
  refine ensures_bind _ hp ?_ ?_
  · rintro a s' ⟨_, h, ha⟩
    cases h
    exact hf a s' ha
  · rintro e s' ⟨_, h, _⟩
    cases h

/-- An engine whose answers stay within `does` runs the program to such an end. -/
theorem run_ensures {τ : Type} {answer : τ → (op : Op) → Reply op × τ} {view : τ → σ}
    (lawful : ∀ s op, does (view s) op (answer s op).1 (view (answer s op).2))
    {p : Prog Op Reply ε α} {Q : Except ε α → σ → Prop} {s : τ} (h : p.ensures does Q (view s)) :
    Q (p.run answer s).1 (view (p.run answer s).2) := by
  induction p generalizing s with
  | pure a => exact h
  | fail e => exact h
  | exec op k ih => exact ih _ (h _ _ (lawful s op))

/-- Some answers within `does` bring the program to such an end. -/
def allows (does : σ → (op : Op) → Reply op → σ → Prop) :
    Prog Op Reply ε α → (Except ε α → σ → Prop) → σ → Prop
  | .pure a, Q, s => Q (.ok a) s
  | .fail e, Q, s => Q (.error e) s
  | .exec op k, Q, s => ∃ r s', does s op r s' ∧ (k r).allows does Q s'

theorem allows_exec {op : Op} {k : Reply op → Prog Op Reply ε α} {Q : Except ε α → σ → Prop}
    {s s' : σ} (r : Reply op) (hdoes : does s op r s') (h : (k r).allows does Q s') :
    (exec op k).allows does Q s := ⟨r, s', hdoes, h⟩

theorem allows_mono {p : Prog Op Reply ε α} {Q Q' : Except ε α → σ → Prop} {s : σ}
    (h : p.allows does Q s) (hQ : ∀ out s, Q out s → Q' out s) : p.allows does Q' s := by
  induction p generalizing s with
  | pure a => exact hQ _ _ h
  | fail e => exact hQ _ _ h
  | exec op k ih =>
    obtain ⟨r, s', hdoes, hrest⟩ := h
    exact ⟨r, s', hdoes, ih r hrest⟩

theorem allows_settle (p : Prog Op Reply ε α) (f : Except ε α → Prog Op Reply ε' β)
    (Q : Except ε' β → σ → Prop) (s : σ) :
    (p.settle f).allows does Q s ↔ p.allows does (fun out s' => (f out).allows does Q s') s := by
  induction p generalizing s with
  | pure a => rfl
  | fail e => rfl
  | exec op k ih =>
    refine exists_congr fun r => exists_congr fun s' => ?_
    exact and_congr_right fun _ => ih r s'

/-- A first part that can return, then the rest. -/
theorem allows_after {p : Prog Op Reply ε α} {f : α → Prog Op Reply ε β}
    {Q : Except ε β → σ → Prop} {s : σ} (P : α → σ → Prop)
    (hp : p.allows does (fun out s' => ∃ a, out = .ok a ∧ P a s') s)
    (hf : ∀ a s', P a s' → (f a).allows does Q s') : (p >>= f).allows does Q s := by
  refine (allows_settle p _ Q s).mpr (allows_mono hp ?_)
  rintro _ s' ⟨a, rfl, ha⟩
  exact hf a s' ha

/-- Such an end is also as every end is. -/
theorem ensures_allows {p : Prog Op Reply ε α} {Q Q' : Except ε α → σ → Prop} {s : σ}
    (h : p.ensures does Q s) (h' : p.allows does Q' s) :
    p.allows does (fun out s' => Q out s' ∧ Q' out s') s := by
  induction p generalizing s with
  | pure a => exact ⟨h, h'⟩
  | fail e => exact ⟨h, h'⟩
  | exec op k ih =>
    obtain ⟨r, s', hdoes, hrest⟩ := h'
    exact ⟨r, s', hdoes, ih r (h r s' hdoes) hrest⟩

/-! ## Whatever is replied -/

/-- Every operation is one of `ok`, and with `replies` only the end is as `Q` says. -/
def follows (ok : Op → Prop) (replies : (op : Op) → Reply op → Prop) :
    Prog Op Reply ε α → (Except ε α → Prop) → Prop
  | .pure a, Q => Q (.ok a)
  | .fail e, Q => Q (.error e)
  | .exec op k, Q => ok op ∧ ∀ r, replies op r → (k r).follows ok replies Q

theorem follows_settle {ok : Op → Prop} {replies : (op : Op) → Reply op → Prop}
    {p : Prog Op Reply ε α} {f : Except ε α → Prog Op Reply ε' β} {Q : Except ε' β → Prop}
    (P : Except ε α → Prop) (hp : p.follows ok replies P)
    (hf : ∀ out, P out → (f out).follows ok replies Q) : (p.settle f).follows ok replies Q := by
  induction p with
  | pure a => exact hf _ hp
  | fail e => exact hf _ hp
  | exec op k ih => exact ⟨hp.1, fun r hr => ih r (hp.2 r hr)⟩

theorem follows_mono {ok ok' : Op → Prop} {replies : (op : Op) → Reply op → Prop}
    (hok : ∀ op, ok op → ok' op) {p : Prog Op Reply ε α} {Q Q' : Except ε α → Prop}
    (hQ : ∀ out, Q out → Q' out) (hp : p.follows ok replies Q) : p.follows ok' replies Q' := by
  induction p with
  | pure a => exact hQ _ hp
  | fail e => exact hQ _ hp
  | exec op k ih => exact ⟨hok op hp.1, fun r hr => ih r (hp.2 r hr)⟩

theorem follows_bind {ok : Op → Prop} {replies : (op : Op) → Reply op → Prop}
    {p : Prog Op Reply ε α} {f : α → Prog Op Reply ε β} {Q : Except ε β → Prop}
    (P : Except ε α → Prop) (hp : p.follows ok replies P)
    (hok : ∀ a, P (.ok a) → (f a).follows ok replies Q)
    (herror : ∀ e, P (.error e) → Q (.error e)) : (p >>= f).follows ok replies Q := by
  refine follows_settle P hp ?_
  intro out hout
  cases out with
  | ok a => exact hok a hout
  | error e => exact herror e hout

/-! ## Programs that never raise -/

def Returns : Prog Op Reply ε α → Prop
  | .pure _ => True
  | .fail _ => False
  | .exec _ k => ∀ r, (k r).Returns

theorem Returns.bind {p : Prog Op Reply ε α} {f : α → Prog Op Reply ε β} (hp : p.Returns)
    (hf : ∀ a, (f a).Returns) : (p >>= f).Returns := by
  induction p with
  | pure a => exact hf a
  | fail e => cases hp
  | exec op k ih => exact fun r => ih r (hp r)

theorem Returns.bind_settle {p : Prog Op Reply ε α} (hp : p.Returns)
    (f : α → Prog Op Reply ε β) {γ : Type} (g : Except ε β → Prog Op Reply ε γ) :
    (p >>= f).settle g = p >>= fun a => (f a).settle g := by
  induction p with
  | pure a => rfl
  | fail e => cases hp
  | exec op k ih => exact congrArg (Prog.exec op) (funext fun r => ih r (hp r))

/-! ## Operations carried out by programs -/

section Translation

variable {Op' : Type} {Reply' : Op' → Type} {τ : Type}

/-- The program with each operation carried out by a program of its own, which may raise. -/
def translate (f : (op : Op) → Prog Op' Reply' ε (Reply op)) :
    Prog Op Reply ε α → Prog Op' Reply' ε α
  | .pure a => .pure a
  | .fail e => .fail e
  | .exec op k => f op >>= fun r => (k r).translate f

theorem translate_bind (f : (op : Op) → Prog Op' Reply' ε (Reply op)) (p : Prog Op Reply ε α)
    (g : α → Prog Op Reply ε β) :
    (p >>= g).translate f = p.translate f >>= fun a => (g a).translate f := by
  induction p with
  | pure a => rfl
  | fail e => rfl
  | exec op k ih =>
    show (f op >>= fun r => (k r >>= g).translate f) = _
    simp only [ih]
    exact (bind_assoc (f op) _ _).symm

/-- Where the operations' programs never raise, either outcome is translated in its place. -/
theorem translate_settle {f : (op : Op) → Prog Op' Reply' ε (Reply op)}
    (hf : ∀ op, (f op).Returns) (p : Prog Op Reply ε α) (g : Except ε α → Prog Op Reply ε β) :
    (p.settle g).translate f = (p.translate f).settle fun out => (g out).translate f := by
  induction p with
  | pure a => rfl
  | fail e => rfl
  | exec op k ih =>
    show (f op >>= fun r => ((k r).settle g).translate f) = _
    simp only [ih]
    exact ((hf op).bind_settle _ _).symm

end Translation

end Prog

end DrStore.Base.Programs
