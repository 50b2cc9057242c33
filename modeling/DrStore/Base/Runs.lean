import Mathlib.Logic.Basic

/-! # Deterministic machines and their runs

A machine answers every event with a reply and a next state. A run is a list
of events; `after` is the state it reaches and `reply` what the machine says
to one more event. Four rules cover what the developments above need: an
invariant kept by each step, a preorder climbed by each step, the step at which
a property first becomes true, and lockstep simulation of two machines. -/
namespace DrStore.Base.Runs

structure Machine (σ ε ρ : Type) where
  step : σ → ε → σ × ρ

variable {σ τ ε ρ ρ' : Type}

namespace Machine

def after (m : Machine σ ε ρ) (s : σ) (evs : List ε) : σ :=
  evs.foldl (fun s e => (m.step s e).1) s

/-- The reply to `e` after the run `evs`. -/
def reply (m : Machine σ ε ρ) (s : σ) (evs : List ε) (e : ε) : ρ :=
  (m.step (m.after s evs) e).2

@[simp] theorem after_nil (m : Machine σ ε ρ) (s : σ) : m.after s [] = s := rfl

@[simp] theorem after_cons (m : Machine σ ε ρ) (s : σ) (e : ε) (evs : List ε) :
    m.after s (e :: evs) = m.after (m.step s e).1 evs := rfl

theorem after_append (m : Machine σ ε ρ) (s : σ) (pre post : List ε) :
    m.after s (pre ++ post) = m.after (m.after s pre) post := List.foldl_append

theorem after_concat (m : Machine σ ε ρ) (s : σ) (pre : List ε) (e : ε) :
    m.after s (pre ++ [e]) = (m.step (m.after s pre) e).1 := by
  rw [after_append]; rfl

theorem reply_append (m : Machine σ ε ρ) (s : σ) (pre post : List ε) (e : ε) :
    m.reply s (pre ++ post) e = m.reply (m.after s pre) post e := by
  rw [reply, reply, after_append]

/-- What holds at the start and is kept by every step holds after every run. -/
theorem invariant (m : Machine σ ε ρ) {Inv : σ → Prop}
    (keeps : ∀ s e, Inv s → Inv (m.step s e).1) :
    ∀ {s : σ} (evs : List ε), Inv s → Inv (m.after s evs)
  | _, [], h => h
  | _, e :: evs, h => invariant m keeps evs (keeps _ e h)

/-- A preorder that every step climbs is climbed by every run. -/
theorem climbs (m : Machine σ ε ρ) {Inv : σ → Prop} {le : σ → σ → Prop}
    (refl : ∀ s, le s s) (trans : ∀ {a b c}, le a b → le b c → le a c)
    (keeps : ∀ s e, Inv s → Inv (m.step s e).1)
    (up : ∀ s e, Inv s → le s (m.step s e).1) :
    ∀ {s : σ} (evs : List ε), Inv s → le s (m.after s evs)
  | s, [], _ => refl s
  | s, e :: evs, h => trans (up s e h) (climbs m refl trans keeps up evs (keeps s e h))

/-- A property false before a run and true after it becomes true at one step. -/
theorem crossing (m : Machine σ ε ρ) {P : σ → Prop} :
    ∀ {s : σ} (evs : List ε), ¬ P s → P (m.after s evs) →
      ∃ pre e post, evs = pre ++ e :: post ∧ ¬ P (m.after s pre) ∧
        P (m.after s (pre ++ [e]))
  | s, [], hn, hp => absurd hp hn
  | s, e :: evs, hn, hp => by
    by_cases he : P (m.step s e).1
    · exact ⟨[], e, evs, rfl, hn, he⟩
    · obtain ⟨pre, e', post, heq, hpre, hpost⟩ := crossing m evs he hp
      exact ⟨e :: pre, e', post, by rw [heq]; rfl, hpre, hpost⟩

/-- Lockstep simulation: two machines that keep a relation between their
states, and relate their replies, on events that are `Ok`, do so along every
run of such events. -/
theorem lockstep {m : Machine σ ε ρ} {n : Machine τ ε ρ'} {R : σ → τ → Prop} {Ok : ε → Prop}
    {Q : ε → ρ → ρ' → Prop}
    (sim : ∀ s t e, Ok e → R s t → R (m.step s e).1 (n.step t e).1 ∧
      Q e (m.step s e).2 (n.step t e).2) :
    ∀ {s : σ} {t : τ} (evs : List ε), (∀ e ∈ evs, Ok e) → R s t →
      R (m.after s evs) (n.after t evs) ∧
        ∀ e, Ok e → Q e (m.reply s evs e) (n.reply t evs e)
  | s, t, [], _, h => ⟨h, fun e he => (sim s t e he h).2⟩
  | s, t, e :: evs, hok, h =>
    lockstep sim evs (fun e' he' => hok e' (List.mem_cons_of_mem e he'))
      (sim s t e (hok e List.mem_cons_self) h).1

end Machine

end DrStore.Base.Runs
