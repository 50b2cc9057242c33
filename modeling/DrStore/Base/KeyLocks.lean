import DrStore.Base.Pool
import Mathlib.Order.Defs.Unbundled

/-! # Transactions that lock the keys they insert

A transaction that inserts a key locks it until it ends; inserting a key that another open
transaction has inserted waits. Each transaction tries its keys in an order of its own, and skips
those that are there. Keys tried in one common order exclude a cycle of waiting transactions. -/
namespace DrStore.Base.KeyLocks
open DrStore.Base.Programs DrStore.Base.Pool

variable {T K A : Type} {R : A → Type} {ε ε' α β : Type}

inductive KeyOp (K A : Type) where
  | insert (k : K)
  | look (a : A)
  | commit
  | rollback

/-- An insert replies whether it inserted the key. -/
abbrev KeyReply (R : A → Type) : KeyOp K A → Type
  | .insert _ => Bool
  | .look a => R a
  | .commit | .rollback => Unit

structure Table (T K : Type) where
  committed : K → Bool
  holder : K → Option T

/-! ## Steps -/

variable [DecidableEq T] [DecidableEq K]

namespace Table

def hold (s : Table T K) (t : T) (k : K) : Table T K :=
  { s with holder := Function.update s.holder k (some t) }

/-- Nothing is held by `t` any more. -/
def release (s : Table T K) (t : T) : Table T K :=
  { s with holder := fun k => if s.holder k = some t then none else s.holder k }

def commit (s : Table T K) (t : T) : Table T K :=
  { s.release t with committed := fun k => s.committed k || decide (s.holder k = some t) }

omit [DecidableEq T] in
theorem hold_holder (s : Table T K) (t : T) (k : K) :
    (s.hold t k).holder = Function.update s.holder k (some t) := rfl

omit [DecidableEq K] in
theorem release_holder {s : Table T K} {t u : T} {k : K} (h : (s.release t).holder k = some u) :
    s.holder k = some u := by
  simp only [release] at h
  split at h
  · cases h
  · exact h

end Table

/-- Without a step, the transaction waits. -/
def Does (t : T) (s : Table T K) : (op : KeyOp K A) → KeyReply R op → Table T K → Prop
  | .insert k, r, s' =>
    if s.committed k = true then r = false ∧ s' = s
    else match s.holder k with
      | none => r = true ∧ s' = s.hold t k
      | some u => u = t ∧ r = false ∧ s' = s
  | .look _, _, s' => s' = s
  | .commit, _, s' => s' = s.commit t
  | .rollback, _, s' => s' = s.release t

/-- A transaction that is killed is rolled back. -/
def system : System T (Table T K) (KeyOp K A) (KeyReply R) :=
  ⟨Does, fun t s s' => s' = s.release t⟩

abbrev Run (T K A : Type) (R : A → Type) (ε α : Type) :=
  Config T (Table T K) (KeyOp K A) (KeyReply R) ε α

/-- `t` waits for `u`: the key it is to insert is one that `u` has inserted. -/
def WaitsFor (c : Run T K A R ε α) (t u : T) : Prop :=
  u ≠ t ∧ ∃ k f, c.prog t = some (.exec (.insert k) f) ∧ c.state.committed k = false ∧
    c.state.holder k = some u

/-- A cycle of transactions, each waiting for a key that the next has inserted. -/
def Deadlocked (c : Run T K A R ε α) : Prop := ∃ t, Relation.TransGen (WaitsFor c) t t

/-! ## The keys of a program -/

section

variable {O : Type} {S : O → Type} {takes : O → List K}

/-- Whatever is replied, the program tries the keys of its operations in this order, and ends as
`Q` says with those that are left. -/
def Tries (takes : O → List K) (Q : Except ε α → List K → Prop) : Prog O S ε α → List K → Prop
  | .pure a, ks => Q (.ok a) ks
  | .fail e, ks => Q (.error e) ks
  | .exec op f, ks => ∃ rest, ks = takes op ++ rest ∧ ∀ r, Tries takes Q (f r) rest

omit [DecidableEq T] [DecidableEq K]

theorem Tries.mono {Q Q' : Except ε α → List K → Prop} (hQ : ∀ out ks, Q out ks → Q' out ks)
    {p : Prog O S ε α} {ks : List K} (h : Tries takes Q p ks) : Tries takes Q' p ks := by
  induction p generalizing ks with
  | pure a => exact hQ _ _ h
  | fail e => exact hQ _ _ h
  | exec op f ih =>
    obtain ⟨rest, hks, h⟩ := h
    exact ⟨rest, hks, fun r => ih r (h r)⟩

theorem tries_settle {Q : Except ε' β → List K → Prop} {p : Prog O S ε α}
    {f : Except ε α → Prog O S ε' β} {ks : List K}
    (h : Tries takes (fun out rest => Tries takes Q (f out) rest) p ks) :
    Tries takes Q (p.settle f) ks := by
  induction p generalizing ks with
  | pure a => exact h
  | fail e => exact h
  | exec op k ih =>
    obtain ⟨rest, hks, h⟩ := h
    exact ⟨rest, hks, fun r => ih r (h r)⟩

/-- A first part that raises tries nothing more. -/
theorem tries_bind {Q : Except ε β → List K → Prop} {p : Prog O S ε α} {f : α → Prog O S ε β}
    {ks : List K} {P : Except ε α → List K → Prop} (h : Tries takes P p ks)
    (hok : ∀ a rest, P (.ok a) rest → Tries takes Q (f a) rest)
    (herror : ∀ e rest, P (.error e) rest → Q (.error e) rest) : Tries takes Q (p >>= f) ks := by
  refine tries_settle (h.mono ?_)
  intro out rest hout
  cases out with
  | ok a => exact hok a rest hout
  | error e => exact herror e rest hout

/-- Returned, with these keys left. -/
def Leaves (rest : List K) (out : Except ε α) (left : List K) : Prop :=
  (∃ a, out = .ok a) ∧ left = rest

theorem tries_pure {a : α} {rest : List K} :
    Tries takes (Leaves rest) (.pure a : Prog O S ε α) rest := ⟨⟨a, rfl⟩, rfl⟩

theorem tries_then {Q : Except ε β → List K → Prop} {p : Prog O S ε α} {f : α → Prog O S ε β}
    {ks rest : List K} (h : Tries takes (Leaves rest) p ks)
    (hf : ∀ a, Tries takes Q (f a) rest) : Tries takes Q (p >>= f) ks := by
  refine tries_bind h ?_ ?_
  · intro a left hleft
    obtain ⟨_, rfl⟩ := hleft
    exact hf a
  · intro e left hleft
    obtain ⟨⟨_, h⟩, _⟩ := hleft
    cases h

theorem tries_perform {op : O} {rest : List K} :
    Tries takes (Leaves rest) (.perform op : Prog O S ε (S op)) (takes op ++ rest) :=
  ⟨rest, rfl, fun r => ⟨⟨r, rfl⟩, rfl⟩⟩

/-- Operations carried out by programs that try the same keys. -/
theorem Tries.translate {O' : Type} {S' : O' → Type} {takes' : O' → List K}
    {f : (op : O) → Prog O' S' ε (S op)}
    (hf : ∀ op rest, Tries takes' (Leaves rest) (f op) (takes op ++ rest))
    {Q : Except ε α → List K → Prop} {p : Prog O S ε α} {ks : List K} (h : Tries takes Q p ks) :
    Tries takes' Q (p.translate f) ks := by
  induction p generalizing ks with
  | pure a => exact h
  | fail e => exact h
  | exec op k ih =>
    obtain ⟨rest, rfl, h⟩ := h
    exact tries_then (hf op rest) fun r => ih r (h r)

end

def KeyOp.takes : KeyOp K A → List K
  | .insert k => [k]
  | .look _ | .commit | .rollback => []

/-- Insert each key, and say which were inserted. -/
def insertAll : List K → Prog (KeyOp K A) (KeyReply R) ε (List K)
  | [] => .pure []
  | k :: ks => .exec (.insert k) fun inserted => insertAll ks >>= fun rest =>
    .pure (if inserted = true then k :: rest else rest)

omit [DecidableEq T] [DecidableEq K] in
theorem insertAll_tries (ks rest : List K) :
    Tries KeyOp.takes (Leaves rest) (insertAll ks : Prog (KeyOp K A) (KeyReply R) ε (List K))
      (ks ++ rest) := by
  induction ks with
  | nil => exact tries_pure
  | cons k ks ih => exact ⟨ks ++ rest, rfl, fun inserted => tries_then ih fun _ => tries_pure⟩

/-! ## Runs -/

/-- What is left of each program tries the keys that are left, and only earlier ones are held. -/
def InOrder (order : T → List K) (c : Run T K A R ε α) : Prop :=
  ∀ t p, c.prog t = some p → ∃ before left, order t = before ++ left ∧
    Tries KeyOp.takes (fun _ _ => True) p left ∧ ∀ k, c.state.holder k = some t → k ∈ before

/-- What a step of `t` can make held is the key it inserts, by `t`. -/
theorem Does.holder {t : T} {s s' : Table T K} {op : KeyOp K A} {r : KeyReply R op}
    (h : Does t s op r s') {k : K} {u : T} (hu : s'.holder k = some u) :
    s.holder k = some u ∨ u = t ∧ k ∈ op.takes := by
  cases op with
  | insert k' =>
    rw [Does] at h
    split at h
    · obtain ⟨_, rfl⟩ := h
      exact .inl hu
    · split at h
      · obtain ⟨_, rfl⟩ := h
        by_cases hk : k = k'
        · subst hk
          rw [Table.hold_holder, Function.update_self] at hu
          exact .inr ⟨(Option.some.inj hu).symm, List.mem_singleton_self k⟩
        · rw [Table.hold_holder, Function.update_of_ne hk] at hu
          exact .inl hu
      · obtain ⟨_, _, rfl⟩ := h
        exact .inl hu
  | look a =>
    obtain rfl : s' = s := h
    exact .inl hu
  | commit =>
    obtain rfl : s' = s.commit t := h
    exact .inl (Table.release_holder hu)
  | rollback =>
    obtain rfl : s' = s.release t := h
    exact .inl (Table.release_holder hu)

theorem InOrder.step {order : T → List K} {c c' : Run T K A R ε α} (h : InOrder order c)
    (hstep : Step system c c') : InOrder order c' := by
  intro u p hp
  cases hstep with
  | exec t op f r s' hrun hdoes =>
    by_cases hu : u = t
    · subst hu
      have hp : Function.update c.prog u (some (f r)) u = some p := hp
      rw [Function.update_self, Option.some.injEq] at hp
      subst hp
      obtain ⟨before, left, horder, ⟨rest, rfl, htries⟩, hheld⟩ := h u _ hrun
      refine ⟨before ++ op.takes, rest, by rw [horder, List.append_assoc], htries r, ?_⟩
      intro k hk
      rcases hdoes.holder hk with hk | ⟨_, hk⟩
      · exact List.mem_append_left _ (hheld k hk)
      · exact List.mem_append_right _ hk
    · have hp : Function.update c.prog t (some (f r)) u = some p := hp
      rw [Function.update_of_ne hu] at hp
      obtain ⟨before, left, horder, htries, hheld⟩ := h u p hp
      refine ⟨before, left, horder, htries, fun k hk => hheld k ?_⟩
      rcases hdoes.holder hk with hk | ⟨hut, _⟩
      · exact hk
      · exact absurd hut hu
  | kill t q s' _ hkill =>
    obtain rfl : s' = c.state.release t := hkill
    have hp : Function.update c.prog t none u = some p := hp
    by_cases hu : u = t
    · subst hu
      rw [Function.update_self] at hp
      cases hp
    · rw [Function.update_of_ne hu] at hp
      obtain ⟨before, left, horder, htries, hheld⟩ := h u p hp
      exact ⟨before, left, horder, htries, fun k hk => hheld k (Table.release_holder hk)⟩

/-- From the start, with no transaction open. -/
theorem inOrder_reachable {order : T → List K} {s : Table T K} (hs : ∀ k, s.holder k = none)
    {progs : T → Prog (KeyOp K A) (KeyReply R) ε α} (hprogs : ∀ t, Tries KeyOp.takes (fun _ _ => True) (progs t)
      (order t)) {c : Run T K A R ε α} (hc : Reachable system s progs c) : InOrder order c := by
  induction hc with
  | refl =>
    intro t p hp
    cases hp
    refine ⟨[], order t, rfl, hprogs t, fun k hk => ?_⟩
    have hk : s.holder k = some t := hk
    rw [hs] at hk
    cases hk
  | tail _ hstep ih => exact ih.step hstep

/-! ## Deadlock -/

omit [DecidableEq T] [DecidableEq K]

/-- A waiting transaction waits for a key beyond all that it holds. -/
theorem InOrder.waits {order : T → List K} {c : Run T K A R ε α} (h : InOrder order c)
    {before : K → K → Prop} (horder : ∀ t, (order t).Pairwise before) {t : T} {k : K}
    {f : KeyReply R (.insert k : KeyOp K A) → Prog (KeyOp K A) (KeyReply R) ε α}
    (hp : c.prog t = some (.exec (.insert k) f)) {j : K} (hj : c.state.holder j = some t) :
    before j k := by
  obtain ⟨earlier, left, heq, ⟨rest, rfl, _⟩, hheld⟩ := h t _ hp
  have hpairwise := horder t
  rw [heq, List.pairwise_append] at hpairwise
  exact hpairwise.2.2 j (hheld j hj) k (by simp [KeyOp.takes])

/-- **No deadlock.** Transactions that try their keys in one common order never wait in a
cycle. -/
theorem InOrder.not_deadlocked {order : T → List K} {c : Run T K A R ε α} (h : InOrder order c)
    {before : K → K → Prop} [IsStrictOrder K before] (horder : ∀ t, (order t).Pairwise before) :
    ¬ Deadlocked c := by
  -- along a path of waiting transactions the keys they wait for only grow
  have hgrows : ∀ t u, Relation.TransGen (WaitsFor c) t u → ∀ k f,
      c.prog u = some (.exec (.insert k) f) → ∃ j g, c.prog t = some (.exec (.insert j) g) ∧
        before j k := by
    intro t u hpath
    induction hpath with
    | single hwaits =>
      intro k f hp
      obtain ⟨_, j, g, hnext, _, hheld⟩ := hwaits
      exact ⟨j, g, hnext, h.waits horder hp hheld⟩
    | tail _ hwaits ih =>
      intro k f hp
      obtain ⟨_, j, g, hnext, _, hheld⟩ := hwaits
      obtain ⟨i, g', hfirst, hij⟩ := ih j g hnext
      exact ⟨i, g', hfirst, IsTrans.trans i j k hij (h.waits horder hp hheld)⟩
  intro hdead
  obtain ⟨t, hcycle⟩ := hdead
  obtain ⟨k, f, hp⟩ : ∃ k f, c.prog t = some (.exec (.insert k) f) := by
    obtain ⟨u, hwaits, _⟩ := Relation.TransGen.head'_iff.mp hcycle
    obtain ⟨_, k, f, hp, _⟩ := hwaits
    exact ⟨k, f, hp⟩
  obtain ⟨j, g, hnext, hjk⟩ := hgrows t t hcycle k f hp
  rw [hp] at hnext
  cases hnext
  exact Std.Irrefl.irrefl k hjk

end DrStore.Base.KeyLocks
