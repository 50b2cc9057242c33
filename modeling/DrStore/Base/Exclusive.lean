import DrStore.Base.Pool

/-! # Transactions under one lock

A database that lets one writing transaction in at a time: a statement of the one that holds the
lock works on its own copy of the contents, a commit publishes the copy and a rollback drops it.
Every statement may raise instead; a commit that raised may have taken effect. Under such a lock
the sequential behaviour of a body (`Prog.ensures`) is its behaviour among any others: the rules
below turn it into `wp`. -/
namespace DrStore.Base.Exclusive
open DrStore.Base.Pool DrStore.Base.Programs

variable {T C Query : Type} {Reply : Query → Type} {ε α : Type}

/-! ## Statements -/

inductive Op (Query : Type) where
  | lock
  | run (q : Query)
  | commit
  | rollback
  | close

/-- A lock or a commit says whether it went through, a query has no reply when it raised. -/
abbrev OpReply (Reply : Query → Type) : Op Query → Type
  | .lock | .commit => Bool
  | .run q => Option (Reply q)
  | .rollback | .close => Unit

structure Shared (T C : Type) where
  committed : C
  /-- Who holds the lock, and its copy. -/
  holder : Option (T × C)
  /-- Who has committed what, the last commit first. -/
  log : List (T × C)

variable (does : C → (q : Query) → Reply q → C → Prop)

/-- A query that may raise, and then changes nothing. -/
def mayRaise (c : C) (q : Query) (r : Option (Reply q)) (c' : C) : Prop :=
  (∃ x, r = some x ∧ does c q x c') ∨ (r = none ∧ c' = c)

/-- What is left when `t` gives up its copy. -/
def Shared.release [DecidableEq T] (s : Shared T C) (t : T) : Shared T C :=
  match s.holder with
  | some (u, _) => if u = t then { s with holder := none } else s
  | none => s

def Effect [DecidableEq T] (t : T) (s : Shared T C) : (op : Op Query) → OpReply Reply op →
    Shared T C → Prop
  | .lock, r, s' => (r = true ∧ s.holder = none ∧ s' = { s with holder := some (t, s.committed) }) ∨
    (r = false ∧ s' = s)
  | .run q, r, s' => (∃ c c', s.holder = some (t, c) ∧ mayRaise does c q r c' ∧
      s' = { s with holder := some (t, c') }) ∨
    -- outside a transaction a query only reads
    ((∀ c, s.holder ≠ some (t, c)) ∧ mayRaise does s.committed q r s.committed ∧ s' = s)
  | .commit, r, s' => (∃ c, s.holder = some (t, c) ∧ (s' = ⟨c, none, (t, c) :: s.log⟩ ∨ (r = false ∧ s' = s))) ∨
    ((∀ c, s.holder ≠ some (t, c)) ∧ s' = s)
  | .rollback, _, s' => s' = s.release t
  | .close, _, s' => s' = s.release t

/-- A client that dies gives up its copy. -/
def system [DecidableEq T] : System T (Shared T C) (Op Query) (OpReply Reply) where
  step t s op r s' := Effect does t s op r s'
  kill t s s' := s' = s.release t

/-! ## Rules -/

/-- What a step of `u` does to the others: a commit is a `change` and goes on the log, and what
another one holds is left alone. -/
structure Keeps (change : C → C → Prop) (u : T) (s s' : Shared T C) : Prop where
  committed : s'.committed = s.committed ∨ change s.committed s'.committed
  log : s'.log = s.log ∨ s'.log = (u, s'.committed) :: s.log
  took : ∀ t c, t ≠ u → s'.holder = some (t, c) → s.holder = some (t, c)
  kept : ∀ t c, t ≠ u → s.holder = some (t, c) →
    s'.holder = some (t, c) ∧ s'.committed = s.committed ∧ s'.log = s.log

theorem Keeps.refl (change : C → C → Prop) (u : T) (s : Shared T C) : Keeps change u s s :=
  ⟨.inl rfl, .inl rfl, fun _ _ _ h => h, fun _ _ _ h => ⟨h, rfl, rfl⟩⟩

/-- `inv` holds of what is committed and of the log. -/
def rules (inv : C → List (T × C) → Prop) (change : C → C → Prop) : Rules T (Shared T C) where
  inv s := inv s.committed s.log
  guar := Keeps change

/-- `t` holds the lock and works on `c`; `c₀` is committed, and `log` leads to it. -/
structure Holds (t : T) (c c₀ : C) (log : List (T × C)) (s : Shared T C) : Prop where
  holder : s.holder = some (t, c)
  committed : s.committed = c₀
  log : s.log = log

/-- `t` does not hold the lock. -/
def Free (t : T) (s : Shared T C) : Prop := ∀ c, s.holder ≠ some (t, c)

variable {does} {inv : C → List (T × C) → Prop} {change : C → C → Prop} {t : T} {s : Shared T C}
  {c c₀ : C} {log : List (T × C)}

theorem holds_stable : Stable (rules inv change) t (Holds t c c₀ log) := by
  intro s s' hothers h
  obtain ⟨_, _, u, hu, hkeeps⟩ := hothers
  obtain ⟨hholder, hcommitted, hlog⟩ := hkeeps.kept t c (Ne.symm hu) h.holder
  exact ⟨hholder, hcommitted.trans h.committed, hlog.trans h.log⟩

theorem true_stable : Stable (rules inv change) t (fun _ => True) := fun _ _ _ h => h

theorem free_stable : Stable (rules inv change) t (Free t : Shared T C → Prop) := by
  intro s s' hothers h c hholder
  obtain ⟨_, _, u, hu, hkeeps⟩ := hothers
  exact h c (hkeeps.took t c (Ne.symm hu) hholder)

/-- What every change keeps of the committed contents. -/
theorem committed_stable {P : C → Prop} (hP : ∀ c c', change c c' → P c → P c') :
    Stable (rules inv change) t (fun s => P s.committed) := by
  intro s s' hothers h
  obtain ⟨_, _, u, hu, hkeeps⟩ := hothers
  rcases hkeeps.committed with heq | hchange
  · rwa [heq]
  · exact hP _ _ hchange h

/-- What a commit of another one keeps of the log. -/
theorem log_stable {P : List (T × C) → Prop}
    (hP : ∀ u c log, u ≠ t → P log → P ((u, c) :: log)) :
    Stable (rules inv change) t (fun s => P s.log) := by
  intro s s' hothers h
  obtain ⟨_, _, u, hu, hkeeps⟩ := hothers
  rcases hkeeps.log with heq | heq
  · rwa [heq]
  · rw [heq]
    exact hP u _ _ hu h

/-- The log only grows. -/
theorem suffix_stable : Stable (rules inv change) t (fun s => log <:+ s.log) :=
  log_stable fun _ _ _ _ h => h.trans (List.suffix_cons ..)

/-- Nobody commits for another one. -/
theorem unlogged_stable :
    Stable (rules inv change) t (fun s => t ∉ s.log.map Prod.fst) := by
  refine log_stable (P := fun log => t ∉ log.map Prod.fst) ?_
  intro u c log hu h
  rw [List.map_cons, List.mem_cons, not_or]
  exact ⟨Ne.symm hu, h⟩

section Steps

variable [DecidableEq T]

theorem release_same (t : T) (s : Shared T C) :
    (s.release t).committed = s.committed ∧ (s.release t).log = s.log := by
  unfold Shared.release
  split
  · split
    · exact ⟨rfl, rfl⟩
    · exact ⟨rfl, rfl⟩
  · exact ⟨rfl, rfl⟩

variable (change) in
theorem release_keeps (t : T) (s : Shared T C) : Keeps change t s (s.release t) := by
  obtain ⟨hcommitted, hlog⟩ := release_same t s
  refine ⟨.inl hcommitted, .inl hlog, ?_, ?_⟩
  · intro u c hu h
    unfold Shared.release at h
    cases hholder : s.holder with
    | none => simp [hholder] at h
    | some p =>
      obtain ⟨v, d⟩ := p
      by_cases hv : v = t
      · simp [hholder, hv] at h
      · simpa [hholder, hv] using h
  · intro u c hu h
    have hut : (u = t) = False := eq_false hu
    have heq : s.release t = s := by simp [Shared.release, h, hut]
    rw [heq]
    exact ⟨h, rfl, rfl⟩

theorem release_free (t : T) (s : Shared T C) : Free t (s.release t) := by
  intro c hc
  unfold Shared.release at hc
  cases hholder : s.holder with
  | none => simp [hholder] at hc
  | some p =>
    obtain ⟨v, d⟩ := p
    by_cases hv : v = t
    · simp [hholder, hv] at hc
    · simp only [hholder, if_neg hv, Option.some.injEq, Prod.mk.injEq] at hc
      exact hv hc.1

variable (change) in
omit [DecidableEq T] in
/-- Nobody else is concerned by what the holder of the lock does to its copy. -/
theorem copy_keeps (hs : s.holder = some (t, c)) (c' : C) :
    Keeps change t s { s with holder := some (t, c') } := by
  refine ⟨.inl rfl, .inl rfl, ?_, ?_⟩
  · intro u d hu h
    cases h
    exact absurd rfl hu
  · intro u d hu h
    rw [hs] at h
    cases h
    exact absurd rfl hu

/-- Taking the lock, knowing something of the log. -/
theorem wp_lock {k : Bool → Prog (Op Query) (OpReply Reply) ε α}
    {Q : Except ε α → Shared T C → Prop} {P : List (T × C) → Prop}
    (hP : Stable (rules inv change) t (fun s => P s.log)) (hs : Free t s) (hp : P s.log)
    (hheld : ∀ c s', inv c s'.log → P s'.log → Holds t c c s'.log s' →
      wp (system does) (rules inv change) t (k true) Q s')
    (hraised : ∀ s', Free t s' → P s'.log →
      wp (system does) (rules inv change) t (k false) Q s') :
    wp (system does) (rules inv change) t (.exec .lock k) Q s := by
  refine wp_exec (free_stable.and hP) ⟨hs, hp⟩ ?_
  rintro s r s' hinv ⟨hfree, hp⟩ (⟨hr, hnone, rfl⟩ | ⟨hr, rfl⟩)
  · have hr : r = true := hr
    subst hr
    refine ⟨hinv, ⟨.inl rfl, .inl rfl, ?_, ?_⟩, hheld s.committed _ hinv hp ⟨rfl, rfl, rfl⟩⟩
    · intro u c hu h
      cases h
      exact absurd rfl hu
    · intro u c hu h
      rw [hnone] at h
      cases h
  · have hr : r = false := hr
    subst hr
    exact ⟨hinv, .refl change t s', hraised s' hfree hp⟩

/-- A query outside a transaction, knowing something of the log. -/
theorem wp_read {q : Query} {k : Option (Reply q) → Prog (Op Query) (OpReply Reply) ε α}
    {Q : Except ε α → Shared T C → Prop} {P : List (T × C) → Prop}
    (hP : Stable (rules inv change) t (fun s => P s.log)) (hs : Free t s) (hp : P s.log)
    (h : ∀ r s', inv s'.committed s'.log → Free t s' → P s'.log →
      mayRaise does s'.committed q r s'.committed →
      wp (system does) (rules inv change) t (k r) Q s') :
    wp (system does) (rules inv change) t (.exec (.run q) k) Q s := by
  refine wp_exec (free_stable.and hP) ⟨hs, hp⟩ ?_
  rintro s r s' hinv ⟨hfree, hp⟩ (⟨c, c', hholder, _⟩ | ⟨_, hdoes, rfl⟩)
  · exact absurd hholder (hfree c)
  · exact ⟨hinv, .refl change t s', h r s' hinv hfree hp hdoes⟩

theorem wp_commit {k : Bool → Prog (Op Query) (OpReply Reply) ε α}
    {Q : Except ε α → Shared T C → Prop} (hs : Holds t c c₀ log s)
    (hc : inv c₀ log → inv c ((t, c) :: log)) (hchange : c = c₀ ∨ change c₀ c)
    (hdone : ∀ r s', inv c₀ log → Free t s' → s'.committed = c → s'.log = (t, c) :: log →
      wp (system does) (rules inv change) t (k r) Q s')
    (hnot : ∀ s', Holds t c c₀ log s' →
      wp (system does) (rules inv change) t (k false) Q s') :
    wp (system does) (rules inv change) t (.exec .commit k) Q s := by
  refine wp_exec holds_stable hs ?_
  rintro s r s' hinv hholds (⟨d, hholder, rfl | ⟨hr, rfl⟩⟩ | ⟨hfree, _⟩)
  · rw [hholds.holder] at hholder
    cases hholder
    have hinv₀ : inv c₀ log := by
      rw [← hholds.committed, ← hholds.log]
      exact hinv
    have hlog : (t, c) :: s.log = (t, c) :: log := by rw [hholds.log]
    refine ⟨?_, ⟨?_, .inr rfl, ?_, ?_⟩, hdone r _ hinv₀ (fun _ h => by cases h) rfl hlog⟩
    · show inv c ((t, c) :: s.log)
      rw [hlog]
      exact hc hinv₀
    · rw [hholds.committed]
      exact hchange
    · intro u d hu h
      cases h
    · intro u d hu h
      rw [hholds.holder] at h
      cases h
      exact absurd rfl hu
  · have hr : r = false := hr
    subst hr
    exact ⟨hinv, .refl change t s', hnot s' hholds⟩
  · exact absurd hholds.holder (hfree c)

/-- Giving up the copy, knowing something of what is committed and of the log. -/
theorem wp_release {op : Op Query} (hop : op = .rollback ∨ op = .close)
    {k : OpReply Reply op → Prog (Op Query) (OpReply Reply) ε α}
    {Q : Except ε α → Shared T C → Prop} {P : C → List (T × C) → Prop}
    (hP : Stable (rules inv change) t (fun s => P s.committed s.log)) (hs : P s.committed s.log)
    (h : ∀ r s', inv s'.committed s'.log → Free t s' → P s'.committed s'.log →
      wp (system does) (rules inv change) t (k r) Q s') :
    wp (system does) (rules inv change) t (.exec op k) Q s := by
  refine wp_exec hP hs ?_
  intro s r s' hinv hp heffect
  have heq : s' = s.release t := by
    rcases hop with rfl | rfl
    · exact heffect
    · exact heffect
  subst heq
  obtain ⟨hcommitted, hlog⟩ := release_same t s
  have hinv' : inv (s.release t).committed (s.release t).log := by
    rw [hcommitted, hlog]
    exact hinv
  refine ⟨hinv', release_keeps change t s, h r _ hinv' (release_free t s) ?_⟩
  rw [hcommitted, hlog]
  exact hp

/-- Closing the connection, to end as `out` says. -/
theorem wp_closing {out : Except ε α} {P : C → List (T × C) → Prop}
    (hP : Stable (rules inv change) t (fun s => P s.committed s.log))
    (hs : P s.committed s.log) :
    wp (system does) (rules inv change) t (Prog.closing .close out)
      (fun out' s' => out' = out ∧ P s'.committed s'.log) s := by
  refine wp_release (.inr rfl) hP hs ?_
  intro _ s' _ _ hp
  cases out with
  | ok a => exact wp_pure hP hp fun _ _ hp => ⟨rfl, hp⟩
  | error e => exact wp_fail hP hp fun _ _ hp => ⟨rfl, hp⟩

/-- Rolling back, then closing, to raise `e`. -/
theorem wp_abandoning {e : ε} :
    wp (system does) (rules inv change) t
      (.exec .rollback fun _ => (Prog.closing .close (.error e) : Prog (Op Query) (OpReply Reply) ε α))
      (fun out _ => out = .error e) s := by
  refine wp_release (P := fun _ _ => True) (.inl rfl) true_stable trivial ?_
  intro _ s' _ _ _
  refine wp_mono (fun _ _ _ h => h.1) (wp_closing (P := fun _ _ => True) true_stable trivial)

end Steps

/-! ## Bodies -/

/-- The queries of a body, as statements. -/
def onConnection : Prog Query (fun q => Option (Reply q)) ε α →
    Prog (Op Query) (OpReply Reply) ε α
  | .pure a => .pure a
  | .fail e => .fail e
  | .exec q k => .exec (.run q) fun r => onConnection (k r)

/-- A query, or the failure that it raised. -/
def ask (fault : ε) (q : Query) : Prog Query (fun q => Option (Reply q)) ε (Reply q) :=
  .exec q fun r => r.elim (.fail fault) .pure

/-- **What a body ensures on its own, it ensures under the lock.** -/
theorem wp_body [DecidableEq T] {body : Prog Query (fun q => Option (Reply q)) ε α}
    {P : Except ε α → C → Prop} (h : body.ensures (mayRaise does) P c) (hs : Holds t c c₀ log s) :
    wp (system does) (rules inv change) t (onConnection body)
      (fun out s' => ∃ c', P out c' ∧ Holds t c' c₀ log s') s := by
  induction body generalizing c s with
  | pure a => exact wp_pure holds_stable hs fun _ _ hholds => ⟨c, h, hholds⟩
  | fail e => exact wp_fail holds_stable hs fun _ _ hholds => ⟨c, h, hholds⟩
  | exec q k ih =>
    refine wp_exec holds_stable hs ?_
    rintro s r s' hinv hholds (⟨d, d', hholder, hdoes, rfl⟩ | ⟨hfree, _⟩)
    · rw [hholds.holder] at hholder
      cases hholder
      exact ⟨hinv, copy_keeps change hholds.holder d',
        ih r (h r d' hdoes) ⟨rfl, hholds.committed, hholds.log⟩⟩
    · exact absurd hholds.holder (hfree c)

theorem ensures_ask {fault : ε} {q : Query}
    {f : Reply q → Prog Query (fun q => Option (Reply q)) ε α} {P : Except ε α → C → Prop}
    (hraised : P (.error fault) c)
    (h : ∀ x c', does c q x c' → (f x).ensures (mayRaise does) P c') :
    (ask fault q >>= f).ensures (mayRaise does) P c := by
  rintro r c' (⟨x, rfl, hdoes⟩ | ⟨rfl, rfl⟩)
  · exact h x c' hdoes
  · exact hraised

theorem allows_ask {fault : ε} {q : Query} {c' : C}
    {f : Reply q → Prog Query (fun q => Option (Reply q)) ε α} {P : Except ε α → C → Prop}
    (x : Reply q) (hdoes : does c q x c') (h : (f x).allows (mayRaise does) P c') :
    (ask fault q >>= f).allows (mayRaise does) P c :=
  Prog.allows_exec (some x) (.inl ⟨x, rfl, hdoes⟩) h

/-- A lock that is free can be taken. -/
theorem allows_lock [DecidableEq T] {k : Bool → Prog (Op Query) (OpReply Reply) ε α}
    {Q : Except ε α → Shared T C → Prop} (hfree : s.holder = none)
    (h : (k true).allows (Effect does t) Q { s with holder := some (t, s.committed) }) :
    (Prog.exec .lock k).allows (Effect does t) Q s :=
  Prog.allows_exec true (.inl ⟨rfl, hfree, rfl⟩) h

/-- **An end that a body can come to on its own, it can come to under the lock.** -/
theorem allows_body [DecidableEq T] {body : Prog Query (fun q => Option (Reply q)) ε α}
    {P : Except ε α → C → Prop} (h : body.allows (mayRaise does) P c)
    (hs : s.holder = some (t, c)) :
    (onConnection body).allows (Effect does t)
      (fun out s' => ∃ c', P out c' ∧ s' = { s with holder := some (t, c') }) s := by
  induction body generalizing c s with
  | pure a => exact ⟨c, h, by rw [← hs]⟩
  | fail e => exact ⟨c, h, by rw [← hs]⟩
  | exec q k ih =>
    obtain ⟨r, c₁, hdoes, hrest⟩ := h
    exact Prog.allows_exec r (.inl ⟨c, c₁, hs, hdoes, rfl⟩)
      (ih r (s := { s with holder := some (t, c₁) }) hrest rfl)

/-! ## Runs -/

/-- A client that dies leaves its copy behind, and nothing else changes. -/
theorem kill_keeps [DecidableEq T] (t : T) (s s' : Shared T C) (hinv : (rules inv change).inv s)
    (hkill : (system does).kill t s s') :
    (rules inv change).inv s' ∧ (rules inv change).guar t s s' := by
  have hkill : s' = s.release t := hkill
  subst hkill
  refine ⟨?_, release_keeps change t s⟩
  obtain ⟨hcommitted, hlog⟩ := release_same t s
  show inv (s.release t).committed (s.release t).log
  rw [hcommitted, hlog]
  exact hinv

/-- Nobody holds the lock at the start, and what every client ends with is what its `wp` says. -/
theorem reachable_committed [DecidableEq T] {c₀ : C}
    {progs : T → Prog (Op Query) (OpReply Reply) ε α}
    {Q : T → Except ε α → C → List (T × C) → Prop} (hinv : inv c₀ [])
    (hwp : ∀ t, wp (system does) (rules inv change) t (progs t)
      (fun out s => Q t out s.committed s.log) ⟨c₀, none, []⟩)
    {c : Config T (Shared T C) (Op Query) (OpReply Reply) ε α}
    (hc : Reachable (system does) ⟨c₀, none, []⟩ progs c) :
    inv c.state.committed c.state.log ∧ ∀ t out, c.prog t = some (.ofExcept out) →
      Q t out c.state.committed c.state.log := by
  obtain ⟨hinv', hthreads⟩ := reachable_wp (R := rules inv change)
    (Q := fun t out s => Q t out s.committed s.log)
    (show (rules inv change).inv (⟨c₀, none, []⟩ : Shared T C) from hinv) kill_keeps hwp hc
  refine ⟨hinv', ?_⟩
  intro t out hp
  exact wp_ended hinv' out (hthreads t _ hp)

/-- From one configuration to a later one the log only grows, and a client that begins in between
ends as it should after what was on the log before it. -/
theorem later_committed [DecidableEq T] {c₀ : C}
    {progs : T → Prog (Op Query) (OpReply Reply) ε α}
    {Q : T → List (T × C) → Except ε α → C → List (T × C) → Prop} (hinv : inv c₀ [])
    (hwp : ∀ t s, inv s.committed s.log → Free t s → t ∉ s.log.map Prod.fst →
      wp (system does) (rules inv change) t (progs t)
        (fun out s' => Q t s.log out s'.committed s'.log) s)
    {c₁ c : Config T (Shared T C) (Op Query) (OpReply Reply) ε α}
    (h₁ : Reachable (system does) ⟨c₀, none, []⟩ progs c₁)
    (h : Relation.ReflTransGen (Step (system does)) c₁ c) :
    inv c.state.committed c.state.log ∧ c₁.state.log <:+ c.state.log ∧
      ∀ t out, c₁.prog t = some (progs t) → c.prog t = some (.ofExcept out) →
        Q t c₁.state.log out c.state.committed c.state.log := by
  have hstart : ∀ t, wp (system does) (rules inv change) t (progs t)
      (fun out s' => Q t [] out s'.committed s'.log) ⟨c₀, none, []⟩ :=
    fun t => hwp t ⟨c₀, none, []⟩ hinv (fun _ h => by cases h) List.not_mem_nil
  have hinv₀ : (rules inv change).inv (⟨c₀, none, []⟩ : Shared T C) := hinv
  obtain ⟨hinv₁, hthreads₁⟩ := reachable_wp hinv₀ kill_keeps hstart h₁
  have hunbegun : ∀ t, c₁.prog t = some (progs t) →
      Free t c₁.state ∧ t ∉ c₁.state.log.map Prod.fst := fun t hp =>
    h₁.unbegun hinv₀ kill_keeps hstart (free_stable.and unlogged_stable)
      ⟨(fun _ h => by cases h), List.not_mem_nil⟩ hp
  obtain ⟨hinv', hthreads⟩ := steps_wp (R := rules inv change) kill_keeps hinv₁
    (Q := fun t out s' => c₁.prog t = some (progs t) →
      Q t c₁.state.log out s'.committed s'.log) (fun t p hp => by
    by_cases hbegun : c₁.prog t = some (progs t)
    · obtain ⟨hfree, hnew⟩ := hunbegun t hbegun
      rw [hbegun] at hp
      cases hp
      exact wp_mono (fun _ _ _ h _ => h) (hwp t c₁.state hinv₁ hfree hnew)
    · exact wp_mono (fun _ _ _ _ h => absurd h hbegun) (hthreads₁ t p hp)) h
  refine ⟨hinv', ?_, ?_⟩
  · have hgrows : ∀ s', Relation.ReflTransGen (fun s s' => ∃ u, Keeps change u s s') c₁.state s' →
        c₁.state.log <:+ s'.log := by
      intro s' hguar
      induction hguar with
      | refl => exact List.suffix_rfl
      | tail _ hkeeps ih =>
        obtain ⟨u, hkeeps⟩ := hkeeps
        rcases hkeeps.log with heq | heq
        · rwa [heq]
        · rw [heq]
          exact ih.trans (List.suffix_cons ..)
    exact hgrows _ (reachable_guar hinv₀ kill_keeps hstart h₁ h)
  · exact fun t out hbegun hp => wp_ended hinv' out (hthreads t _ hp) hbegun

end DrStore.Base.Exclusive
