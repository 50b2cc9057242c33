import DrStore.Base.Exclusive

/-! # Serial histories

Transactions under one lock leave a serial history: every commit on the log is what its client
does to what the commit before it left. `transact` is a transaction whose statements may raise,
and `wp_transact` finds its place on the log from the sequential behaviour of its body; `wp_reads`
says what a body sees that takes no lock. A client that begins after another one has committed
comes after it on the log, since the log only grows. -/
namespace DrStore.Base.Histories
open DrStore.Base.Exclusive DrStore.Base.Pool DrStore.Base.Programs

variable {T C Query : Type} {Reply : Query → Type} {ε α : Type}

/-! ## Logs -/

/-- What the last commit of a log left. -/
def latest (c₀ : C) : List (T × C) → C
  | [] => c₀
  | (_, c) :: _ => c

/-- Each commit is what `ran` says of its client on what was left before it. -/
def Serial (ran : T → C → C → Prop) (c₀ : C) : List (T × C) → Prop
  | [] => True
  | (t, c) :: log => ran t (latest c₀ log) c ∧ Serial ran c₀ log

/-- A point of an order, not before `since`. -/
def Between {A : Type} (since order pre : List A) : Prop := since <:+ pre ∧ pre <:+ order

structure History (ran : T → C → C → Prop) (c₀ c : C) (log : List (T × C)) : Prop where
  committed : c = latest c₀ log
  serial : Serial ran c₀ log
  once : (log.map Prod.fst).Nodup

abbrev histories (ran : T → C → C → Prop) (c₀ : C) : Rules T (Shared T C) :=
  rules (History ran c₀) fun _ _ => True

variable {ran : T → C → C → Prop} {c₀ c c' : C} {t : T} {log pre : List (T × C)}

theorem History.start : History ran c₀ c₀ [] := ⟨rfl, trivial, List.nodup_nil⟩

theorem History.push (h : History ran c₀ c log) (ht : t ∉ log.map Prod.fst) (hran : ran t c c') :
    History ran c₀ c' ((t, c') :: log) where
  committed := rfl
  serial := ⟨h.committed ▸ hran, h.serial⟩
  once := List.nodup_cons.mpr ⟨ht, h.once⟩

theorem Serial.suffix (h : Serial ran c₀ log) (hpre : pre <:+ log) : Serial ran c₀ pre := by
  induction log with
  | nil => rwa [List.suffix_nil.mp hpre]
  | cons p log ih =>
    rcases List.suffix_cons_iff.mp hpre with rfl | hpre
    · exact h
    · exact ih h.2 hpre

/-- A serial history is one whose every place is as it should be. -/
theorem serial_iff : Serial ran c₀ log ↔
    ∀ t c pre, (t, c) :: pre <:+ log → ran t (latest c₀ pre) c := by
  constructor
  · exact fun h t c pre hplace => (h.suffix hplace).1
  · intro h
    induction log with
    | nil => trivial
    | cons p log ih =>
      exact ⟨h p.1 p.2 log List.suffix_rfl,
        ih fun t c pre hplace => h t c pre (hplace.trans (List.suffix_cons ..))⟩

/-- Who commits once has one place. -/
theorem place_unique {pre' : List (T × C)} (honce : (log.map Prod.fst).Nodup)
    (h : (t, c) :: pre <:+ log) (h' : (t, c') :: pre' <:+ log) : c' = c ∧ pre' = pre := by
  induction log with
  | nil => cases List.suffix_nil.mp h
  | cons p log ih =>
    obtain ⟨hnew, honce⟩ := List.nodup_cons.mp honce
    have hmem : ∀ {c pre}, (t, c) :: pre <:+ log → t ∈ log.map Prod.fst := fun hplace =>
      List.mem_map_of_mem (hplace.mem List.mem_cons_self)
    rcases List.suffix_cons_iff.mp h with hfirst | hlater
    · rcases List.suffix_cons_iff.mp h' with hfirst' | hlater'
      · cases hfirst.trans hfirst'.symm
        exact ⟨rfl, rfl⟩
      · cases hfirst
        exact absurd (hmem hlater') hnew
    · rcases List.suffix_cons_iff.mp h' with hfirst' | hlater'
      · cases hfirst'
        exact absurd (hmem hlater) hnew
      · exact ih honce hlater hlater'

/-- Clients that are functions: what is committed is these, one after another. -/
theorem Serial.latest_eq {f : T → C → C} (hran : ∀ t c c', ran t c c' → c' = f t c)
    (h : Serial ran c₀ log) : latest c₀ log = (log.map Prod.fst).foldr f c₀ := by
  induction log with
  | nil => rfl
  | cons p log ih =>
    show p.2 = f p.1 ((log.map Prod.fst).foldr f c₀)
    rw [hran p.1 _ p.2 h.1, ih h.2]

/-! ## Bodies whose queries may raise -/

/-- The error `none` is whatever the database raised. -/
def raising : Prog Query Reply ε α → Prog Query (fun q => Option (Reply q)) (Option ε) α
  | .pure a => .pure a
  | .fail e => .fail (some e)
  | .exec q k => .exec q fun r => r.elim (.fail none) fun x => raising (k x)

variable {does : C → (q : Query) → Reply q → C → Prop}

theorem ensures_raising {body : Prog Query Reply ε α} {P : Except ε α → C → Prop}
    (h : body.ensures does P c) :
    (raising body).ensures (mayRaise does) (fun out c' => out = .error none ∨
      ∃ out₀, out = out₀.mapError some ∧ P out₀ c') c := by
  induction body generalizing c with
  | pure a => exact .inr ⟨.ok a, rfl, h⟩
  | fail e => exact .inr ⟨.error e, rfl, h⟩
  | exec q k ih =>
    rintro r c' (⟨x, rfl, hdoes⟩ | ⟨rfl, rfl⟩)
    · exact ih x (h x c' hdoes)
    · exact .inl rfl

/-- Commit what returned; `ending` is what follows. -/
def handlers (ending : Except (Option ε) α → Prog (Op Query) (OpReply Reply) (Option ε) α) :
    Except (Option ε) α → Prog (Op Query) (OpReply Reply) (Option ε) α
  | .ok a => .exec .commit fun done => ending (if done = true then .ok a else .error none)
  | .error e => ending (.error e)

/-- A transaction: lock, body, commit. `refused` is what follows a lock that raised. -/
def transact (body : Prog Query Reply ε α)
    (refused : Prog (Op Query) (OpReply Reply) (Option ε) α)
    (ending : Except (Option ε) α → Prog (Op Query) (OpReply Reply) (Option ε) α) :
    Prog (Op Query) (OpReply Reply) (Option ε) α :=
  .exec .lock fun locked =>
    if locked = true then (onConnection (raising body)).settle (handlers ending) else refused

/-! ## Their place in the history -/

section Clients

variable [DecidableEq T] {s : Shared T C}

/-- A program that ends with `out` and leaves the log alone. -/
def Just (does : C → (q : Query) → Reply q → C → Prop) (ran : T → C → C → Prop) (c₀ : C) (t : T)
    (out : Except ε α) (p : Prog (Op Query) (OpReply Reply) ε α) : Prop :=
  ∀ (P : List (T × C) → Prop) (s : Shared T C),
    Stable (histories ran c₀) t (fun s => P s.log) → P s.log →
      wp (system does) (histories ran c₀) t p (fun out' s' => out' = out ∧ P s'.log) s

theorem just_ofExcept (out : Except ε α) : Just does ran c₀ t out (Prog.ofExcept out) := by
  intro P s hP hs
  cases out with
  | ok a => exact wp_pure hP hs fun _ _ hp => ⟨rfl, hp⟩
  | error e => exact wp_fail hP hs fun _ _ hp => ⟨rfl, hp⟩

theorem just_closing (out : Except ε α) : Just does ran c₀ t out (Prog.closing .close out) :=
  fun P _ hP hs => wp_closing (P := fun _ log => P log) hP hs

/-- What is given up is no longer a transaction. -/
theorem just_rollback {out : Except ε α} {p : Prog (Op Query) (OpReply Reply) ε α}
    (h : Just does ran c₀ t out p) : Just does ran c₀ t out (.exec .rollback fun _ => p) :=
  fun P _ hP hs => wp_release (P := fun _ log => P log) (.inl rfl) hP hs
    fun _ s' _ _ hp => h P s' hP hp

/-- How a transaction has ended that began after `since`: it returned, and its commit is on the
log where `P` holds; it raised an error of its own, by `P` on what it found, and has not committed;
or the database raised. -/
def Ended (P : C → Except ε α → C → Prop) (c₀ : C) (t : T) (since log : List (T × C)) :
    Except (Option ε) α → Prop
  | .ok a => ∃ pre c, since <:+ pre ∧ (t, c) :: pre <:+ log ∧ P (latest c₀ pre) (.ok a) c
  | .error (some e) => t ∉ log.map Prod.fst ∧ ∃ pre c, since <:+ pre ∧ pre <:+ log ∧
      P (latest c₀ pre) (.error e) c
  | .error none => True

/-- **A transaction has its place in the history**, by what its body does on its own. -/
theorem wp_transact {body : Prog Query Reply ε α} {P : C → Except ε α → C → Prop}
    {refused : Prog (Op Query) (OpReply Reply) (Option ε) α}
    {ending : Except (Option ε) α → Prog (Op Query) (OpReply Reply) (Option ε) α}
    (hbody : ∀ c, body.ensures does (P c) c) (hran : ∀ c a c', P c (.ok a) c' → ran t c c')
    (hrefused : Just does ran c₀ t (.error none) refused)
    (hending : ∀ out, Just does ran c₀ t out (ending out))
    (hs : Free t s) (hnew : t ∉ s.log.map Prod.fst) :
    wp (system does) (histories ran c₀) t (transact body refused ending)
      (fun out s' => Ended P c₀ t s.log s'.log out) s := by
  have hraised : ∀ {p : Prog (Op Query) (OpReply Reply) (Option ε) α} (s' : Shared T C),
      Just does ran c₀ t (.error none) p → wp (system does) (histories ran c₀) t p
        (fun out s' => Ended P c₀ t s.log s'.log out) s' := by
    intro p s' hp
    refine wp_mono ?_ (hp (fun _ => True) s' true_stable trivial)
    rintro _ _ _ ⟨rfl, _⟩
    trivial
  refine wp_lock (P := fun log => s.log <:+ log ∧ t ∉ log.map Prod.fst)
    (suffix_stable.and unlogged_stable) hs ⟨List.suffix_rfl, hnew⟩ ?_ fun s' _ _ =>
      hraised s' hrefused
  intro c s₁ hhistory hlog hholds
  obtain ⟨hsince, hnew⟩ := hlog
  have hinv : (histories ran c₀).inv s₁ := by
    show History ran c₀ s₁.committed s₁.log
    rw [hholds.committed]
    exact hhistory
  refine wp_settle hinv (wp_mono ?_ (wp_body (ensures_raising (hbody c)) hholds))
  rintro out s₂ _ ⟨c', heq | ⟨out₀, rfl, hp⟩, hholds⟩
  · cases heq
    exact hraised s₂ (hending _)
  · rw [hhistory.committed] at hp
    cases out₀ with
    | ok a =>
      refine wp_commit hholds (fun h => h.push hnew ?_) (.inr trivial) ?_
        fun s₃ _ => hraised s₃ (hending _)
      · rw [hhistory.committed]
        exact hran _ a c' hp
      · intro r s₃ _ _ _ hlogged
        refine wp_mono ?_ (hending _ (fun log => (t, c') :: s₁.log <:+ log) s₃ suffix_stable
          (hlogged ▸ List.suffix_rfl))
        rintro _ s₄ _ ⟨rfl, hlogged⟩
        cases r with
        | true => exact ⟨s₁.log, c', hsince, hlogged, hp⟩
        | false => trivial
    | error e =>
      have hlog : t ∉ s₂.log.map Prod.fst ∧ s₁.log <:+ s₂.log := by
        rw [hholds.log]
        exact ⟨hnew, List.suffix_rfl⟩
      refine wp_mono ?_ (hending _ (fun log => t ∉ log.map Prod.fst ∧ s₁.log <:+ log) s₂
        (unlogged_stable.and suffix_stable) hlog)
      rintro _ s₃ _ ⟨rfl, hnew, hlog⟩
      exact ⟨hnew, s₁.log, c', hsince, hlog, hp⟩

/-- Outside a transaction a query sees what is committed by then. -/
def Sees (does : C → (q : Query) → Reply q → C → Prop) (c₀ : C) (pre : List (T × C)) (q : Query)
    (r : Reply q) (pre' : List (T × C)) : Prop :=
  pre <:+ pre' ∧ does (latest c₀ pre') q r (latest c₀ pre')

omit [DecidableEq T] in
/-- One query sees one point of the history. -/
theorem ensures_sees {q : Query} {out : Reply q → Except ε α} {P : C → Except ε α → C → Prop}
    (h : ∀ c, (Prog.exec q fun r => Prog.ofExcept (out r)).ensures does (P c) c) :
    (Prog.exec q fun r => Prog.ofExcept (out r)).ensures (Sees does c₀)
      (fun o pre' => pre <:+ pre' ∧ P (latest c₀ pre') o (latest c₀ pre')) pre := by
  rintro r pre' ⟨hpre, hdoes⟩
  have hp : (Prog.ofExcept (out r)).ensures does (P (latest c₀ pre')) (latest c₀ pre') :=
    h _ r _ hdoes
  show (Prog.ofExcept (out r)).ensures (Sees does c₀) _ pre'
  cases hout : out r with
  | ok a =>
    rw [hout] at hp
    exact ⟨hpre, hp⟩
  | error e =>
    rw [hout] at hp
    exact ⟨hpre, hp⟩

/-- A body that takes no lock. -/
theorem wp_reads {body : Prog Query Reply ε α} {P : Except ε α → List (T × C) → Prop}
    (hbody : body.ensures (Sees does c₀) P pre) (hs : Free t s) (hpre : pre <:+ s.log)
    (hnew : t ∉ s.log.map Prod.fst) :
    wp (system does) (histories ran c₀) t (onConnection (raising body)) (fun out s' =>
      out = .error none ∨ ∃ out₀ pre', out = out₀.mapError some ∧ pre' <:+ s'.log ∧
        t ∉ s'.log.map Prod.fst ∧ P out₀ pre') s := by
  induction body generalizing pre s with
  | pure a =>
    exact wp_pure (suffix_stable.and unlogged_stable) ⟨hpre, hnew⟩ fun _ _ hlog =>
      .inr ⟨.ok a, pre, rfl, hlog.1, hlog.2, hbody⟩
  | fail e =>
    exact wp_fail (suffix_stable.and unlogged_stable) ⟨hpre, hnew⟩ fun _ _ hlog =>
      .inr ⟨.error e, pre, rfl, hlog.1, hlog.2, hbody⟩
  | exec q k ih =>
    refine wp_read (P := fun log => pre <:+ log ∧ t ∉ log.map Prod.fst)
      (suffix_stable.and unlogged_stable) hs ⟨hpre, hnew⟩ ?_
    rintro r s' hhistory hfree ⟨hpre, hnew⟩ (⟨x, rfl, hdoes⟩ | ⟨rfl, _⟩)
    · rw [hhistory.committed] at hdoes
      exact ih x (hbody x s'.log ⟨hpre, hdoes⟩) hfree List.suffix_rfl hnew
    · exact wp_fail true_stable trivial fun _ _ _ => .inl rfl

/-- From one configuration to a later one: the history goes on, and a client that begins in between
ends as its `wp` says of the log before it. -/
theorem later_history {progs : T → Prog (Op Query) (OpReply Reply) ε α}
    {Q : T → List (T × C) → Except ε α → List (T × C) → Prop}
    (hwp : ∀ t s, History ran c₀ s.committed s.log → Free t s → t ∉ s.log.map Prod.fst →
      wp (system does) (histories ran c₀) t (progs t) (fun out s' => Q t s.log out s'.log) s)
    {k₁ k : Config T (Shared T C) (Op Query) (OpReply Reply) ε α}
    (h₁ : Reachable (system does) ⟨c₀, none, []⟩ progs k₁)
    (h : Relation.ReflTransGen (Step (system does)) k₁ k) :
    History ran c₀ k.state.committed k.state.log ∧ k₁.state.log <:+ k.state.log ∧
      ∀ t out, k₁.prog t = some (progs t) → k.prog t = some (.ofExcept out) →
        Q t k₁.state.log out k.state.log :=
  @later_committed _ _ _ _ _ _ does (History ran c₀) (fun _ _ => True) _ c₀ progs
    (fun t since out _ log => Q t since out log) .start hwp k₁ k h₁ h

/-! ## A client alone -/

theorem raising_allows {g : C → (q : Query) → Reply q × C}
    (hg : ∀ c q, does c q (g c q).1 (g c q).2) (body : Prog Query Reply ε α) :
    (raising body).allows (mayRaise does)
      (fun out c' => out = (body.run g c).1.mapError some ∧ c' = (body.run g c).2) c := by
  induction body generalizing c with
  | pure a => exact ⟨rfl, rfl⟩
  | fail e => exact ⟨rfl, rfl⟩
  | exec q rest ih =>
    exact Prog.allows_exec (some (g c q).1) (.inl ⟨_, rfl, hg c q⟩) (ih (g c q).1)

/-- A client that finds the lock free can go through its transaction, and commit. -/
theorem allows_transact {g : C → (q : Query) → Reply q × C}
    (hg : ∀ c q, does c q (g c q).1 (g c q).2) {body : Prog Query Reply ε α}
    {refused : Prog (Op Query) (OpReply Reply) (Option ε) α}
    {ending : Except (Option ε) α → Prog (Op Query) (OpReply Reply) (Option ε) α}
    {Q : Except (Option ε) α → Shared T C → Prop} (hfree : s.holder = none) {a : α}
    (hrun : body.run g s.committed = (.ok a, c))
    (h : (ending (.ok a)).allows (Effect does t) Q ⟨c, none, (t, c) :: s.log⟩) :
    (transact body refused ending).allows (Effect does t) Q s := by
  refine allows_lock hfree ((Prog.allows_settle _ _ _ _).mpr ?_)
  refine Prog.allows_mono (allows_body (raising_allows hg body) rfl) ?_
  rintro _ _ ⟨_, ⟨rfl, rfl⟩, rfl⟩
  rw [hrun]
  exact Prog.allows_exec true (.inl ⟨c, rfl, .inl rfl⟩) h

end Clients

end DrStore.Base.Histories
