import DrStore.Sync.Sessions

/-! # Opening and closing one session (sync/blocking.py, `_StoreSession.open` and `close`)

Whoever holds the open lock is the only one who changes what a session has opened or closed.
Hence the backend is opened at most once, what is open stays so until someone closes it, and a
`close` that ends leaves nothing open. -/
namespace DrStore.Sync.Lifecycle
open DrStore.Base.Programs DrStore.Base.Pool DrStore.Sync.Sessions

variable {T V : Type}

/-! ## What the lock protects -/

/-- What was opened was closed, or nothing was opened. -/
def Shut (s : Session T V) : Prop := s.opens = 0 ∨ ∃ out, s.aclose = .done out

/-- What holds whenever nobody holds the open lock. -/
structure Settled (s : Session T V) : Prop where
  store : s.store = s.backend
  opened : s.backend = true → s.closed = false ∧ s.opens = 1
  shut : s.backend = false → s.opens = 0 ∨ s.closed = true ∧ Shut s

/-- The store was opened, and is gone only if the session was closed. -/
def Opened (s : Session T V) : Prop := s.opens = 1 ∧ (s.store = true ∨ s.closed = true)

structure Released (s : Session T V) : Prop where
  closed : s.closed = true
  store : s.store = false
  backend : s.backend = false
  shut : Shut s

/-- The closed flag is set; what was opened still has to be closed. -/
def Closing (s : Session T V) : Prop := s.closed = true ∧ (s.backend = false → Shut s)

/-- The session cannot be opened: it was closed, or failed to open. -/
def Broken (s : Session T V) : Prop := s.closed = true ∨ s.openFailure ≠ none

structure Sound (s : Session T V) : Prop where
  settled : s.openLock = none → Settled s
  single : s.opens ≤ 1
  failed : s.openFailure ≠ none → s.opens = 0

/-- What steps of others leave alone while somebody holds the lock. -/
structure Same (s s' : Session T V) : Prop where
  closed : s'.closed = s.closed
  backend : s'.backend = s.backend
  store : s'.store = s.store
  openFailure : s'.openFailure = s.openFailure
  opens : s'.opens = s.opens
  aclose : ∀ out, s.aclose = .done out → s'.aclose = .done out

/-- A step of `t`; only those of `closer` close the session. -/
structure Guarantee (closer : Party T → Prop) (t : Party T) (s s' : Session T V) : Prop where
  held : ∀ u, s.openLock = some u → t ≠ .client u → s'.openLock = some u ∧ Same s s'
  closed : s.closed = true → s'.closed = true
  closes : s.closed = false → s'.closed = true → closer t
  failed : s.openFailure ≠ none → s'.openFailure ≠ none
  opened : Opened s → Opened s'
  released : Released s → Released s'

def rules (closer : Party T → Prop) : Rules (Party T) (Session T V) := ⟨Sound, Guarantee closer⟩

/-- Thread `t` holds the lock, and `P` holds of what it protects. -/
def Holds (t : T) (P : Session T V → Prop) (s : Session T V) : Prop := s.openLock = some t ∧ P s

structure Unopened (s : Session T V) : Prop where
  closed : s.closed = false
  backend : s.backend = false
  store : s.store = false
  openFailure : s.openFailure = none
  opens : s.opens = 0

/-- The backend was opened just now. -/
structure Opening (s : Session T V) : Prop where
  closed : s.closed = false
  openFailure : s.openFailure = none
  opens : s.opens = 1

def Permitted (closer : Party T → Prop) (s : Session T V) (t : T) : Op V → Prop
  | .readClosed | .lockOpen | .readStore | .readFailure | .reraise _ | .startThread | .tornDown
  | .drain _ | .acloseResult | .isAlive | .stopLoop | .join => True
  | .unlockOpen => Holds t Settled s
  | .openBackend | .setFailure _ => Holds t Unopened s
  | .setStore => Holds t Opening s
  | .markClosed => Holds t Settled s ∧ closer (.client t)
  | .submitAclose => Holds t (·.closed = true) s
  | .tearDown => Holds t (fun s => s.closed = true ∧ Shut s) s
  | _ => False

/-! ### Single steps -/

theorem Same.shut {s s' : Session T V} (h : Same s s') (hs : Shut s) : Shut s' := by
  obtain hnever | ⟨out, hdone⟩ := hs
  · exact .inl (h.opens.trans hnever)
  · exact .inr ⟨out, h.aclose out hdone⟩

theorem Same.settled {s s' : Session T V} (h : Same s s') (hs : Settled s) : Settled s' where
  store := by rw [h.store, h.backend, hs.store]
  opened := by
    rw [h.backend, h.closed, h.opens]
    exact hs.opened
  shut := by
    rw [h.backend, h.closed, h.opens]
    exact fun hb => (hs.shut hb).imp_right fun hc => ⟨hc.1, h.shut hc.2⟩

theorem Same.released {s s' : Session T V} (h : Same s s') (hs : Released s) : Released s' :=
  ⟨h.closed.trans hs.closed, h.store.trans hs.store, h.backend.trans hs.backend, h.shut hs.shut⟩

theorem Same.closing {s s' : Session T V} (h : Same s s') (hs : Closing s) : Closing s' :=
  ⟨h.closed.trans hs.1, fun hb => h.shut (hs.2 (h.backend.symm.trans hb))⟩

theorem Same.opened {s s' : Session T V} (h : Same s s') (hs : Opened s) : Opened s' := by
  unfold Opened
  rw [h.opens, h.store, h.closed]
  exact hs

theorem Released.settled {s : Session T V} (h : Released s) : Settled s :=
  ⟨h.store.trans h.backend.symm, fun hb => absurd (h.backend.symm.trans hb) (by simp),
    fun _ => .inr ⟨h.closed, h.shut⟩⟩

/-- A step that changes nothing the lock protects, nor the lock. -/
theorem same_kept {closer : Party T → Prop} {s s' : Session T V} (t : Party T) (h : Sound s)
    (hsame : Same s s') (hlock : s'.openLock = s.openLock) :
    Sound s' ∧ Guarantee closer t s s' := by
  refine ⟨⟨?_, ?_, ?_⟩, ⟨?_, ?_, ?_, ?_, hsame.opened, hsame.released⟩⟩
  · rw [hlock]
    exact fun hfree => hsame.settled (h.settled hfree)
  · rw [hsame.opens]
    exact h.single
  · rw [hsame.openFailure, hsame.opens]
    exact h.failed
  · rw [hlock]
    exact fun _ hheld _ => ⟨hheld, hsame⟩
  · exact fun hs => hsame.closed.trans hs
  · intro hopen hclosed
    rw [hsame.closed, hopen] at hclosed
    cases hclosed
  · rw [hsame.openFailure]
    exact fun hs => hs

theorem idle_kept {closer : Party T → Prop} {s : Session T V} (t : Party T) (h : Sound s) :
    Sound s ∧ Guarantee closer t s s :=
  same_kept t h ⟨rfl, rfl, rfl, rfl, rfl, fun _ hs => hs⟩ rfl

/-- A step of the thread that holds the lock. -/
theorem holder_kept {closer : Party T → Prop} {s s' : Session T V} {t : T}
    (hlock : s.openLock = some t) (hsound : Sound s') (hclosed : s.closed = true → s'.closed = true)
    (hcloses : s.closed = false → s'.closed = true → closer (.client t))
    (hfailed : s.openFailure ≠ none → s'.openFailure ≠ none) (hopened : Opened s → Opened s')
    (hreleased : Released s → Released s') : Sound s' ∧ Guarantee closer (.client t) s s' := by
  refine ⟨hsound, ?_, hclosed, hcloses, hfailed, hopened, hreleased⟩
  intro u hu hne
  rw [hlock] at hu
  cases hu
  exact absurd rfl hne

theorem lockOpen_kept {closer : Party T → Prop} {s : Session T V} {t : T} (h : Sound s)
    (hfree : s.openLock = none) : Sound { s with openLock := some t } ∧
      Guarantee closer (.client t) s { s with openLock := some t } := by
  refine ⟨⟨(fun hs => by cases hs), h.single, h.failed⟩, ?_, fun hs => hs, ?_, fun hs => hs,
    fun hs => hs, fun hs => ⟨hs.closed, hs.store, hs.backend, hs.shut⟩⟩
  · intro u hu
    rw [hfree] at hu
    cases hu
  · intro hopen hclosed
    exact absurd (hopen.symm.trans hclosed) (by simp)

theorem unlockOpen_kept {closer : Party T → Prop} {s : Session T V} {t : T} (h : Sound s)
    (hs : Holds t Settled s) : Sound { s with openLock := none } ∧
      Guarantee closer (.client t) s { s with openLock := none } := by
  obtain ⟨hlock, hsettled⟩ := hs
  refine holder_kept hlock ⟨fun _ => ?_, h.single, h.failed⟩ (fun hs => hs) ?_ (fun hs => hs)
    (fun hs => hs) fun hs => ⟨hs.closed, hs.store, hs.backend, hs.shut⟩
  · exact ⟨hsettled.store, hsettled.opened, hsettled.shut⟩
  · exact fun hopen hclosed => absurd (hopen.symm.trans hclosed) (by simp)

/-- **What a step of a thread keeps**, given what it knows. -/
theorem calls_kept [DecidableEq T] {closer : Party T → Prop} {s s' : Session T V} {t : T}
    {op : Op V} {r : Reply V op} (h : Sound s) (hp : Permitted closer s t op)
    (hstep : Calls s t op r s') : Sound s' ∧ Guarantee closer (.client t) s s' := by
  have hstill : s.closed = false → s.closed = true → closer (.client t) :=
    fun hopen hclosed => absurd (hopen.symm.trans hclosed) (by simp)
  cases op with
  | readClosed | readStore | readFailure | reraise e | tornDown | drain snapshot | acloseResult
  | isAlive =>
    obtain ⟨_, rfl⟩ := hstep
    exact idle_kept _ h
  | join =>
    obtain rfl : s' = s := hstep
    exact idle_kept _ h
  | lockOpen =>
    obtain ⟨hfree, rfl⟩ := hstep
    exact lockOpen_kept h hfree
  | unlockOpen =>
    obtain rfl : s' = _ := hstep
    exact unlockOpen_kept h hp
  | startThread =>
    obtain rfl : s' = _ := hstep
    split
    · exact idle_kept _ h
    · exact same_kept _ h ⟨rfl, rfl, rfl, rfl, rfl, fun _ hs => hs⟩ rfl
  | stopLoop =>
    obtain rfl : s' = _ := hstep
    exact same_kept _ h ⟨rfl, rfl, rfl, rfl, rfl, fun _ hs => hs⟩ rfl
  | openBackend =>
    obtain ⟨hlock, hs⟩ := hp
    cases r with
    | error e =>
      obtain rfl : s' = s := hstep
      exact idle_kept _ h
    | ok a =>
      obtain rfl : s' = _ := hstep
      refine holder_kept hlock ⟨?_, ?_, ?_⟩ (fun hs => hs) hstill (fun hs => hs) ?_ ?_
      · exact fun hfree => absurd (hlock.symm.trans hfree) (by simp)
      · exact Nat.le_of_eq (congrArg (· + 1) hs.opens)
      · exact fun hfailed => absurd hs.openFailure hfailed
      · intro hopened
        have hone := hopened.1
        rw [hs.opens] at hone
        cases hone
      · intro hreleased
        exact absurd (hs.closed.symm.trans hreleased.closed) (by simp)
  | setFailure e =>
    obtain rfl : s' = _ := hstep
    obtain ⟨hlock, hs⟩ := hp
    refine holder_kept hlock ⟨?_, h.single, fun _ => hs.opens⟩ (fun hs => hs) hstill ?_
      (fun hs => hs) fun hs => ⟨hs.closed, hs.store, hs.backend, hs.shut⟩
    · exact fun hfree => absurd (hlock.symm.trans hfree) (by simp)
    · exact fun _ => Option.some_ne_none e
  | setStore =>
    obtain rfl : s' = _ := hstep
    obtain ⟨hlock, hs⟩ := hp
    refine holder_kept hlock ⟨?_, h.single, h.failed⟩ (fun hs => hs) hstill (fun hs => hs) ?_ ?_
    · exact fun hfree => absurd (hlock.symm.trans hfree) (by simp)
    · exact fun hopened => ⟨hopened.1, .inl rfl⟩
    · intro hreleased
      exact absurd (hs.closed.symm.trans hreleased.closed) (by simp)
  | markClosed =>
    obtain ⟨_, rfl⟩ := hstep
    obtain ⟨⟨hlock, _⟩, hcloser⟩ := hp
    refine holder_kept hlock ⟨?_, h.single, h.failed⟩ (fun _ => rfl) (fun _ _ => hcloser)
      (fun hs => hs) (fun hopened => ⟨hopened.1, .inr rfl⟩)
      fun hs => ⟨rfl, hs.store, hs.backend, hs.shut⟩
    exact fun hfree => absurd (hlock.symm.trans hfree) (by simp)
  | submitAclose =>
    obtain ⟨_, rfl⟩ := hstep
    obtain ⟨hlock, hclosed⟩ := hp
    split
    · rename_i hbackend
      refine holder_kept hlock ⟨?_, h.single, h.failed⟩ (fun hs => hs) hstill (fun hs => hs)
        (fun hs => hs) ?_
      · exact fun hfree => absurd (hlock.symm.trans hfree) (by simp)
      · intro hreleased
        exact absurd (hbackend.symm.trans hreleased.backend) (by simp)
    · exact idle_kept _ h
  | tearDown =>
    obtain rfl : s' = _ := hstep
    obtain ⟨hlock, hclosed, hshut⟩ := hp
    refine holder_kept hlock ⟨?_, h.single, h.failed⟩ (fun hs => hs) hstill (fun hs => hs) ?_ ?_
    · exact fun hfree => absurd (hlock.symm.trans hfree) (by simp)
    · exact fun hopened => ⟨hopened.1, .inr hclosed⟩
    · exact fun _ => ⟨hclosed, rfl, rfl, hshut⟩
  | _ => exact hp.elim

theorem loops_kept {closer : Party T → Prop} {s s' : Session T V} {op : Op V} (h : Sound s)
    (hstep : Loops s op s') : Sound s' ∧ Guarantee closer .loop s s' := by
  cases op with
  | execute =>
    obtain ⟨_, k, u, turn, out, _, _, rfl⟩ := hstep
    exact same_kept _ h ⟨rfl, rfl, rfl, rfl, rfl, fun _ hs => hs⟩ rfl
  | beginAclose =>
    obtain ⟨_, hsubmitted, rfl⟩ := hstep
    refine same_kept _ h ⟨rfl, rfl, rfl, rfl, rfl, fun out hs => ?_⟩ rfl
    rw [hsubmitted] at hs
    cases hs
  | finishAclose =>
    obtain ⟨_, hbegun, out, rfl⟩ := hstep
    refine same_kept _ h ⟨rfl, rfl, rfl, rfl, rfl, fun out hs => ?_⟩ rfl
    rw [hbegun] at hs
    cases hs
  | stop =>
    obtain ⟨_, rfl⟩ := hstep
    exact same_kept _ h ⟨rfl, rfl, rfl, rfl, rfl, fun _ hs => hs⟩ rfl
  | _ => exact hstep.elim

/-! ## `open` and `close` -/

section

variable {closer : Party T → Prop}

theorem stable_true (t : Party T) : Stable (rules (V := V) closer) t (fun _ => True) :=
  fun _ _ _ _ => trivial

theorem stable_closed (t : Party T) : Stable (rules (V := V) closer) t (·.closed = true) := by
  intro s s' hothers h
  obtain ⟨_, _, u, _, hguar⟩ := hothers
  have hguar : Guarantee closer u s s' := hguar
  exact hguar.closed h

theorem stable_broken (t : Party T) : Stable (rules (V := V) closer) t Broken := by
  intro s s' hothers h
  obtain ⟨_, _, u, _, hguar⟩ := hothers
  have hguar : Guarantee closer u s s' := hguar
  exact h.imp hguar.closed hguar.failed

theorem stable_opened (t : Party T) : Stable (rules (V := V) closer) t Opened := by
  intro s s' hothers h
  obtain ⟨_, _, u, _, hguar⟩ := hothers
  have hguar : Guarantee closer u s s' := hguar
  exact hguar.opened h

theorem stable_released (t : Party T) : Stable (rules (V := V) closer) t Released := by
  intro s s' hothers h
  obtain ⟨_, _, u, _, hguar⟩ := hothers
  have hguar : Guarantee closer u s s' := hguar
  exact hguar.released h

/-- What the lock protects stays as its holder knows it. -/
theorem stable_holds (t : T) {P : Session T V → Prop} (hP : ∀ s s', Same s s' → P s → P s') :
    Stable (rules (V := V) closer) (.client t) (Holds t P) := by
  intro s s' hothers h
  obtain ⟨_, _, u, hu, hguar⟩ := hothers
  have hguar : Guarantee closer u s s' := hguar
  obtain ⟨hlock, hsame⟩ := hguar.held t h.1 hu
  exact ⟨hlock, hP s s' hsame h.2⟩

/-- What `open` ends with. -/
def Ended (out : Except Raised Unit) (s : Session T V) : Prop :=
  match out with
  | .ok _ => Opened s
  | .error _ => Broken s

theorem Same.ended {s s' : Session T V} (out : Except Raised Unit) (h : Same s s')
    (hs : Ended out s) : Ended out s' := by
  cases out with
  | ok a => exact h.opened hs
  | error e =>
    show s'.closed = true ∨ s'.openFailure ≠ none
    rw [h.closed, h.openFailure]
    exact hs

theorem stable_ended (t : Party T) (out : Except Raised Unit) :
    Stable (rules (V := V) closer) t (Ended out) := by
  cases out with
  | ok a => exact stable_opened t
  | error e => exact stable_broken t

variable [DecidableEq T]

abbrev Keeps {α : Type} (closer : Party T → Prop) (t : T) (p : Script V α)
    (Q : Except Raised α → Session T V → Prop) (s : Session T V) : Prop :=
  wp sessionSystem (rules closer) (.client t) p Q s

theorem wp_step {α : Type} {t : T} {op : Op V} {k : Reply V op → Script V α}
    {Q : Except Raised α → Session T V → Prop} {B : Session T V → Prop} {s : Session T V}
    (hB : Stable (rules closer) (.client t) B) (hs : B s)
    (hop : ∀ s, Sound s → B s → Permitted closer s t op)
    (h : ∀ s r s', Sound s → B s → Calls s t op r s' → Sound s' → Keeps closer t (k r) Q s') :
    Keeps closer t (.exec op k) Q s := by
  refine wp_exec hB hs ?_
  intro s r s' hinv hb hstep
  have hkept := calls_kept hinv (hop s hinv hb) hstep
  exact ⟨hkept.1, hkept.2, h s r s' hinv hb hstep hkept.1⟩

theorem wp_ofExcept {α : Type} {t : T} {B : Session T V → Prop} (out : Except Raised α)
    {s : Session T V} (hB : Stable (rules closer) (.client t) B) (hs : B s) :
    Keeps closer t (.ofExcept out) (fun out' s => out' = out ∧ B s) s := by
  cases out with
  | ok a => exact wp_pure hB hs fun _ _ h => ⟨rfl, h⟩
  | error e => exact wp_fail hB hs fun _ _ h => ⟨rfl, h⟩

/-- A part that finds the session settled and leaves it so ends as it does under the lock. -/
theorem wp_withOpenLock {α : Type} {t : T} {p : Script V α}
    {Q : Except Raised α → Session T V → Prop} {s : Session T V}
    (hstable : ∀ out, Stable (rules closer) (.client t) (Q out))
    (hsame : ∀ out s s', Same s s' → Q out s → Q out s')
    (hunlock : ∀ out s, Q out s → Q out { s with openLock := none })
    (hp : ∀ s, Sound s → Holds t Settled s →
      Keeps closer t p (fun out => Holds t fun s => Settled s ∧ Q out s) s) :
    Keeps closer t (withOpenLock p) Q s := by
  refine wp_step (stable_true _) trivial (fun _ _ _ => trivial) ?_
  intro s r s' hinv _ hstep hinv'
  obtain ⟨hfree, rfl⟩ := hstep
  have hsettled := hinv.settled hfree
  show Keeps closer t (p.settle _) _ _
  refine wp_settle hinv' (wp_mono ?_ (hp _ hinv' ⟨rfl, hsettled.store, hsettled.opened,
    hsettled.shut⟩))
  intro out s _ hs
  refine wp_step (stable_holds t ?_) hs (fun _ _ h => ⟨h.1, h.2.1⟩) ?_
  · exact fun s s' h hs => ⟨h.settled hs.1, hsame out s s' h hs.2⟩
  · intro s r s' _ hs hstep _
    obtain rfl : s' = _ := hstep
    refine wp_mono ?_ (wp_ofExcept out (hstable out) (hunlock out s hs.2.2))
    intro out' s _ h
    obtain ⟨rfl, h⟩ := h
    exact h

theorem wp_raiseIfClosedDuringOpen {t : T} {B : Session T V → Prop} {s : Session T V}
    (hB : Stable (rules closer) (.client t) B) (hclosed : ∀ s, B s → s.closed = true)
    (hs : B s) : Keeps closer t raiseIfClosedDuringOpen
      (fun out s => (∃ e, out = .error e) ∧ B s) s := by
  have hfail : ∀ (e : Raised) (s : Session T V), B s → Keeps closer t (.fail e : Script V Unit)
      (fun out s => (∃ e, out = .error e) ∧ B s) s :=
    fun e s hs => wp_fail hB hs fun _ _ hs => ⟨⟨e, rfl⟩, hs⟩
  refine wp_step hB hs (fun _ _ _ => trivial) ?_
  intro s closed s' _ hs hstep _
  obtain ⟨rfl, rfl⟩ := hstep
  rw [hclosed s' hs]
  refine wp_step hB hs (fun _ _ _ => trivial) ?_
  intro s store s' _ hs hstep _
  obtain ⟨_, rfl⟩ := hstep
  cases store with
  | true => exact hfail _ s' hs
  | false =>
    refine wp_step hB hs (fun _ _ _ => trivial) ?_
    intro s failure s' _ hs hstep _
    obtain ⟨_, rfl⟩ := hstep
    cases failure with
    | none => exact hfail _ s' hs
    | some e =>
      refine wp_step hB hs (fun _ _ _ => trivial) ?_
      intro s e' s' _ hs hstep _
      obtain ⟨_, rfl⟩ := hstep
      exact hfail e' s' hs

theorem wp_openBackend {t : T} {s : Session T V} (hs : Holds t Unopened s) :
    Keeps closer t openBackend (fun out => Holds t fun s => Settled s ∧ Ended out s) s := by
  have hunopened : Stable (rules (V := V) closer) (.client t) (Holds t Unopened) := by
    refine stable_holds t fun s s' h hs => ?_
    exact ⟨h.closed.trans hs.closed, h.backend.trans hs.backend, h.store.trans hs.store,
      h.openFailure.trans hs.openFailure, h.opens.trans hs.opens⟩
  have hended : ∀ out, Stable (rules (V := V) closer) (.client t)
      (Holds t fun s => Settled s ∧ Ended out s) :=
    fun out => stable_holds t fun s s' h hs => ⟨h.settled hs.1, h.ended out hs.2⟩
  refine wp_step hunopened hs (fun _ _ _ => trivial) ?_
  intro s r s' _ hs hstep _
  obtain rfl : s' = _ := hstep
  have hs : Holds t Unopened
      (if s.started then s else { s with started := true, alive := true }) := by
    split
    · exact hs
    · exact ⟨hs.1, hs.2.closed, hs.2.backend, hs.2.store, hs.2.openFailure, hs.2.opens⟩
  refine wp_step hunopened hs (fun _ _ h => h) ?_
  intro s out s' _ hs hstep _
  cases out with
  | error e =>
    obtain rfl : s' = s := hstep
    refine wp_step hunopened hs (fun _ _ h => h) ?_
    intro s r s' _ hs hstep _
    obtain rfl : s' = _ := hstep
    obtain ⟨hlock, hs⟩ := hs
    refine wp_fail (hended (.error e)) ⟨hlock, ?_, .inr (Option.some_ne_none e)⟩ fun _ _ h => h
    exact ⟨hs.store.trans hs.backend.symm, fun hb => absurd (hs.backend.symm.trans hb) (by simp),
      fun _ => .inl hs.opens⟩
  | ok a =>
    obtain rfl : s' = _ := hstep
    have hopening : Holds t Opening { s with opens := s.opens + 1 } :=
      ⟨hs.1, hs.2.closed, hs.2.openFailure, congrArg (· + 1) hs.2.opens⟩
    refine wp_step (stable_holds t fun s s' h hs => ?_) hopening (fun _ _ h => h) ?_
    · exact ⟨h.closed.trans hs.closed, h.openFailure.trans hs.openFailure, h.opens.trans hs.opens⟩
    · intro s r s' _ hs hstep _
      obtain rfl : s' = _ := hstep
      obtain ⟨hlock, hs⟩ := hs
      refine wp_pure (hended (.ok ())) ⟨hlock, ?_, hs.opens, .inl rfl⟩ fun _ _ h => h
      exact ⟨rfl, fun _ => ⟨hs.closed, hs.opens⟩, fun hb => by cases hb⟩

/-- A closed session is not opened. -/
theorem wp_raise {α : Type} {t : T} {k : Unit → Script V α}
    {B : Session T V → Prop} {Q : Except Raised α → Session T V → Prop} {s : Session T V}
    (hB : Stable (rules closer) (.client t) B) (hclosed : ∀ s, B s → s.closed = true)
    (hinv : Sound s) (hs : B s) (hQ : ∀ e s, B s → Q (.error e) s) :
    Keeps closer t (raiseIfClosedDuringOpen >>= k) Q s := by
  refine wp_bind hinv (wp_mono ?_ (wp_raiseIfClosedDuringOpen hB hclosed hs))
  intro out s _ h
  obtain ⟨⟨e, rfl⟩, hs⟩ := h
  exact wp_fail hB hs fun s _ hs => hQ e s hs

/-- What `open` does under its lock. -/
def openLocked : Script V Unit := do
  if ← .perform Op.readStore then return ()
  else
    if ← .perform Op.readClosed then raiseIfClosedDuringOpen
    match ← .perform Op.readFailure with
    | some e => do .fail (← .perform (Op.reraise e))
    | none => openBackend

theorem wp_openLocked {t : T} {s : Session T V} :
    Keeps closer t (withOpenLock openLocked) Ended s := by
  refine wp_withOpenLock (stable_ended _) (fun out s s' h => h.ended out) ?_ ?_
  · exact fun out s hs => by cases out <;> exact hs
  intro s _ hs
  have hstable : ∀ (P : Session T V → Prop), (∀ s s', Same s s' → P s → P s') →
      Stable (rules (V := V) closer) (.client t) (Holds t fun s => Settled s ∧ P s) :=
    fun P hP => stable_holds t fun s s' h hs => ⟨h.settled hs.1, hP s s' h hs.2⟩
  refine wp_step (stable_holds t fun _ _ h => h.settled) hs (fun _ _ _ => trivial) ?_
  intro s store s' _ hs hstep _
  obtain ⟨rfl, rfl⟩ := hstep
  cases hstore : s'.store with
  | true =>
    have hopened : s'.opens = 1 := (hs.2.opened (hs.2.store.symm.trans hstore)).2
    exact wp_pure (hstable _ fun s s' h => h.ended (.ok ()))
      ⟨hs.1, hs.2, hopened, .inl hstore⟩ fun _ _ h => h
  | false =>
    refine wp_step (hstable (·.store = false) fun s s' h hs => h.store.trans hs)
      ⟨hs.1, hs.2, hstore⟩ (fun _ _ _ => trivial) ?_
    intro s closed s' hinv hs hstep hinv'
    obtain ⟨rfl, rfl⟩ := hstep
    cases hclosed : s'.closed with
    | true =>
      refine wp_raise (hstable (·.closed = true) fun s s' h hs => h.closed.trans hs)
        (fun _ h => h.2.2) hinv' ⟨hs.1, hs.2.1, hclosed⟩ ?_
      exact fun e s hs => ⟨hs.1, hs.2.1, .inl hs.2.2⟩
    | false =>
      refine wp_step (hstable (fun s => s.store = false ∧ s.closed = false) fun s s' h hs =>
        ⟨h.store.trans hs.1, h.closed.trans hs.2⟩) ⟨hs.1, hs.2.1, hs.2.2, hclosed⟩
        (fun _ _ _ => trivial) ?_
      intro s failure s' hinv hs hstep _
      obtain ⟨rfl, rfl⟩ := hstep
      obtain ⟨hlock, hsettled, hstore, hclosed⟩ := hs
      cases hfailure : s'.openFailure with
      | some e =>
        have hs : Holds t (fun s => Settled s ∧ s.openFailure ≠ none) s' :=
          ⟨hlock, hsettled, by simp [hfailure]⟩
        have hfailed := hstable (·.openFailure ≠ none) fun s s' h hs => by
          rw [h.openFailure]
          exact hs
        refine wp_step hfailed hs (fun _ _ _ => trivial) ?_
        intro s e' s' _ hs hstep _
        obtain ⟨_, rfl⟩ := hstep
        exact wp_fail hfailed hs fun _ _ hs => ⟨hs.1, hs.2.1, .inr hs.2.2⟩
      | none =>
        have hbackend : s'.backend = false := hsettled.store.symm.trans hstore
        have hopens : s'.opens = 0 := by
          refine (hsettled.shut hbackend).resolve_right fun hs => ?_
          exact absurd (hclosed.symm.trans hs.1) (by simp)
        exact wp_openBackend ⟨hlock, hclosed, hbackend, hstore, hfailure, hopens⟩

/-- **`open` returns when the store was opened, and raises only when the session is closed or
failed to open.** -/
theorem wp_openSession {t : T} {s : Session T V} : Keeps closer t openSession Ended s := by
  refine wp_step (stable_true _) trivial (fun _ _ _ => trivial) ?_
  intro s closed s' hinv _ hstep hinv'
  obtain ⟨rfl, rfl⟩ := hstep
  cases hclosed : s'.closed with
  | true =>
    exact wp_raise (stable_closed _) (fun _ h => h) hinv' hclosed fun e s hs => .inl hs
  | false => exact wp_openLocked

theorem wp_acloseBackend {t : T} {s : Session T V}
    (hs : Holds t Closing s) :
    Keeps closer t acloseBackend (fun _ => Holds t fun s => s.closed = true ∧ Shut s) s := by
  have hshut : Stable (rules (V := V) closer) (.client t)
      (Holds t fun s => s.closed = true ∧ Shut s) :=
    stable_holds t fun s s' h hs => ⟨h.closed.trans hs.1, h.shut hs.2⟩
  have hclosed : Stable (rules (V := V) closer) (.client t) (Holds t (·.closed = true)) :=
    stable_holds t fun s s' h hs => h.closed.trans hs
  refine wp_step (stable_holds t fun _ _ h => h.closing) hs (fun _ _ h => ⟨h.1, h.2.1⟩) ?_
  intro s submitted s' _ hs hstep _
  obtain ⟨rfl, rfl⟩ := hstep
  obtain ⟨hlock, hs⟩ := hs
  cases hbackend : s.backend with
  | false =>
    simp only [Bool.false_eq_true, if_false]
    exact wp_pure hshut ⟨hlock, hs.1, hs.2 hbackend⟩ fun _ _ h => h
  | true =>
    simp only [if_true]
    refine wp_step hclosed ⟨hlock, hs.1⟩ (fun _ _ _ => trivial) ?_
    intro s out s' _ hs hstep _
    obtain ⟨hdone, rfl⟩ := hstep
    exact wp_mono (fun _ _ _ h => h.2) (wp_ofExcept out hshut ⟨hs.1, hs.2, .inr ⟨out, hdone⟩⟩)

theorem wp_tearDown {t : T} {s : Session T V}
    (hs : Holds t (fun s => s.closed = true ∧ Shut s) s) :
    Keeps closer t tearDown (fun _ => Holds t Released) s := by
  have hshut : Stable (rules (V := V) closer) (.client t)
      (Holds t fun s => s.closed = true ∧ Shut s) :=
    stable_holds t fun s s' h hs => ⟨h.closed.trans hs.1, h.shut hs.2⟩
  have hlast : ∀ s : Session T V, Holds t (fun s => s.closed = true ∧ Shut s) s →
      Keeps closer t (.perform .tearDown) (fun _ => Holds t Released) s := by
    intro s hs
    refine wp_step hshut hs (fun _ _ h => h) ?_
    intro s r s' _ hs hstep _
    obtain rfl : s' = _ := hstep
    exact wp_pure (stable_holds t fun _ _ h => h.released) ⟨hs.1, hs.2.1, rfl, rfl, hs.2.2⟩
      fun _ _ h => h
  refine wp_step hshut hs (fun _ _ _ => trivial) ?_
  intro s alive s' _ hs hstep _
  obtain ⟨_, rfl⟩ := hstep
  cases alive with
  | false => exact hlast s' hs
  | true =>
    refine wp_step hshut hs (fun _ _ _ => trivial) ?_
    intro s r s' _ hs hstep _
    obtain rfl : s' = _ := hstep
    refine wp_step hshut hs (fun _ _ _ => trivial) ?_
    intro s r s' _ hs hstep _
    obtain rfl : s' = s := hstep
    exact hlast s' hs

/-- **A `close` that ends, however it does, has closed the session and released its backend.** -/
theorem wp_close {t : T} (ht : closer (.client t)) {s : Session T V} :
    Keeps closer t close (fun _ => Released) s := by
  refine wp_withOpenLock (fun _ => stable_released _) (fun _ _ _ h => h.released)
    (fun _ _ hs => ⟨hs.closed, hs.store, hs.backend, hs.shut⟩) ?_
  intro s _ hs
  have hsettled : Stable (rules (V := V) closer) (.client t) (Holds t Settled) :=
    stable_holds t fun _ _ h => h.settled
  have hend : Stable (rules (V := V) closer) (.client t)
      (Holds t fun s => Settled s ∧ Released s) :=
    stable_holds t fun _ _ h hs => ⟨h.settled hs.1, h.released hs.2⟩
  refine wp_step hsettled hs (fun _ _ _ => trivial) ?_
  intro s tornDown s' _ hs hstep _
  obtain ⟨rfl, rfl⟩ := hstep
  cases htorn : s'.closed && !s'.alive && !s'.backend with
  | true =>
    simp only [Bool.and_eq_true, Bool.not_eq_true'] at htorn
    obtain ⟨⟨hclosed, _⟩, hbackend⟩ := htorn
    have hshut : Shut s' := (hs.2.shut hbackend).elim .inl And.right
    have hreleased : Released s' := ⟨hclosed, hs.2.store.trans hbackend, hbackend, hshut⟩
    exact wp_pure hend ⟨hs.1, hs.2, hreleased⟩ fun _ _ h => h
  | false =>
    refine wp_step hsettled hs (fun _ _ h => ⟨h, ht⟩) ?_
    intro s snapshot s' _ hs hstep _
    obtain ⟨_, rfl⟩ := hstep
    have hmarked : Holds t Closing (({ s with closed := true }).note Event.closed) :=
      ⟨hs.1, rfl, fun hb => (hs.2.shut hb).elim .inl And.right⟩
    refine wp_step (stable_holds t fun _ _ h => h.closing) hmarked (fun _ _ _ => trivial) ?_
    intro s r s' _ hs hstep hinv
    obtain ⟨_, rfl⟩ := hstep
    show Keeps closer t (acloseBackend.settle _) _ _
    refine wp_settle hinv (wp_mono ?_ (wp_acloseBackend hs))
    intro out s hinv hs
    refine wp_bind hinv (wp_mono ?_ (wp_tearDown hs))
    intro out' s _ hs
    have hs : Holds t (fun s => Settled s ∧ Released s) s := ⟨hs.1, hs.2.settled, hs.2⟩
    cases out' with
    | ok a => exact wp_mono (fun _ _ _ h => h.2) (wp_ofExcept out hend hs)
    | error e => exact wp_fail hend hs fun _ _ h => h

end

end DrStore.Sync.Lifecycle
