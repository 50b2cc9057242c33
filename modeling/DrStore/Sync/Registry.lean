import DrStore.Sync.Lifecycle

/-! # The registry of persistent sessions (sync/blocking.py, `persistent_sqlite` and its closes)

A step is a section under the registry lock or one step of a session. A call begins with a step
of its own, before it waits for any lock. The counts of closes, and what is noted of calls, are
no part of the process. -/
namespace DrStore.Sync.Registry
open DrStore.Base.Programs DrStore.Base.Pool DrStore.Sync.Sessions DrStore.Sync.Lifecycle

/-! ## The process -/

inductive Call where
  | persistent (path : String)
  | closePersistent (path : String)
  | closeAllPersistent
deriving DecidableEq

def Call.closes (path : String) : Call → Bool
  | .persistent _ => false
  | .closePersistent path' => path' = path
  | .closeAllPersistent => true

/-- How many closes of a path have begun, and how many have taken it out of the registry. -/
structure Epoch where
  begun : Nat
  cut : Nat

/-- A call of `persistent_sqlite` that returned the handle of a session. -/
structure Returned where
  path : String
  session : Nat
  start : Epoch
  stop : Epoch

/-- Sessions are numbered as they are created; one that was not yet is as it will be then. -/
structure Process (T V : Type) where
  registry : String → Option Nat
  count : Nat
  path : Nat → String
  sessions : Nat → Session T V
  now : String → Epoch
  epoch : Nat → Nat
  call : T → Option Call
  start : T → String → Epoch
  opening : T → Option Nat
  closing : T → List Nat
  returned : List Returned

def Process.init (T V : Type) : Process T V where
  registry _ := none
  count := 0
  path _ := ""
  sessions _ := .init T V
  now _ := ⟨0, 0⟩
  epoch _ := 0
  call _ := none
  start _ _ := ⟨0, 0⟩
  opening _ := none
  closing _ := []
  returned := []

variable {T V : Type}

/-- The sessions of the registry, in the order in which they were put there. -/
def Process.registered (s : Process T V) : List Nat :=
  (List.range s.count).filter fun id => decide (s.registry (s.path id) = some id)

/-- A new session, in the registry, for the call of `t`. -/
def Process.create [DecidableEq T] (s : Process T V) (t : T) (path : String) : Process T V :=
  { s with
    registry := Function.update s.registry path (some s.count)
    count := s.count + 1
    path := Function.update s.path s.count path
    epoch := Function.update s.epoch s.count (s.now path).cut
    opening := Function.update s.opening t (some s.count) }

def Process.onSession (s : Process T V) (id : Nat) (x : Session T V) : Process T V :=
  { s with sessions := Function.update s.sessions id x }

/-! ## Steps -/

inductive Op (V : Type) where
  | called (call : Call)
  | lookup (path : String)
  | removeOwn (path : String) (session : Nat)
  | pop (path : String)
  | popAll
  | session (session : Nat) (op : Sessions.Op V)
  | finished (handle : Option (String × Nat))

abbrev Reply (V : Type) : Op V → Type
  | .lookup _ => Nat
  | .pop _ => Option Nat
  | .popAll => List Nat
  | .session _ op => Sessions.Reply V op
  | _ => Unit

/-- What a step of a calling thread does. -/
def Calling [DecidableEq T] (s : Process T V) (t : T) :
    (op : Op V) → Reply V op → Process T V → Prop
  | .called call, _, s' => s' = { s with
      call := Function.update s.call t (some call)
      start := Function.update s.start t s.now
      now := fun path =>
        if call.closes path then ⟨(s.now path).begun + 1, (s.now path).cut⟩ else s.now path }
  | .lookup path, r, s' => match s.registry path with
      | some id => r = id ∧ s' = { s with opening := Function.update s.opening t (some id) }
      | none => r = s.count ∧ s' = s.create t path
  | .removeOwn path id, _, s' => s' = { s with
      registry := if s.registry path = some id then Function.update s.registry path none
        else s.registry
      closing := Function.update s.closing t (id :: s.closing t) }
  | .pop path, r, s' => r = s.registry path ∧ s' = { s with
      registry := Function.update s.registry path none
      now := Function.update s.now path ⟨(s.now path).begun, (s.now path).cut + 1⟩
      closing := Function.update s.closing t ((s.registry path).toList ++ s.closing t) }
  | .popAll, r, s' => r = s.registered ∧ s' = { s with
      registry := fun _ => none
      now := fun path => ⟨(s.now path).begun, (s.now path).cut + 1⟩
      closing := Function.update s.closing t (s.registered ++ s.closing t) }
  | .session id op, r, s' => ∃ x, Calls (s.sessions id) t op r x ∧ s' = s.onSession id x
  | .finished handle, _, s' => s' = { s with
      call := Function.update s.call t none
      opening := Function.update s.opening t none
      closing := Function.update s.closing t []
      returned := s.returned ++ handle.toList.map fun h => ⟨h.1, h.2, s.start t h.1, s.now h.1⟩ }

inductive Party (T : Type) where
  | client (t : T)
  | loop (session : Nat)
deriving DecidableEq

def Effect [DecidableEq T] (s : Process T V) :
    Party T → (op : Op V) → Reply V op → Process T V → Prop
  | .client t, op, r, s' => Calling s t op r s'
  | .loop id, .session id' op, _, s' =>
      id' = id ∧ ∃ x, Loops (s.sessions id) op x ∧ s' = s.onSession id x
  | .loop _, _, _, _ => False

def registrySystem [DecidableEq T] : System (Party T) (Process T V) (Op V) (Reply V) where
  step t s op r s' := Effect s t op r s'
  kill _ _ _ := False

/-! ## The calls -/

inductive Failure where
  | raised (e : Raised)
  | group (message : String) (errors : List Raised)

abbrev Script (V α : Type) := Prog (Op V) (Reply V) Failure α

/-- A call of a session, with whatever it ends with. -/
def onSession {α : Type} (id : Nat) (p : Sessions.Script V α) : Script V (Except Raised α) :=
  (p.translate fun op => .perform (Op.session id op)).settle .pure

/-- `persistent_sqlite`, which returns the handle of the session. -/
def persistentSqlite (path : String) : Script V Nat := do
  let id ← .perform (Op.lookup path)
  match ← onSession id openSession with
  | .ok _ => return id
  | .error e => do
    .perform (Op.removeOwn path id)
    match ← onSession id close with
    | .ok _ => .fail (.raised e)
    | .error e' => .fail (.raised e')

def closePersistent (path : String) : Script V Unit := do
  match ← .perform (Op.pop path) with
  | none => return ()
  | some id =>
    match ← onSession id close with
    | .ok _ => return ()
    | .error e => .fail (.raised e)

/-- The loop of `close_all_persistent`, which collects what the closes raise. -/
def closeEach : List Nat → Script V (List Raised)
  | [] => .pure []
  | id :: rest => do
    let out ← onSession id close
    let errors ← closeEach rest
    match out with
    | .ok _ => return errors
    | .error e => return e :: errors

def closeAllPersistent : Script V Unit := do
  let sessions ← .perform Op.popAll
  match ← closeEach sessions with
  | [] => return ()
  | [e] => .fail (.raised e)
  | errors => .fail (.group "persistent SQLite session close failures" errors)

def scriptOf : Call → Script V (Option (String × Nat))
  | .persistent path => do
    let id ← persistentSqlite path
    return some (path, id)
  | .closePersistent path => do
    closePersistent path
    return none
  | .closeAllPersistent => do
    closeAllPersistent
    return none

/-- One call after the other, whatever they raise. -/
def client : List Call → Script V Unit
  | [] => .pure ()
  | call :: rest => do
    .perform (Op.called call)
    (scriptOf call).settle fun out => do
      .perform (Op.finished (match out with | .ok handle => handle | .error _ => none))
      client rest

def performAll (id : Nat) : List (Sessions.Op V) → Script V Unit
  | [] => .pure ()
  | op :: rest => .exec (.session id op) fun _ => performAll id rest

/-- Any calls of any threads on any paths, and the steps of the sessions' loops in any order. -/
structure Setting (T V : Type) where
  calls : T → List Call
  loops : Nat → List (Sessions.Op V)

def Setting.script (setting : Setting T V) : Party T → Script V Unit
  | .client t => client (setting.calls t)
  | .loop id => performAll id (setting.loops id)

abbrev Run (T V : Type) := Config (Party T) (Process T V) (Op V) (Reply V) Failure Unit

def Runs [DecidableEq T] (setting : Setting T V) (c : Run T V) : Prop :=
  Reachable registrySystem (.init T V) setting.script c

/-! ## The invariant -/

/-- A close took the session out of the registry, or it failed to open. -/
def Lost (s : Process T V) (id : Nat) : Prop :=
  s.epoch id < (s.now (s.path id)).cut ∨ (s.sessions id).openFailure ≠ none

def Unregistered (s : Process T V) (id : Nat) : Prop :=
  id < s.count ∧ s.registry (s.path id) ≠ some id

/-- Somebody answers for every session: the registry, with the call that opens it, or the call
that closes it. -/
def Covered (s : Process T V) (id : Nat) : Prop :=
  (s.registry (s.path id) = some id ∧ (Opened (s.sessions id) ∨ ∃ t, s.opening t = some id)) ∨
    Released (s.sessions id) ∨ ∃ t, id ∈ s.closing t

/-- What a returned handle is: that of an opened session of the path, which was created after
the closes that the call found, and before those it missed. -/
structure Handle (s : Process T V) (r : Returned) : Prop where
  created : r.session < s.count
  path : s.path r.session = r.path
  opened : Opened (s.sessions r.session)
  start : r.start.cut ≤ s.epoch r.session
  stop : s.epoch r.session ≤ r.stop.cut

structure Sound (s : Process T V) : Prop where
  sessions : ∀ id, Lifecycle.Sound (s.sessions id)
  uncreated : ∀ id, s.count ≤ id → s.sessions id = .init T V
  registered : ∀ path id, s.registry path = some id → id < s.count ∧ s.path id = path ∧
    (s.sessions id).closed = false ∧ s.epoch id = (s.now path).cut
  epochs : ∀ id, id < s.count → s.epoch id ≤ (s.now (s.path id)).cut
  lost : ∀ id, Unregistered s id → Lost s id
  apart : ∀ i j, i < j → j < s.count → s.path i = s.path j → s.epoch i = s.epoch j →
    (s.sessions i).openFailure ≠ none
  covered : ∀ id, id < s.count → Covered s id
  idle : ∀ t, s.call t = none → s.opening t = none ∧ s.closing t = []
  handles : ∀ r ∈ s.returned, Handle s r

def part : Party T → Sessions.Party T
  | .client t => .client t
  | .loop _ => .loop

/-- Whose session it is that a step takes out of the registry: that of the failed open itself, or
one that the close has to close. -/
def Removes (t : T) (s s' : Process T V) (path : String) (id : Nat) : Prop :=
  (s.call t = some (.persistent path) ∧ s.opening t = some id) ∨
    (s.call t = some (.closePersistent path) ∨ s.call t = some .closeAllPersistent) ∧
      id ∈ s'.closing t

structure Guarantee (t : Party T) (s s' : Process T V) : Prop where
  sessions : ∀ id, Lifecycle.Guarantee (fun _ => True) (part t) (s.sessions id) (s'.sessions id)
  created : s.count ≤ s'.count ∧
    ∀ id, id < s.count → s'.path id = s.path id ∧ s'.epoch id = s.epoch id
  now : ∀ path, (s.now path).cut ≤ (s'.now path).cut
  unregistered : ∀ id, Unregistered s id → Unregistered s' id
  own : ∀ u, t ≠ .client u → s'.call u = s.call u ∧ s'.start u = s.start u ∧
    s'.opening u = s.opening u ∧ s'.closing u = s.closing u
  removes : ∀ path id, s.registry path = some id → s'.registry path ≠ some id →
    ∃ u, t = .client u ∧ Removes u s s' path id

def rules : Rules (Party T) (Process T V) := ⟨Sound, Guarantee⟩

/-- What a thread knows when it takes a step of the registry. -/
def Permitted (s : Process T V) (t : T) : Op V → Prop
  | .called _ => s.call t = none
  | .lookup path => s.call t = some (.persistent path) ∧ s.opening t = none
  | .removeOwn path id => s.call t = some (.persistent path) ∧ s.opening t = some id ∧
      id < s.count ∧ s.path id = path ∧ Lost s id
  | .pop path => s.call t = some (.closePersistent path) ∧ s.opening t = none
  | .popAll => s.call t = some .closeAllPersistent ∧ s.opening t = none
  | .session _ _ => False
  | .finished handle => (∀ id ∈ s.closing t, Released (s.sessions id)) ∧
      (∀ id, s.opening t = some id → Opened (s.sessions id) ∨ Unregistered s id) ∧
      ∀ h ∈ handle, h.2 < s.count ∧ s.path h.2 = h.1 ∧ Opened (s.sessions h.2) ∧
        (s.start t h.1).cut ≤ s.epoch h.2

/-! ### Single steps -/

theorem lost_mono {s s' : Process T V} {t : Party T} {id : Nat} (h : Guarantee t s s')
    (hlt : id < s.count) (hs : Lost s id) : Lost s' id := by
  obtain ⟨hpath, hepoch⟩ := h.created.2 id hlt
  obtain hcut | hfailed := hs
  · refine .inl ?_
    rw [hpath, hepoch]
    exact Nat.lt_of_lt_of_le hcut (h.now _)
  · exact .inr ((h.sessions id).failed hfailed)

theorem handle_mono {s s' : Process T V} {t : Party T} {r : Returned} (h : Guarantee t s s')
    (hr : Handle s r) : Handle s' r := by
  obtain ⟨hpath, hepoch⟩ := h.created.2 r.session hr.created
  exact ⟨Nat.lt_of_lt_of_le hr.created h.created.1, hpath.trans hr.path,
    (h.sessions _).opened hr.opened, by rw [hepoch]; exact hr.start, by rw [hepoch]; exact hr.stop⟩

/-- A step that leaves the registry and the sessions alone; what its thread no longer answers for
is opened or released. -/
theorem own_kept {s s' : Process T V} {t : T} (h : Sound s) (hregistry : s'.registry = s.registry)
    (hcount : s'.count = s.count) (hpath : s'.path = s.path) (hepoch : s'.epoch = s.epoch)
    (hsessions : s'.sessions = s.sessions) (hcut : ∀ path, (s'.now path).cut = (s.now path).cut)
    (hothers : ∀ u, u ≠ t → s'.call u = s.call u ∧ s'.start u = s.start u ∧
      s'.opening u = s.opening u ∧ s'.closing u = s.closing u)
    (hidle : s'.call t = none → s'.opening t = none ∧ s'.closing t = [])
    (hopening : ∀ id, s.opening t = some id → s'.opening t ≠ some id →
      Opened (s.sessions id) ∨ Unregistered s id)
    (hclosing : ∀ id ∈ s.closing t, id ∈ s'.closing t ∨ Released (s.sessions id))
    (hreturned : ∀ r ∈ s'.returned, r ∈ s.returned ∨ Handle s r) :
    Sound s' ∧ Guarantee (.client t) s s' := by
  have hunregistered : ∀ id, Unregistered s' id ↔ Unregistered s id := by
    intro id
    unfold Unregistered
    rw [hcount, hpath, hregistry]
  have hguar : Guarantee (.client t) s s' := by
    refine ⟨?_, ?_, ?_, ?_, ?_, ?_⟩
    · rw [hsessions]
      exact fun id => (Lifecycle.idle_kept _ (h.sessions id)).2
    · rw [hcount, hpath, hepoch]
      exact ⟨Nat.le_refl _, fun _ _ => ⟨rfl, rfl⟩⟩
    · exact fun path => Nat.le_of_eq (hcut path).symm
    · exact fun id hid => (hunregistered id).mpr hid
    · exact fun u hu => hothers u fun heq => hu (by rw [heq])
    · intro path id hreg hnot
      rw [hregistry] at hnot
      exact absurd hreg hnot
  refine ⟨⟨?_, ?_, ?_, ?_, ?_, ?_, ?_, ?_, ?_⟩, hguar⟩
  · rw [hsessions]
    exact h.sessions
  · rw [hsessions, hcount]
    exact h.uncreated
  · intro path id hreg
    rw [hregistry] at hreg
    rw [hcount, hpath, hsessions, hepoch, hcut]
    exact h.registered path id hreg
  · intro id hid
    rw [hcount] at hid
    rw [hpath, hepoch, hcut]
    exact h.epochs id hid
  · intro id hid
    have hid := (hunregistered id).mp hid
    exact lost_mono hguar hid.1 (h.lost id hid)
  · rw [hcount, hpath, hepoch, hsessions]
    exact h.apart
  · intro id hid
    rw [hcount] at hid
    unfold Covered
    rw [hregistry, hpath, hsessions]
    obtain ⟨hreg, hopened | ⟨u, hu⟩⟩ | hreleased | ⟨u, hu⟩ := h.covered id hid
    · exact .inl ⟨hreg, .inl hopened⟩
    · by_cases hkept : s'.opening u = some id
      · exact .inl ⟨hreg, .inr ⟨u, hkept⟩⟩
      · have hut : u = t := by
          by_contra hne
          exact hkept ((hothers u hne).2.2.1.trans hu)
        subst hut
        obtain hopened | hun := hopening id hu hkept
        · exact .inl ⟨hreg, .inl hopened⟩
        · exact absurd hreg hun.2
    · exact .inr (.inl hreleased)
    · by_cases hut : u = t
      · subst hut
        obtain hkept | hreleased := hclosing id hu
        · exact .inr (.inr ⟨u, hkept⟩)
        · exact .inr (.inl hreleased)
      · exact .inr (.inr ⟨u, by rw [(hothers u hut).2.2.2]; exact hu⟩)
  · intro u hnone
    by_cases hut : u = t
    · subst hut
      exact hidle hnone
    · obtain ⟨hcall, _, hopen, hclose⟩ := hothers u hut
      rw [hopen, hclose]
      exact h.idle u (hcall.symm.trans hnone)
  · intro r hr
    obtain hold | hnew := hreturned r hr
    · exact handle_mono hguar (h.handles r hold)
    · exact handle_mono hguar hnew

/-- A step that takes paths out of the registry, and leaves their sessions to its thread. -/
theorem removed_kept {s s' : Process T V} {t : T} (h : Sound s) (hcount : s'.count = s.count)
    (hpath : s'.path = s.path) (hepoch : s'.epoch = s.epoch) (hsessions : s'.sessions = s.sessions)
    (hcall : s'.call = s.call) (hstart : s'.start = s.start) (hopening : s'.opening = s.opening)
    (hreturned : s'.returned = s.returned) (hcalls : s.call t ≠ none)
    (hregistry : ∀ path, s'.registry path = none ∨
      s'.registry path = s.registry path ∧ s'.now path = s.now path)
    (hcut : ∀ path, (s.now path).cut ≤ (s'.now path).cut)
    (hothers : ∀ u, u ≠ t → s'.closing u = s.closing u)
    (hclosing : ∀ id ∈ s.closing t, id ∈ s'.closing t)
    (hremoves : ∀ path id, s.registry path = some id → s'.registry path ≠ some id →
      id ∈ s'.closing t ∧ Removes t s s' path id ∧
        ((s.now path).cut < (s'.now path).cut ∨ (s.sessions id).openFailure ≠ none)) :
    Sound s' ∧ Guarantee (.client t) s s' := by
  have hshrinks : ∀ path id, s'.registry path = some id →
      s.registry path = some id ∧ s'.now path = s.now path := by
    intro path id hreg
    obtain hnone | ⟨hsame, hnow⟩ := hregistry path
    · rw [hnone] at hreg
      cases hreg
    · exact ⟨hsame.symm.trans hreg, hnow⟩
  have hguar : Guarantee (.client t) s s' := by
    refine ⟨?_, ?_, hcut, ?_, ?_, ?_⟩
    · rw [hsessions]
      exact fun id => (Lifecycle.idle_kept _ (h.sessions id)).2
    · rw [hcount, hpath, hepoch]
      exact ⟨Nat.le_refl _, fun _ _ => ⟨rfl, rfl⟩⟩
    · intro id hid
      unfold Unregistered
      rw [hcount, hpath]
      exact ⟨hid.1, fun hreg => hid.2 (hshrinks _ id hreg).1⟩
    · intro u hu
      rw [hcall, hstart, hopening]
      exact ⟨rfl, rfl, rfl, hothers u fun heq => hu (by rw [heq])⟩
    · exact fun path id hreg hnot => ⟨t, rfl, (hremoves path id hreg hnot).2.1⟩
  have hkept : ∀ u id, id ∈ s.closing u → id ∈ s'.closing u := by
    intro u id hid
    by_cases hut : u = t
    · subst hut
      exact hclosing id hid
    · rw [hothers u hut]
      exact hid
  refine ⟨⟨?_, ?_, ?_, ?_, ?_, ?_, ?_, ?_, ?_⟩, hguar⟩
  · rw [hsessions]
    exact h.sessions
  · rw [hsessions, hcount]
    exact h.uncreated
  · intro path id hreg
    obtain ⟨hreg, hnow⟩ := hshrinks path id hreg
    rw [hcount, hpath, hsessions, hepoch, hnow]
    exact h.registered path id hreg
  · intro id hid
    rw [hcount] at hid
    rw [hpath, hepoch]
    exact Nat.le_trans (h.epochs id hid) (hcut _)
  · intro id hid
    unfold Unregistered at hid
    rw [hcount, hpath] at hid
    by_cases hreg : s.registry (s.path id) = some id
    · obtain ⟨_, _, hcut | hfailed⟩ := hremoves _ id hreg hid.2
      · refine .inl ?_
        rw [hpath, hepoch, (h.registered _ id hreg).2.2.2]
        exact hcut
      · exact .inr (by rw [hsessions]; exact hfailed)
    · exact lost_mono hguar hid.1 (h.lost id ⟨hid.1, hreg⟩)
  · rw [hcount, hpath, hepoch, hsessions]
    exact h.apart
  · intro id hid
    rw [hcount] at hid
    unfold Covered
    rw [hpath, hsessions, hopening]
    obtain ⟨hreg, hopen⟩ | hreleased | ⟨u, hu⟩ := h.covered id hid
    · by_cases hstill : s'.registry (s.path id) = some id
      · exact .inl ⟨hstill, hopen⟩
      · exact .inr (.inr ⟨t, (hremoves _ id hreg hstill).1⟩)
    · exact .inr (.inl hreleased)
    · exact .inr (.inr ⟨u, hkept u id hu⟩)
  · intro u hnone
    rw [hcall] at hnone
    have hut : u ≠ t := fun heq => hcalls (heq ▸ hnone)
    rw [hopening, hothers u hut]
    exact h.idle u hnone
  · rw [hreturned]
    exact fun r hr => handle_mono hguar (h.handles r hr)

/-- A new session takes a path that no session has: the earlier ones of the path are lost. -/
theorem create_kept [DecidableEq T] {s : Process T V} {t : T} {path : String} (h : Sound s)
    (hfree : s.registry path = none) (hcall : s.call t ≠ none) (hopening : s.opening t = none) :
    Sound (s.create t path) ∧ Guarantee (.client t) s (s.create t path) := by
  have hpath : ∀ id, id < s.count → (s.create t path).path id = s.path id :=
    fun id hid => Function.update_of_ne (Nat.ne_of_lt hid) _ _
  have hepoch : ∀ id, id < s.count → (s.create t path).epoch id = s.epoch id :=
    fun id hid => Function.update_of_ne (Nat.ne_of_lt hid) _ _
  have hnew : (s.create t path).path s.count = path := Function.update_self _ _ _
  have hnewest : (s.create t path).epoch s.count = (s.now path).cut := Function.update_self _ _ _
  have hregistry : ∀ path', path' ≠ path → (s.create t path).registry path' = s.registry path' :=
    fun path' hne => Function.update_of_ne hne _ _
  have hregnew : (s.create t path).registry path = some s.count := Function.update_self _ _ _
  have hcases : ∀ id, id < (s.create t path).count → id < s.count ∨ id = s.count :=
    fun id hid => Nat.lt_succ_iff_lt_or_eq.mp hid
  have hold : ∀ id, id < s.count → (s.create t path).registry (s.path id) ≠ some id →
      Unregistered s id := by
    intro id hid hnot
    refine ⟨hid, fun hreg => hnot ?_⟩
    have hne : s.path id ≠ path := by
      intro heq
      rw [heq, hfree] at hreg
      cases hreg
    rw [hregistry _ hne, hreg]
  have hguar : Guarantee (.client t) s (s.create t path) := by
    refine ⟨fun id => (Lifecycle.idle_kept _ (h.sessions id)).2, ?_, fun _ => Nat.le_refl _,
      ?_, ?_, ?_⟩
    · exact ⟨Nat.le_succ _, fun id hid => ⟨hpath id hid, hepoch id hid⟩⟩
    · intro id hid
      refine ⟨Nat.lt_succ_of_lt hid.1, ?_⟩
      rw [hpath id hid.1]
      by_cases hp : s.path id = path
      · rw [hp, hregnew]
        exact fun heq => Nat.ne_of_lt hid.1 (Option.some.inj heq).symm
      · rw [hregistry _ hp]
        exact hid.2
    · intro u hu
      have hut : u ≠ t := fun heq => hu (by rw [heq])
      exact ⟨rfl, rfl, Function.update_of_ne hut _ _, rfl⟩
    · intro path' id hreg hnot
      have hne : path' ≠ path := by
        intro heq
        rw [heq, hfree] at hreg
        cases hreg
      exact absurd (hregistry _ hne ▸ hreg) hnot
  refine ⟨⟨h.sessions, ?_, ?_, ?_, ?_, ?_, ?_, ?_, ?_⟩, hguar⟩
  · exact fun id hid => h.uncreated id (Nat.le_of_succ_le hid)
  · intro path' id hreg
    by_cases hp : path' = path
    · subst hp
      rw [hregnew] at hreg
      cases hreg
      refine ⟨Nat.lt_succ_self _, hnew, ?_, hnewest⟩
      show (s.sessions s.count).closed = false
      rw [h.uncreated _ (Nat.le_refl _)]
      rfl
    · rw [hregistry _ hp] at hreg
      obtain ⟨hlt, hof, hopen, hcut⟩ := h.registered path' id hreg
      exact ⟨Nat.lt_succ_of_lt hlt, (hpath id hlt).trans hof, hopen, (hepoch id hlt).trans hcut⟩
  · intro id hid
    obtain hlt | rfl := hcases id hid
    · rw [hpath id hlt, hepoch id hlt]
      exact h.epochs id hlt
    · rw [hnew, hnewest]
      exact Nat.le_refl _
  · intro id hid
    obtain hlt | rfl := hcases id hid.1
    · have hun : Unregistered s id := by
        refine hold id hlt ?_
        rw [← hpath id hlt]
        exact hid.2
      exact lost_mono hguar hlt (h.lost id hun)
    · exact absurd (by rw [hnew, hregnew]) hid.2
  · intro i j hij hj hpaths hepochs
    obtain hlt | rfl := hcases j hj
    · rw [hpath i (by omega), hpath j hlt] at hpaths
      rw [hepoch i (by omega), hepoch j hlt] at hepochs
      exact h.apart i j hij hlt hpaths hepochs
    · rw [hpath i hij, hnew] at hpaths
      rw [hepoch i hij, hnewest] at hepochs
      have hun : Unregistered s i := ⟨hij, by rw [hpaths, hfree]; exact fun heq => by cases heq⟩
      obtain hcut | hfailed := h.lost i hun
      · rw [hpaths, hepochs] at hcut
        exact absurd hcut (Nat.lt_irrefl _)
      · exact hfailed
  · intro id hid
    obtain hlt | rfl := hcases id hid
    · unfold Covered
      rw [hpath id hlt]
      obtain ⟨hreg, hopen⟩ | hrest := h.covered id hlt
      · have hne : s.path id ≠ path := by
          intro heq
          rw [heq, hfree] at hreg
          cases hreg
        refine .inl ⟨by rw [hregistry _ hne, hreg], hopen.imp_right fun hu => ?_⟩
        obtain ⟨u, hu⟩ := hu
        have hut : u ≠ t := by
          intro heq
          rw [heq, hopening] at hu
          cases hu
        exact ⟨u, (Function.update_of_ne hut _ _).trans hu⟩
      · exact .inr hrest
    · exact .inl ⟨by rw [hnew, hregnew], .inr ⟨t, Function.update_self _ _ _⟩⟩
  · intro u hnone
    have hut : u ≠ t := fun heq => hcall (heq ▸ hnone)
    obtain ⟨hopen, hclose⟩ := h.idle u hnone
    exact ⟨(Function.update_of_ne hut _ _).trans hopen, hclose⟩
  · exact fun r hr => handle_mono hguar (h.handles r hr)

/-- A step of one session, which closes it only if it is not in the registry. -/
theorem session_kept {s : Process T V} {t : Party T} {id : Nat} {x : Session T V}
    {closer : Sessions.Party T → Prop} (h : Sound s) (hid : id < s.count)
    (hx : Lifecycle.Sound x) (hguar : Lifecycle.Guarantee closer (part t) (s.sessions id) x)
    (hcloses : (s.sessions id).closed = false → x.closed = true → Unregistered s id) :
    Sound (s.onSession id x) ∧ Guarantee t s (s.onSession id x) := by
  have hself : (s.onSession id x).sessions id = x := Function.update_self _ _ _
  have hother : ∀ j, j ≠ id → (s.onSession id x).sessions j = s.sessions j :=
    fun j hj => Function.update_of_ne hj _ _
  have hsessions : ∀ j, Lifecycle.Guarantee (fun _ => True) (part t) (s.sessions j)
      ((s.onSession id x).sessions j) := by
    intro j
    by_cases hj : j = id
    · subst hj
      rw [hself]
      exact ⟨hguar.held, hguar.closed, fun _ _ => trivial, hguar.failed, hguar.opened,
        hguar.released⟩
    · rw [hother j hj]
      exact (Lifecycle.idle_kept _ (h.sessions j)).2
  have hfull : Guarantee t s (s.onSession id x) :=
    ⟨hsessions, ⟨Nat.le_refl _, fun _ _ => ⟨rfl, rfl⟩⟩, fun _ => Nat.le_refl _, fun _ hun => hun,
      fun _ _ => ⟨rfl, rfl, rfl, rfl⟩, fun _ _ hreg hnot => absurd hreg hnot⟩
  refine ⟨⟨?_, ?_, ?_, h.epochs, ?_, ?_, ?_, h.idle, ?_⟩, hfull⟩
  · intro j
    by_cases hj : j = id
    · subst hj
      rw [hself]
      exact hx
    · rw [hother j hj]
      exact h.sessions j
  · intro j hj
    have hj : s.count ≤ j := hj
    rw [hother j (by omega)]
    exact h.uncreated j hj
  · intro path j hreg
    obtain ⟨hlt, hof, hopen, hcut⟩ := h.registered path j hreg
    refine ⟨hlt, hof, ?_, hcut⟩
    by_cases hj : j = id
    · subst hj
      rw [hself]
      cases hclosed : x.closed with
      | false => rfl
      | true => exact absurd (by rw [hof]; exact hreg) (hcloses hopen hclosed).2
    · rw [hother j hj]
      exact hopen
  · exact fun j hun => lost_mono hfull hun.1 (h.lost j hun)
  · exact fun i j hij hj hpaths hepochs => (hsessions i).failed (h.apart i j hij hj hpaths hepochs)
  · intro j hj
    obtain ⟨hreg, hopen⟩ | hreleased | hclosing := h.covered j hj
    · exact .inl ⟨hreg, hopen.imp_left (hsessions j).opened⟩
    · exact .inr (.inl ((hsessions j).released hreleased))
    · exact .inr (.inr hclosing)
  · exact fun r hr => handle_mono hfull (h.handles r hr)

/-- **What a step of the registry keeps**, given what its thread knows. -/
theorem calling_kept [DecidableEq T] {s s' : Process T V} {t : T} {op : Op V} {r : Reply V op}
    (h : Sound s) (hp : Permitted s t op) (hstep : Calling s t op r s') :
    Sound s' ∧ Guarantee (.client t) s s' := by
  have hupdate : ∀ {β : Type} (f : T → β) (b : β) (u : T), u ≠ t → Function.update f t b u = f u :=
    fun f b u hu => Function.update_of_ne hu b f
  cases op with
  | called call =>
    obtain rfl : s' = _ := hstep
    refine own_kept h rfl rfl rfl rfl rfl ?_ ?_ ?_ ?_ (fun id hid => .inl hid) fun r hr => .inl hr
    · intro path
      show (if call.closes path then _ else s.now path).cut = _
      split <;> rfl
    · exact fun u hu => ⟨hupdate _ _ u hu, hupdate _ _ u hu, rfl, rfl⟩
    · exact fun hnone => absurd ((Function.update_self _ _ _).symm.trans hnone) (by simp)
    · exact fun id hopen hnot => absurd hopen hnot
  | lookup path =>
    obtain ⟨hcall, hopening⟩ := hp
    simp only [Calling] at hstep
    split at hstep
    · obtain ⟨_, rfl⟩ := hstep
      refine own_kept h rfl rfl rfl rfl rfl (fun _ => rfl) ?_ ?_ ?_ (fun id hid => .inl hid)
        fun r hr => .inl hr
      · exact fun u hu => ⟨rfl, rfl, hupdate _ _ u hu, rfl⟩
      · exact fun hnone => absurd (hcall.symm.trans hnone) (by simp)
      · exact fun id hopen => absurd (hopening.symm.trans hopen) (by simp)
    · rename_i hfree
      obtain ⟨_, rfl⟩ := hstep
      exact create_kept h hfree (by simp [hcall]) hopening
  | removeOwn path id =>
    obtain rfl : s' = _ := hstep
    obtain ⟨hcall, hopening, _, hof, hlost⟩ := hp
    refine removed_kept h rfl rfl rfl rfl rfl rfl rfl rfl (by simp [hcall]) ?_
      (fun _ => Nat.le_refl _) (fun u hu => hupdate _ _ u hu) ?_ ?_
    · intro path'
      show (if s.registry path = some id then _ else s.registry) path' = none ∨ _
      split
      · by_cases hp : path' = path
        · subst hp
          exact .inl (Function.update_self _ _ _)
        · exact .inr ⟨Function.update_of_ne hp _ _, rfl⟩
      · exact .inr ⟨rfl, rfl⟩
    · intro j hj
      simp only [Function.update_self]
      exact List.mem_cons_of_mem _ hj
    · intro path' j hreg hnot
      by_cases hown : s.registry path = some id
      · simp only [if_pos hown] at hnot
        by_cases hp : path' = path
        · subst hp
          rw [hown] at hreg
          cases hreg
          refine ⟨?_, .inl ⟨hcall, hopening⟩, .inr ?_⟩
          · simp only [Function.update_self]
            exact List.mem_cons_self
          · obtain hcut | hfailed := hlost
            · have hcurrent := (h.registered _ _ hown).2.2.2
              rw [hof, hcurrent] at hcut
              exact absurd hcut (Nat.lt_irrefl _)
            · exact hfailed
        · rw [Function.update_of_ne hp] at hnot
          exact absurd hreg hnot
      · simp only [if_neg hown] at hnot
        exact absurd hreg hnot
  | pop path =>
    obtain ⟨_, rfl⟩ := hstep
    obtain ⟨hcall, hopening⟩ := hp
    have hnow : ∀ path', path' ≠ path →
        Function.update s.now path ⟨(s.now path).begun, (s.now path).cut + 1⟩ path' = s.now path' :=
      fun path' hne => Function.update_of_ne hne _ _
    refine removed_kept h rfl rfl rfl rfl rfl rfl rfl rfl (by simp [hcall]) ?_ ?_
      (fun u hu => hupdate _ _ u hu) ?_ ?_
    · intro path'
      by_cases hp : path' = path
      · subst hp
        exact .inl (Function.update_self _ _ _)
      · exact .inr ⟨Function.update_of_ne hp _ _, hnow path' hp⟩
    · intro path'
      by_cases hp : path' = path
      · subst hp
        simp
      · simp only [hnow path' hp, Nat.le_refl]
    · intro j hj
      simp only [Function.update_self]
      exact List.mem_append_right _ hj
    · intro path' j hreg hnot
      by_cases hp : path' = path
      · subst hp
        have hmem : j ∈ (s.registry path').toList ++ s.closing t := by simp [hreg]
        refine ⟨?_, .inr ⟨.inl hcall, ?_⟩, .inl ?_⟩
        · simpa only [Function.update_self] using hmem
        · simpa only [Function.update_self] using hmem
        · simp
      · simp only [Function.update_of_ne hp] at hnot
        exact absurd hreg hnot
  | popAll =>
    obtain ⟨_, rfl⟩ := hstep
    obtain ⟨hcall, hopening⟩ := hp
    refine removed_kept h rfl rfl rfl rfl rfl rfl rfl rfl (by simp [hcall]) (fun _ => .inl rfl)
      (fun _ => Nat.le_succ _) (fun u hu => hupdate _ _ u hu) ?_ ?_
    · intro j hj
      simp only [Function.update_self]
      exact List.mem_append_right _ hj
    · intro path j hreg _
      obtain ⟨hlt, hof, _⟩ := h.registered path j hreg
      have hmem : j ∈ s.registered ++ s.closing t := by
        refine List.mem_append_left _ (List.mem_filter.mpr ⟨List.mem_range.mpr hlt, ?_⟩)
        simp [hof, hreg]
      refine ⟨?_, .inr ⟨.inr hcall, ?_⟩, .inl (Nat.lt_succ_self _)⟩
      · simpa only [Function.update_self] using hmem
      · simpa only [Function.update_self] using hmem
  | session id op => exact hp.elim
  | finished handle =>
    obtain rfl : s' = _ := hstep
    obtain ⟨hclosing, hopening, hhandle⟩ := hp
    refine own_kept h rfl rfl rfl rfl rfl (fun _ => rfl) ?_ ?_ ?_ ?_ ?_
    · exact fun u hu => ⟨hupdate _ _ u hu, rfl, hupdate _ _ u hu, hupdate _ _ u hu⟩
    · exact fun _ => ⟨Function.update_self _ _ _, Function.update_self _ _ _⟩
    · exact fun id hopen _ => hopening id hopen
    · exact fun id hid => .inr (hclosing id hid)
    · intro r hr
      obtain hold | hnew := List.mem_append.mp hr
      · exact .inl hold
      · obtain ⟨handle', hmem, rfl⟩ := List.mem_map.mp hnew
        obtain ⟨hlt, hof, hopened, hstart⟩ := hhandle handle' (by simpa using hmem)
        refine .inr ⟨hlt, hof, hopened, hstart, ?_⟩
        rw [← hof]
        exact h.epochs _ hlt

/-! ## Whole runs -/

theorem stable_true (t : Party T) : Stable (rules (V := V)) t (fun _ => True) :=
  fun _ _ _ _ => trivial

/-- The call of a thread has begun, and has not looked at the registry. -/
structure Begun (t : T) (call : Call) (s : Process T V) : Prop where
  call : s.call t = some call
  opening : s.opening t = none
  closing : s.closing t = []
  start : ∀ path, (s.start t path).cut ≤ (s.now path).cut

/-- The call of a thread works on a session that it found in the registry, or put there. -/
structure Works (t : T) (path : String) (id : Nat) (s : Process T V) : Prop where
  call : s.call t = some (.persistent path)
  opening : s.opening t = some id
  closing : s.closing t = []
  start : (s.start t path).cut ≤ s.epoch id
  created : id < s.count
  path : s.path id = path

/-- The call of a thread still has to close the sessions of `todo`, which are in no registry. -/
structure Closes (t : T) (todo : List Nat) (s : Process T V) : Prop where
  opening : ∀ id, s.opening t = some id → Unregistered s id
  closing : ∀ id ∈ s.closing t, id ∈ todo ∨ Released (s.sessions id)
  todo : ∀ id ∈ todo, Unregistered s id

theorem stable_idle (t : T) : Stable (rules (V := V)) (.client t) (fun s => s.call t = none) := by
  intro s s' hothers h
  obtain ⟨_, _, u, hu, hguar⟩ := hothers
  have hguar : Guarantee u s s' := hguar
  exact (hguar.own t hu).1.trans h

theorem stable_begun (t : T) (call : Call) :
    Stable (rules (V := V)) (.client t) (Begun t call) := by
  intro s s' hothers h
  obtain ⟨_, _, u, hu, hguar⟩ := hothers
  have hguar : Guarantee u s s' := hguar
  obtain ⟨hcall, hstart, hopening, hclosing⟩ := hguar.own t hu
  refine ⟨hcall.trans h.call, hopening.trans h.opening, hclosing.trans h.closing, fun path => ?_⟩
  rw [hstart]
  exact Nat.le_trans (h.start path) (hguar.now path)

theorem stable_works (t : T) (path : String) (id : Nat) :
    Stable (rules (V := V)) (.client t) (Works t path id) := by
  intro s s' hothers h
  obtain ⟨_, _, u, hu, hguar⟩ := hothers
  have hguar : Guarantee u s s' := hguar
  obtain ⟨hcall, hstart, hopening, hclosing⟩ := hguar.own t hu
  obtain ⟨hpath, hepoch⟩ := hguar.created.2 id h.created
  refine ⟨hcall.trans h.call, hopening.trans h.opening, hclosing.trans h.closing,
    ?_, Nat.lt_of_lt_of_le h.created hguar.created.1, hpath.trans h.path⟩
  rw [hstart, hepoch]
  exact h.start

theorem stable_lost (t : T) (path : String) (id : Nat) :
    Stable (rules (V := V)) (.client t) (fun s => Works t path id s ∧ Lost s id) := by
  intro s s' hothers h
  refine ⟨stable_works t path id s s' hothers h.1, ?_⟩
  obtain ⟨_, _, u, _, hguar⟩ := hothers
  have hguar : Guarantee u s s' := hguar
  exact lost_mono hguar h.1.created h.2

theorem stable_opened (t : T) (path : String) (id : Nat) :
    Stable (rules (V := V)) (.client t)
      (fun s => Works t path id s ∧ Opened (s.sessions id)) := by
  intro s s' hothers h
  refine ⟨stable_works t path id s s' hothers h.1, ?_⟩
  obtain ⟨_, _, u, _, hguar⟩ := hothers
  have hguar : Guarantee u s s' := hguar
  exact (hguar.sessions id).opened h.2

theorem stable_closes (t : T) (todo : List Nat) :
    Stable (rules (V := V)) (.client t) (Closes t todo) := by
  intro s s' hothers h
  obtain ⟨_, _, u, hu, hguar⟩ := hothers
  have hguar : Guarantee u s s' := hguar
  obtain ⟨_, _, hopening, hclosing⟩ := hguar.own t hu
  refine ⟨?_, ?_, ?_⟩
  · rw [hopening]
    exact fun id hid => hguar.unregistered id (h.opening id hid)
  · rw [hclosing]
    exact fun id hid => (h.closing id hid).imp_right (hguar.sessions id).released
  · exact fun id hid => hguar.unregistered id (h.todo id hid)

/-- A session that cannot be opened is lost to its path. -/
theorem broken_lost {s : Process T V} {id : Nat} (h : Sound s) (hid : id < s.count)
    (hbroken : Broken (s.sessions id)) : Lost s id := by
  obtain hclosed | hfailed := hbroken
  · refine h.lost id ⟨hid, fun hreg => ?_⟩
    have hopen := (h.registered _ id hreg).2.2.1
    rw [hclosed] at hopen
    cases hopen
  · exact .inr hfailed

theorem closed_permitted {t : T} {s : Process T V} (h : Closes t [] s) :
    Permitted s t (Op.finished (V := V) none) := by
  refine ⟨fun id hid => ?_, fun id hid => .inr (h.opening id hid), fun _ hnone => by cases hnone⟩
  exact (h.closing id hid).resolve_left (by simp)

theorem opened_permitted {t : T} {path : String} {id : Nat} {s : Process T V}
    (h : Works t path id s ∧ Opened (s.sessions id)) :
    Permitted s t (Op.finished (V := V) (some (path, id))) := by
  obtain ⟨hs, hopened⟩ := h
  refine ⟨?_, ?_, ?_⟩
  · rw [hs.closing]
    exact fun _ hid => by cases hid
  · intro j hj
    rw [hs.opening] at hj
    cases hj
    exact .inl hopened
  · intro handle hhandle
    cases hhandle
    exact ⟨hs.created, hs.path, hopened, hs.start⟩

theorem released_onSession {s : Process T V} {id : Nat} {x : Session T V}
    {closer : Sessions.Party T → Prop} {u : Sessions.Party T}
    (hg : Lifecycle.Guarantee closer u (s.sessions id) x) {j : Nat}
    (h : Released (s.sessions j)) : Released ((s.onSession id x).sessions j) := by
  by_cases hj : j = id
  · subst hj
    have hself : (s.onSession j x).sessions j = x := Function.update_self _ _ _
    rw [hself]
    exact hg.released h
  · have hother : (s.onSession id x).sessions j = s.sessions j := Function.update_of_ne hj _ _
    rw [hother]
    exact h

/-- No close is counted between the start of the earlier call and the return of the later one. -/
def Undisturbed (count : Epoch → Nat) (r₁ r₂ : Returned) : Prop :=
  max (count r₁.stop) (count r₂.stop) = min (count r₁.start) (count r₂.start)

theorem Sound.same_session {s : Process T V} (h : Sound s) {r₁ r₂ : Returned} (h₁ : Handle s r₁)
    (h₂ : Handle s r₂) (hpath : r₁.path = r₂.path) (hbetween : Undisturbed Epoch.cut r₁ r₂) :
    r₁.session = r₂.session ∧ (s.sessions r₁.session).opens = 1 := by
  refine ⟨?_, h₁.opened.1⟩
  have hopened : ∀ r, Handle s r → ¬ (s.sessions r.session).openFailure ≠ none := by
    intro r hr hfailed
    have hnever := (h.sessions _).failed hfailed
    rw [hr.opened.1] at hnever
    cases hnever
  have hpaths : s.path r₁.session = s.path r₂.session := h₁.path.trans (hpath.trans h₂.path.symm)
  have hepochs : s.epoch r₁.session = s.epoch r₂.session := by
    have hstart₁ := h₁.start
    have hstart₂ := h₂.start
    have hstop₁ := h₁.stop
    have hstop₂ := h₂.stop
    unfold Undisturbed at hbetween
    omega
  obtain hlt | heq | hgt := Nat.lt_trichotomy r₁.session r₂.session
  · exact absurd (h.apart _ _ hlt h₂.created hpaths hepochs) (hopened r₁ h₁)
  · exact heq
  · exact absurd (h.apart _ _ hgt h₁.created hpaths.symm hepochs.symm) (hopened r₂ h₂)

theorem sound_init : Sound (.init T V) where
  sessions := fun _ => ⟨fun _ => ⟨rfl, (fun hb => by cases hb), fun _ => .inl rfl⟩, Nat.zero_le _,
    fun _ => rfl⟩
  uncreated := fun _ _ => rfl
  registered := fun _ _ hreg => by cases hreg
  epochs := fun _ hid => absurd hid (Nat.not_lt_zero _)
  lost := fun _ hid => absurd hid.1 (Nat.not_lt_zero _)
  apart := fun _ _ _ hj => absurd hj (Nat.not_lt_zero _)
  covered := fun _ hid => absurd hid (Nat.not_lt_zero _)
  idle := fun _ _ => ⟨rfl, rfl⟩
  handles := fun _ hr => by cases hr

/-- Only the loop of a session that was created takes steps. -/
theorem loops_created {s : Process T V} {id : Nat} {op : Sessions.Op V} {x : Session T V}
    (h : Sound s) (hstep : Loops (s.sessions id) op x) : id < s.count := by
  by_contra hnot
  rw [h.uncreated id (Nat.le_of_not_lt hnot)] at hstep
  cases op with
  | execute | beginAclose | finishAclose | stop => cases hstep.1
  | _ => exact hstep.elim

section

variable [DecidableEq T]

abbrev Keeps {α : Type} (t : T) (p : Script V α) (Q : Except Failure α → Process T V → Prop)
    (s : Process T V) : Prop :=
  wp registrySystem rules (.client t) p Q s

theorem wp_step {α : Type} {t : T} {op : Op V} {k : Reply V op → Script V α}
    {Q : Except Failure α → Process T V → Prop} {B : Process T V → Prop} {s : Process T V}
    (hB : Stable rules (.client t) B) (hs : B s) (hop : ∀ s, Sound s → B s → Permitted s t op)
    (h : ∀ s r s', Sound s → B s → Calling s t op r s' → Sound s' → Keeps t (k r) Q s') :
    Keeps t (.exec op k) Q s := by
  refine wp_exec hB hs ?_
  intro s r s' hinv hb hstep
  have hkept := calling_kept hinv (hop s hinv hb) hstep
  exact ⟨hkept.1, hkept.2, h s r s' hinv hb hstep hkept.1⟩

/-- What a call of a session ensures, it ensures among all the sessions. -/
theorem wp_onSession {α : Type} {t : T} {id : Nat} (closer : Sessions.Party T → Prop)
    {p : Sessions.Script V α} {Q : Except Raised α → Session T V → Prop}
    {B : Process T V → Prop} {s : Process T V} (hB : Stable rules (.client t) B)
    (hQ : ∀ out, Stable (Lifecycle.rules closer) (.client t) (Q out))
    (hothers : ∀ u, u ≠ .client t → closer u) (hid : ∀ s, B s → id < s.count)
    (hcloses : ∀ s, B s → closer (.client t) → Unregistered s id)
    (hkept : ∀ s x, B s → Lifecycle.Guarantee closer (.client t) (s.sessions id) x →
      B (s.onSession id x))
    (hinv : Sound s) (hs : B s) (hp : Lifecycle.Keeps closer t p Q (s.sessions id)) :
    Keeps t (onSession id p)
      (fun out s => ∃ out', out = .ok out' ∧ Q out' (s.sessions id) ∧ B s) s := by
  have hpart : ∀ v s s', v ≠ .client t → Guarantee (V := V) v s s' →
      part v ≠ .client t ∧
        Lifecycle.Guarantee closer (part v) (s.sessions id) (s'.sessions id) := by
    intro v s s' hv hg
    have hne : part v ≠ .client t := by
      cases v with
      | client u => exact fun heq => hv (by cases heq; rfl)
      | loop j => exact fun heq => by cases heq
    have hg := hg.sessions id
    exact ⟨hne, hg.held, hg.closed, fun _ _ => hothers _ hne, hg.failed, hg.opened, hg.released⟩
  have hsession : wp registrySystem rules (.client t)
      (p.translate fun op => (.perform (Op.session id op) : Prog (Op V) (Reply V) Raised _))
      (fun out s => Q out (s.sessions id) ∧ B s) s := by
    refine wp_component (Lifecycle.rules (V := V) closer) (.client t)
      (fun s : Process T V => s.sessions id) hB (fun s (h : Sound s) => h.sessions id)
      (fun v s s' hv hg => ⟨part v, hpart v s s' hv hg⟩) ?_ hs hp
    intro op k Q s hb hkeep hk
    show wp registrySystem rules (.client t) (.exec (.session id op) k) Q s
    intro s₁ hr hinv₁ r s₂ hstep
    obtain ⟨x, hcalls, rfl⟩ := hstep
    have hb₁ := hB.rely hr hb
    obtain ⟨hx, hg⟩ := hkeep s₁ r x hinv₁ hr hcalls
    have hg : Lifecycle.Guarantee closer (.client t) (s₁.sessions id) x := hg
    obtain ⟨hinv₂, hg₂⟩ := session_kept (t := .client t) hinv₁ (hid s₁ hb₁) hx hg
      fun hopen hclosed => hcloses s₁ hb₁ (hg.closes hopen hclosed)
    refine ⟨hinv₂, hg₂, hk s₁ r _ hinv₁ hr ?_ (hkept s₁ x hb₁ hg)⟩
    have hself : (s₁.onSession id x).sessions id = x := Function.update_self _ _ _
    rw [hself]
    exact hcalls
  refine wp_settle hinv (wp_mono ?_ hsession)
  intro out s _ h
  refine wp_pure (A := fun s => Q out (s.sessions id) ∧ B s) ?_ h fun s _ h => ⟨out, rfl, h⟩
  intro s s' hothers h
  refine ⟨?_, hB s s' hothers h.2⟩
  obtain ⟨hi, hi', v, hv, hg⟩ := hothers
  have hi : Sound s := hi
  have hi' : Sound s' := hi'
  exact hQ out _ _ ⟨hi.sessions id, hi'.sessions id, part v, hpart v s s' hv hg⟩ h.1

/-- A close of the first of the sessions leaves the others. -/
theorem wp_closeOne {t : T} {id : Nat} {todo : List Nat} {s : Process T V} (hinv : Sound s)
    (hs : Closes t (id :: todo) s) :
    Keeps t (onSession id close) (fun out s => (∃ out', out = .ok out') ∧ Closes t todo s) s := by
  refine wp_mono ?_ (wp_onSession (fun _ => True) (stable_closes t (id :: todo))
    (fun _ => Lifecycle.stable_released _) (fun _ _ => trivial)
    (fun _ h => (h.todo id List.mem_cons_self).1) (fun _ h _ => h.todo id List.mem_cons_self) ?_
    hinv hs (Lifecycle.wp_close trivial))
  · intro out s _ h
    obtain ⟨out', rfl, hreleased, h⟩ := h
    refine ⟨⟨out', rfl⟩, h.opening, ?_, fun j hj => h.todo j (List.mem_cons_of_mem _ hj)⟩
    intro j hj
    obtain hmem | hdone := h.closing j hj
    · obtain rfl | hrest := List.mem_cons.mp hmem
      · exact .inr hreleased
      · exact .inl hrest
    · exact .inr hdone
  · exact fun s x h hg => ⟨h.opening, fun j hj => (h.closing j hj).imp_right
      (released_onSession hg), h.todo⟩

theorem wp_closeEach {t : T} (todo : List Nat) {s : Process T V} (hinv : Sound s)
    (hs : Closes t todo s) :
    Keeps t (closeEach todo) (fun out s => (∃ errors, out = .ok errors) ∧ Closes t [] s) s := by
  induction todo generalizing s with
  | nil => exact wp_pure (stable_closes t []) hs fun _ _ h => ⟨⟨[], rfl⟩, h⟩
  | cons id rest ih =>
    refine wp_bind hinv (wp_mono ?_ (wp_closeOne hinv hs))
    intro out s hinv h
    obtain ⟨⟨out', rfl⟩, hs⟩ := h
    refine wp_bind hinv (wp_mono ?_ (ih hinv hs))
    intro out s _ h
    obtain ⟨⟨errors, rfl⟩, hs⟩ := h
    cases out' with
    | ok a => exact wp_pure (stable_closes t []) hs fun _ _ h => ⟨⟨_, rfl⟩, h⟩
    | error e => exact wp_pure (stable_closes t []) hs fun _ _ h => ⟨⟨_, rfl⟩, h⟩

theorem wp_closePersistent {t : T} {path : String} {s : Process T V}
    (hs : Begun t (.closePersistent path) s) :
    Keeps t (closePersistent path) (fun _ => Closes t []) s := by
  refine wp_step (stable_begun t _) hs (fun _ _ h => ⟨h.call, h.opening⟩) ?_
  intro s found s' hinv hs hstep hinv'
  obtain ⟨rfl, rfl⟩ := hstep
  have hcloses : Closes t (s.registry path).toList { s with
      registry := Function.update s.registry path none
      now := Function.update s.now path ⟨(s.now path).begun, (s.now path).cut + 1⟩
      closing := Function.update s.closing t ((s.registry path).toList ++ s.closing t) } := by
    refine ⟨fun id hid => absurd (hs.opening.symm.trans hid) (by simp), ?_, ?_⟩
    · intro id hid
      simp only [Function.update_self, hs.closing, List.append_nil] at hid
      exact .inl hid
    · intro id hid
      obtain ⟨hlt, hof, _⟩ := hinv.registered path id (by simpa using hid)
      refine ⟨hlt, ?_⟩
      simp [hof]
  cases hfound : s.registry path with
  | none =>
    rw [hfound] at hcloses
    exact wp_pure (stable_closes t []) hcloses fun _ _ h => h
  | some id =>
    rw [hfound] at hcloses
    refine wp_bind (hfound ▸ hinv') (wp_mono ?_ (wp_closeOne (hfound ▸ hinv') hcloses))
    intro out s _ h
    obtain ⟨⟨out', rfl⟩, hs⟩ := h
    cases out' with
    | ok a => exact wp_pure (stable_closes t []) hs fun _ _ h => h
    | error e => exact wp_fail (stable_closes t []) hs fun _ _ h => h

theorem wp_closeAllPersistent {t : T} {s : Process T V} (hs : Begun t .closeAllPersistent s) :
    Keeps t closeAllPersistent (fun _ => Closes t []) s := by
  refine wp_step (stable_begun t _) hs (fun _ _ h => ⟨h.call, h.opening⟩) ?_
  intro s found s' hinv hs hstep hinv'
  obtain ⟨rfl, rfl⟩ := hstep
  have hcloses : Closes t s.registered { s with
      registry := fun _ => none
      now := fun path => ⟨(s.now path).begun, (s.now path).cut + 1⟩
      closing := Function.update s.closing t (s.registered ++ s.closing t) } := by
    refine ⟨fun id hid => absurd (hs.opening.symm.trans hid) (by simp), ?_, ?_⟩
    · intro id hid
      simp only [Function.update_self, hs.closing, List.append_nil] at hid
      exact .inl hid
    · intro id hid
      exact ⟨List.mem_range.mp (List.mem_filter.mp hid).1, fun hreg => by cases hreg⟩
  show Keeps t (closeEach s.registered >>= _) _ _
  refine wp_bind hinv' (wp_mono ?_ (wp_closeEach _ hinv' hcloses))
  intro out s _ h
  obtain ⟨⟨errors, rfl⟩, hs⟩ := h
  match errors with
  | [] => exact wp_pure (stable_closes t []) hs fun _ _ h => h
  | [e] => exact wp_fail (stable_closes t []) hs fun _ _ h => h
  | e :: e' :: rest => exact wp_fail (stable_closes t []) hs fun _ _ h => h

theorem lookup_works {t : T} {path : String} {id : Nat} {s s' : Process T V} (h : Sound s)
    (hs : Begun t (.persistent path) s) (hstep : Calling s t (.lookup path) id s') :
    Works t path id s' := by
  simp only [Calling] at hstep
  split at hstep
  · rename_i hreg
    obtain ⟨rfl, rfl⟩ := hstep
    obtain ⟨hlt, hof, _, hcut⟩ := h.registered path id hreg
    refine ⟨hs.call, Function.update_self _ _ _, hs.closing, ?_, hlt, hof⟩
    exact hcut ▸ hs.start path
  · obtain ⟨rfl, rfl⟩ := hstep
    refine ⟨hs.call, Function.update_self _ _ _, hs.closing, ?_, Nat.lt_succ_self _,
      Function.update_self _ _ _⟩
    have hnewest : (s.create t path).epoch s.count = (s.now path).cut := Function.update_self _ _ _
    rw [hnewest]
    exact hs.start path

theorem removeOwn_closes {t : T} {path : String} {id : Nat} {s s' : Process T V}
    (hs : Works t path id s) (hstep : Calling s t (.removeOwn path id) () s') :
    Closes t [id] s' := by
  obtain rfl : s' = _ := hstep
  have hun : Unregistered { s with
      registry := if s.registry path = some id then Function.update s.registry path none
        else s.registry
      closing := Function.update s.closing t (id :: s.closing t) } id := by
    refine ⟨hs.created, ?_⟩
    simp only [hs.path]
    split
    · simp
    · rename_i hnot
      exact hnot
  refine ⟨?_, ?_, ?_⟩
  · intro j hj
    have hj : s.opening t = some j := hj
    rw [hs.opening] at hj
    cases hj
    exact hun
  · intro j hj
    simp only [Function.update_self, hs.closing] at hj
    exact .inl hj
  · intro j hj
    obtain rfl := List.mem_singleton.mp hj
    exact hun

/-- **`persistent_sqlite` returns a session that was opened, or leaves its own closed.** -/
theorem wp_persistentSqlite {t : T} {path : String} {s : Process T V}
    (hs : Begun t (.persistent path) s) :
    Keeps t (persistentSqlite path) (fun out s => match out with
      | .ok id => Works t path id s ∧ Opened (s.sessions id)
      | .error _ => Closes t [] s) s := by
  refine wp_step (stable_begun t _) hs (fun _ _ h => ⟨h.call, h.opening⟩) ?_
  intro s id s' hinv hs hstep hinv'
  have hworks := lookup_works hinv hs hstep
  show Keeps t (onSession id openSession >>= _) _ _
  refine wp_bind hinv' (wp_mono ?_ (wp_onSession (fun u => u ≠ .client t)
    (stable_works t path id) (Lifecycle.stable_ended _) (fun _ hu => hu) (fun _ h => h.created)
    (fun _ _ hne => absurd rfl hne) ?_ hinv' hworks Lifecycle.wp_openSession))
  · intro out s hinv h
    obtain ⟨out, rfl, hended, hs⟩ := h
    cases out with
    | ok a => exact wp_pure (stable_opened t path id) ⟨hs, hended⟩ fun _ _ h => h
    | error e =>
      have hlost := broken_lost hinv hs.created hended
      refine wp_step (stable_lost t path id) ⟨hs, hlost⟩
        (fun _ _ h => ⟨h.1.call, h.1.opening, h.1.created, h.1.path, h.2⟩) ?_
      intro s r s' _ hs hstep hinv'
      show Keeps t (onSession id close >>= _) _ _
      refine wp_bind hinv' (wp_mono ?_ (wp_closeOne hinv' (removeOwn_closes hs.1 hstep)))
      intro out s _ h
      obtain ⟨⟨out', rfl⟩, hs⟩ := h
      cases out' with
      | ok a => exact wp_fail (stable_closes t []) hs fun _ _ h => h
      | error e' => exact wp_fail (stable_closes t []) hs fun _ _ h => h
  · exact fun s x h _ => ⟨h.call, h.opening, h.closing, h.start, h.created, h.path⟩

/-! ### All parties -/

theorem wp_finished {t : T} {handle : Option (String × Nat)} {rest : List Call}
    {B : Process T V → Prop} {s : Process T V} (hB : Stable rules (.client t) B) (hs : B s)
    (hop : ∀ s, Sound s → B s → Permitted s t (Op.finished (V := V) handle))
    (ih : ∀ s : Process T V, Sound s → s.call t = none →
      Keeps t (client rest) (fun _ _ => True) s) :
    Keeps t (.exec (.finished handle) fun _ => client rest) (fun _ _ => True) s := by
  refine wp_step hB hs hop ?_
  intro s r s' _ _ hstep hinv'
  obtain rfl : s' = _ := hstep
  exact ih _ hinv' (Function.update_self _ _ _)

theorem wp_closing {t : T} {p : Script V Unit} {rest : List Call} {s : Process T V}
    (hinv : Sound s) (hp : Keeps t p (fun _ => Closes t []) s)
    (ih : ∀ s : Process T V, Sound s → s.call t = none →
      Keeps t (client rest) (fun _ _ => True) s) :
    Keeps t ((p >>= fun _ => pure (none : Option (String × Nat))).settle fun out => do
      .perform (Op.finished (match out with | .ok handle => handle | .error _ => none))
      client rest) (fun _ _ => True) s := by
  refine wp_settle hinv (wp_bind hinv (wp_mono ?_ hp))
  intro out s _ h
  cases out with
  | ok a =>
    refine wp_pure (stable_closes t []) h fun s _ h => ?_
    exact wp_finished (stable_closes t []) h (fun _ _ h => closed_permitted h) ih
  | error e =>
    refine wp_fail (stable_closes t []) h fun s _ h => ?_
    exact wp_finished (stable_closes t []) h (fun _ _ h => closed_permitted h) ih

theorem wp_client {t : T} (calls : List Call) {s : Process T V} (hinv : Sound s)
    (hs : s.call t = none) : Keeps t (client calls) (fun _ _ => True) s := by
  induction calls generalizing s with
  | nil => exact wp_pure (stable_true _) trivial fun _ _ _ => trivial
  | cons call rest ih =>
    refine wp_step (stable_idle t) hs (fun _ _ h => h) ?_
    intro s r s' hinv hs hstep hinv'
    obtain ⟨hopening, hclosing⟩ := hinv.idle t hs
    have hbegun : Begun t call s' := by
      obtain rfl : s' = _ := hstep
      refine ⟨Function.update_self _ _ _, hopening, hclosing, fun path => ?_⟩
      simp only [Function.update_self]
      split <;> exact Nat.le_refl _
    have hnext : ∀ s : Process T V, Sound s → s.call t = none →
        Keeps t (client rest) (fun _ _ => True) s := fun s h hs => ih h hs
    show Keeps t ((scriptOf call).settle _) _ _
    cases call with
    | persistent path =>
      refine wp_settle hinv' (wp_bind hinv' (wp_mono ?_ (wp_persistentSqlite hbegun)))
      intro out s hinv h
      cases out with
      | ok id =>
        refine wp_pure (stable_opened t path id) h fun s hinv h => ?_
        exact wp_finished (stable_opened t path id) h (fun _ _ h => opened_permitted h) hnext
      | error e =>
        refine wp_fail (stable_closes t []) h fun s hinv h => ?_
        exact wp_finished (stable_closes t []) h (fun _ _ h => closed_permitted h) hnext
    | closePersistent path => exact wp_closing hinv' (wp_closePersistent hbegun) hnext
    | closeAllPersistent => exact wp_closing hinv' (wp_closeAllPersistent hbegun) hnext

theorem wp_performAll {id : Nat} (ops : List (Sessions.Op V)) {s : Process T V} :
    wp registrySystem rules (.loop id) (performAll id ops) (fun _ _ => True) s := by
  induction ops generalizing s with
  | nil => exact wp_pure (stable_true _) trivial fun _ _ _ => trivial
  | cons op rest ih =>
    refine wp_exec (stable_true _) trivial ?_
    intro s r s' hinv _ hstep
    obtain ⟨_, x, hloops, rfl⟩ := hstep
    have hinv : Sound s := hinv
    have hloop : Lifecycle.Sound x ∧ Lifecycle.Guarantee (fun _ => False) .loop (s.sessions id) x :=
      Lifecycle.loops_kept (hinv.sessions id) hloops
    obtain ⟨hx, hg⟩ := hloop
    have hkept := session_kept (t := .loop id) hinv (loops_created hinv hloops) hx hg
      fun hopen hclosed => (hg.closes hopen hclosed).elim
    exact ⟨hkept.1, hkept.2, ih⟩

theorem wp_parties (setting : Setting T V) (t : Party T) :
    wp registrySystem rules t (setting.script t) (fun _ _ => True) (.init T V) := by
  cases t with
  | client t => exact wp_client _ sound_init rfl
  | loop id => exact wp_performAll _

/-- **The registry maps a path to no closed session. Two calls that returned, and between whose
start and return no close took their path out of the registry, returned one session, which was
opened once. A failed open and a close take out only sessions of their own. With no call in
progress, every session is registered and open, or closed and released.** -/
theorem registry_keeps_sessions (setting : Setting T V) (c : Run T V) (hc : Runs setting c) :
    (∀ path id, c.state.registry path = some id → (c.state.sessions id).closed = false) ∧
    (∀ r₁ ∈ c.state.returned, ∀ r₂ ∈ c.state.returned, r₁.path = r₂.path →
      Undisturbed Epoch.cut r₁ r₂ →
        r₁.session = r₂.session ∧ (c.state.sessions r₁.session).opens = 1) ∧
    (∀ t s s', Took registrySystem (.init T V) setting.script t c s s' →
      ∀ path id, s.registry path = some id → s'.registry path ≠ some id →
        ∃ u, t = .client u ∧ Removes u s s' path id) ∧
    ((∀ t, c.state.call t = none) → ∀ id, id < c.state.count →
      (c.state.registry (c.state.path id) = some id ∧ (c.state.sessions id).closed = false ∧
        (c.state.sessions id).store = true ∧ (c.state.sessions id).opens = 1) ∨
      Released (c.state.sessions id)) := by
  have hkill : ∀ (t : Party T) (s s' : Process T V), Sound s → False →
      Sound s' ∧ Guarantee t s s' := fun _ _ _ _ h => h.elim
  obtain ⟨hsound, _⟩ := reachable_wp (R := rules) sound_init hkill (wp_parties setting) hc
  have hsound : Sound c.state := hsound
  refine ⟨fun path id hreg => (hsound.registered path id hreg).2.2.1, ?_, ?_, ?_⟩
  · intro r₁ hr₁ r₂ hr₂ hpath hbetween
    exact hsound.same_session (hsound.handles r₁ hr₁) (hsound.handles r₂ hr₂) hpath hbetween
  · intro t s s' htook
    have hkept : Sound s ∧ Guarantee t s s' :=
      Took.kept (R := rules) sound_init hkill (wp_parties setting) htook
    exact hkept.2.removes
  · intro hidle id hid
    obtain ⟨hreg, hopen⟩ | hreleased | ⟨t, ht⟩ := hsound.covered id hid
    · refine .inl ⟨hreg, ?_⟩
      have hunclosed := (hsound.registered _ id hreg).2.2.1
      obtain ⟨hopens, hstore⟩ | ⟨t, ht⟩ := hopen
      · refine ⟨hunclosed, hstore.resolve_right ?_, hopens⟩
        simp [hunclosed]
      · rw [(hsound.idle t (hidle t)).1] at ht
        cases ht
    · exact .inr hreleased
    · rw [(hsound.idle t (hidle t)).2] at ht
      cases ht

/-! ### A close that began early and comes late -/

theorem Runs.step {setting : Setting T V} {c : Run T V} (hc : Runs setting c) (t : Party T)
    (op : Op V) (r : Reply V op) {k : Reply V op → Script V Unit} {s' : Process T V}
    (hp : c.prog t = some (.exec op k)) (hs : Effect c.state t op r s') :
    Runs setting ⟨s', Function.update c.prog t (some (k r))⟩ :=
  Reachable.exec hc hp hs

end

def sampleSetting : Setting Nat Unit where
  calls t := match t with
    | 0 => [.closePersistent "a.db"]
    | 1 | 2 => [.persistent "a.db"]
    | _ => []
  loops _ := []

/-- The close begins first; it takes the path out of the registry between the two calls. -/
theorem sample_run : ∃ c : Run Nat Unit, Runs sampleSetting c ∧
    c.state.returned = [⟨"a.db", 0, ⟨1, 0⟩, ⟨1, 0⟩⟩, ⟨"a.db", 1, ⟨1, 1⟩, ⟨1, 1⟩⟩] ∧
    c.state.registry "a.db" = some 1 := by
  have h : Runs sampleSetting (start (.init Nat Unit) _) := .refl
  have h := Runs.step h (.client 0) (.called (.closePersistent "a.db")) () rfl rfl
  have h := Runs.step h (.client 1) (.called (.persistent "a.db")) () rfl rfl
  have h := Runs.step h (.client 1) (.lookup "a.db") 0 rfl ⟨rfl, rfl⟩
  have h := Runs.step h (.client 1) (.session 0 .readClosed) false rfl ⟨_, ⟨rfl, rfl⟩, rfl⟩
  have h := Runs.step h (.client 1) (.session 0 .lockOpen) () rfl ⟨_, ⟨rfl, rfl⟩, rfl⟩
  have h := Runs.step h (.client 1) (.session 0 .readStore) false rfl ⟨_, ⟨rfl, rfl⟩, rfl⟩
  have h := Runs.step h (.client 1) (.session 0 .readClosed) false rfl ⟨_, ⟨rfl, rfl⟩, rfl⟩
  have h := Runs.step h (.client 1) (.session 0 .readFailure) none rfl ⟨_, ⟨rfl, rfl⟩, rfl⟩
  have h := Runs.step h (.client 1) (.session 0 .startThread) () rfl ⟨_, rfl, rfl⟩
  have h := Runs.step h (.client 1) (.session 0 .openBackend) (.ok ()) rfl ⟨_, rfl, rfl⟩
  have h := Runs.step h (.client 1) (.session 0 .setStore) () rfl ⟨_, rfl, rfl⟩
  have h := Runs.step h (.client 1) (.session 0 .unlockOpen) () rfl ⟨_, rfl, rfl⟩
  have h := Runs.step h (.client 1) (.finished (some ("a.db", 0))) () rfl rfl
  have h := Runs.step h (.client 0) (.pop "a.db") (some 0) rfl ⟨rfl, rfl⟩
  have h := Runs.step h (.client 2) (.called (.persistent "a.db")) () rfl rfl
  have h := Runs.step h (.client 2) (.lookup "a.db") 1 rfl ⟨rfl, rfl⟩
  have h := Runs.step h (.client 2) (.session 1 .readClosed) false rfl ⟨_, ⟨rfl, rfl⟩, rfl⟩
  have h := Runs.step h (.client 2) (.session 1 .lockOpen) () rfl ⟨_, ⟨rfl, rfl⟩, rfl⟩
  have h := Runs.step h (.client 2) (.session 1 .readStore) false rfl ⟨_, ⟨rfl, rfl⟩, rfl⟩
  have h := Runs.step h (.client 2) (.session 1 .readClosed) false rfl ⟨_, ⟨rfl, rfl⟩, rfl⟩
  have h := Runs.step h (.client 2) (.session 1 .readFailure) none rfl ⟨_, ⟨rfl, rfl⟩, rfl⟩
  have h := Runs.step h (.client 2) (.session 1 .startThread) () rfl ⟨_, rfl, rfl⟩
  have h := Runs.step h (.client 2) (.session 1 .openBackend) (.ok ()) rfl ⟨_, rfl, rfl⟩
  have h := Runs.step h (.client 2) (.session 1 .setStore) () rfl ⟨_, rfl, rfl⟩
  have h := Runs.step h (.client 2) (.session 1 .unlockOpen) () rfl ⟨_, rfl, rfl⟩
  have h := Runs.step h (.client 2) (.finished (some ("a.db", 1))) () rfl rfl
  exact ⟨_, h, rfl, rfl⟩

/-- A close that began before the first call, and reached the registry after it: both calls
return, and their handles are of two sessions. -/
theorem registry_late_close : ∃ (setting : Setting Nat Unit) (c : Run Nat Unit),
    Runs setting c ∧ ∃ r₁ ∈ c.state.returned, ∃ r₂ ∈ c.state.returned, r₁.path = r₂.path ∧
      Undisturbed Epoch.begun r₁ r₂ ∧ r₁.session ≠ r₂.session := by
  obtain ⟨c, hc, hreturned, _⟩ := sample_run
  refine ⟨sampleSetting, c, hc, ?_⟩
  rw [hreturned]
  refine ⟨_, List.mem_cons_self, _, List.mem_cons_of_mem _ List.mem_cons_self, rfl, rfl, ?_⟩
  exact Nat.zero_ne_one

theorem registry_keeps_sessions_reopened : ∃ c : Run Nat Unit, Runs sampleSetting c ∧
    c.state.registry "a.db" = some 1 ∧ (c.state.sessions 1).closed = false := by
  obtain ⟨c, hc, _, hregistry⟩ := sample_run
  exact ⟨c, hc, hregistry, (registry_keeps_sessions sampleSetting c hc).1 _ _ hregistry⟩

end DrStore.Sync.Registry
