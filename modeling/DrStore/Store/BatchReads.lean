import DrStore.Store.Immutability
import DrStore.Store.ReadCommitted

/-! # PostgreSQL batch reads are never torn

A batch read first reads bindings, chunk by chunk, then the objects they refer to, each
statement with its own snapshot, while any number of calls write and evict. The trace records
what was committed when each statement ran, and whose commit bound each key.

Objects are only ever inserted, and a batch writer sees every object it refers to before it
binds a key: so a binding it commits comes with its object. The reader reads the objects after
the bindings, and so finds every object that was committed when it read the key. -/
namespace DrStore.Store.BatchReads
open DrStore.Base.Collections DrStore.Base.Pool DrStore.Base.Programs DrStore.Base.Versions
open DrStore.Store.ContentAddressing DrStore.Store.Contract DrStore.Store.Immutability
open DrStore.Store.Postgres DrStore.Store.ReadCommitted DrStore.Store.Statements

variable {T : Type} [DecidableEq T]

/-! ## Traces -/

/-- What everyone sees of the database. -/
def committed (s : Shared T) : Tables :=
  ⟨fun row => (s.objects row).committed, fun key => (s.bindings key).committed⟩

/-- A statement of a thread, what was committed when it ran, and whose commit had bound each
key; `none` for the bindings of the start. -/
structure Event (T : Type) where
  thread : T
  stmt : Stmt
  committed : Tables
  origin : String → Option T

/-- The database with its trace, newest event first. -/
structure Traced (T : Type) where
  db : Shared T
  origin : String → Option T
  log : List (Event T)

def Traced.ofTables (tables : Tables) : Traced T := ⟨.ofTables tables, fun _ => none, []⟩

/-- Whose commit bound each key, after a statement of `t`. -/
def originAfter (s : Traced T) (t : T) : Stmt → String → Option T
  | .commit, key => match (s.db.bindings key).pending with
    | some (u, some _) => if u = t then some t else s.origin key
    | _ => s.origin key
  | _, key => s.origin key

def Traced.Effect (s : Traced T) (t : T) (op : Stmt) (r : StmtReply op) (s' : Traced T) : Prop :=
  s.db.Effect t op r s'.db ∧ s'.origin = originAfter s t op ∧
    s'.log = ⟨t, op, committed s.db, s.origin⟩ :: s.log

/-- Calls on one database, traced; a call that dies rolls back. -/
def traced : System T (Traced T) Stmt StmtReply where
  step t s op r s' := s.Effect t op r s'
  kill t s s' := s.Effect t .rollback () s'

/-! ## What holds of every trace -/

/-- A binding is one of the start, of a `bind` call, or of a batch whose object is stored. -/
def BoundBy (calls : T → Call) (tables now : Tables) (origin : String → Option T) : Prop :=
  ∀ key reference, now.bindings key = some reference → match origin key with
    | none => tables.bindings key = some reference
    | some u => calls u = .bind key reference.1 reference.2 ∨
        (∃ entries, calls u = .putBoundObjects entries) ∧ (now.objects reference).isSome = true

structure Sound (calls : T → Call) (reader : T) (tables : Tables) (s : Traced T) : Prop where
  /-- pending changes to objects are insertions -/
  inserting : ∀ row u x, (s.db.objects row).pending = some (u, x) →
    x.isSome = true ∧ (s.db.objects row).committed = none
  /-- pending bindings are of a `bind` call, or of a batch that sees the object -/
  binding : ∀ key u reference, (s.db.bindings key).pending = some (u, some reference) →
    calls u = .bind key reference.1 reference.2 ∨
      (∃ entries, calls u = .putBoundObjects entries) ∧
        ((s.db.objects reference).view u).isSome = true
  bound : BoundBy calls tables (committed s.db) s.origin
  /-- committed objects stay -/
  stays : Keeps tables (committed s.db) ∧ ∀ e ∈ s.log, Keeps e.committed (committed s.db)
  /-- and all of that held at each event -/
  recorded : ∀ later e earlier, s.log = later ++ e :: earlier →
    BoundBy calls tables e.committed e.origin ∧ Keeps tables e.committed ∧
      ∀ e' ∈ earlier, Keeps e'.committed e.committed
  /-- the reader changes nothing -/
  idle : (∀ row x, (s.db.objects row).pending ≠ some (reader, x)) ∧
    ∀ key x, (s.db.bindings key).pending ≠ some (reader, x)

/-- A thread leaves the others the objects they see; the trace and the objects only grow. -/
def rules (calls : T → Call) (reader : T) (tables : Tables) : Rules T (Traced T) where
  inv := Sound calls reader tables
  guar u s s' := s.log <:+ s'.log ∧ Keeps (committed s.db) (committed s'.db) ∧
    ∀ t, t ≠ u → ∀ row,
      ((s.db.objects row).view t).isSome = true → ((s'.db.objects row).view t).isSome = true

variable {calls : T → Call} {reader : T} {tables : Tables}

theorem keeps_refl (t : Tables) : Keeps t t := fun _ _ h => h

theorem Sound.reader_sees {s : Traced T} (h : Sound calls reader tables s) :
    s.db.seen reader = committed s.db := by
  have hview : ∀ {ν : Type} (v : Version T ν), (∀ x, v.pending ≠ some (reader, x)) →
      v.view reader = v.committed := by
    intro ν v hv
    unfold Version.view
    split
    · rename_i u x hp
      exact if_neg fun (hu : u = reader) => hv x (hu ▸ hp)
    · rfl
  simp only [Shared.seen, committed, Tables.mk.injEq]
  exact ⟨funext fun row => hview _ (h.idle.1 row), funext fun key => hview _ (h.idle.2 key)⟩

/-! ## What a step keeps -/

/-- One more event, with objects at most added. -/
theorem Sound.record {s s' : Traced T} (h : Sound calls reader tables s) {t : T} {op : Stmt}
    (hlog : s'.log = ⟨t, op, committed s.db, s.origin⟩ :: s.log)
    (hkeeps : Keeps (committed s.db) (committed s'.db)) :
    (Keeps tables (committed s'.db) ∧ ∀ e ∈ s'.log, Keeps e.committed (committed s'.db)) ∧
      ∀ later e earlier, s'.log = later ++ e :: earlier →
        BoundBy calls tables e.committed e.origin ∧ Keeps tables e.committed ∧
          ∀ e' ∈ earlier, Keeps e'.committed e.committed := by
  refine ⟨⟨?_, ?_⟩, ?_⟩
  · exact fun row canonical hrow => hkeeps row canonical (h.stays.1 row canonical hrow)
  · intro e he
    rw [hlog] at he
    rcases List.mem_cons.mp he with rfl | he
    · exact hkeeps
    · exact fun row canonical hrow => hkeeps row canonical (h.stays.2 e he row canonical hrow)
  · intro later e earlier heq
    rw [hlog] at heq
    cases later with
    | nil =>
      cases heq
      exact ⟨h.bound, h.stays⟩
    | cons _ later =>
      rw [List.cons_append, List.cons.injEq] at heq
      exact h.recorded later e earlier heq.2

/-- What a query may insert: a `bind` call its binding, a batch a binding whose object it sees. -/
def Licensed (calls : T → Call) (s : Shared T) (t : T) : Query → Prop
  | .insertBinding key reference => calls t = .bind key reference.1 reference.2 ∨
      (∃ entries, calls t = .putBoundObjects entries) ∧
        ((s.objects reference).view t).isSome = true
  | .insertBindings _ => False
  | _ => True

/-- Queries only add to the objects a thread sees, and change only absent rows. -/
theorem does_inserts {q : Query} {t v : Tables} {r : QueryReply q} (h : q.Does t r v)
    {row : RowKey} (hne : v.objects row ≠ t.objects row) :
    t.objects row = none ∧ (v.objects row).isSome = true := by
  refine ⟨?_, (does_objects h hne).1⟩
  cases q with
  | insertObject reference canonical =>
    obtain ⟨_, rfl⟩ := h
    by_contra hsome
    obtain ⟨c, hc⟩ := Option.ne_none_iff_exists'.mp hsome
    exact hne (by simp [putAbsent, hc])
  | insertObjects rows =>
    cases h
    by_contra hsome
    obtain ⟨c, hc⟩ := Option.ne_none_iff_exists'.mp hsome
    exact hne (by simp [fill_apply, hc])
  | selectObject _ => obtain ⟨_, rfl⟩ := h; exact absurd rfl hne
  | selectByHash _ _ => obtain ⟨rfl, _⟩ := h; exact absurd rfl hne
  | selectObjects _ => obtain ⟨rfl, _⟩ := h; exact absurd rfl hne
  | insertBinding _ _ => obtain ⟨_, rfl⟩ := h; exact absurd rfl hne
  | insertBindings _ => obtain ⟨_, rfl⟩ := h; exact absurd rfl hne
  | selectBinding _ => obtain ⟨_, rfl⟩ := h; exact absurd rfl hne
  | selectBindings _ => obtain ⟨rfl, _⟩ := h; exact absurd rfl hne
  | selectBound _ => obtain ⟨rfl, _⟩ := h; exact absurd rfl hne
  | deleteBindings _ => obtain ⟨_, rfl⟩ := h; exact absurd rfl hne

/-- A binding that a licensed query inserts is one it may insert. -/
theorem licensed_binds {s : Shared T} {t : T} {q : Query} (hlicense : Licensed calls s t q)
    {v : Tables} {r : QueryReply q} (h : q.Does (s.seen t) r v) {key : String}
    {reference : RowKey} (hne : (s.seen t).bindings key ≠ some reference)
    (hnew : v.bindings key = some reference) :
    calls t = .bind key reference.1 reference.2 ∨
      (∃ entries, calls t = .putBoundObjects entries) ∧
        ((s.objects reference).view t).isSome = true := by
  cases q with
  | insertBinding key' reference' =>
    obtain ⟨_, rfl⟩ := h
    simp only [putAbsent] at hnew
    rcases Option.or_eq_some_iff.mp hnew with hold | ⟨_, hif⟩
    · exact absurd hold hne
    · split at hif
      · rename_i hkey
        cases hif
        exact hkey ▸ hlicense
      · cases hif
  | insertBindings rows => exact hlicense.elim
  | deleteBindings keys =>
    obtain ⟨_, rfl⟩ := h
    simp only at hnew
    split at hnew
    · cases hnew
    · exact absurd hnew hne
  | insertObject _ _ => obtain ⟨_, rfl⟩ := h; exact absurd hnew hne
  | insertObjects _ => cases h; exact absurd hnew hne
  | selectObject _ => obtain ⟨_, rfl⟩ := h; exact absurd hnew hne
  | selectByHash _ _ => obtain ⟨rfl, _⟩ := h; exact absurd hnew hne
  | selectObjects _ => obtain ⟨rfl, _⟩ := h; exact absurd hnew hne
  | selectBinding _ => obtain ⟨_, rfl⟩ := h; exact absurd hnew hne
  | selectBindings _ => obtain ⟨rfl, _⟩ := h; exact absurd hnew hne
  | selectBound _ => obtain ⟨rfl, _⟩ := h; exact absurd hnew hne

theorem committed_change (s : Shared T) (t : T) (q : Query) (v : Tables) :
    committed (s.change t q v) = committed s := by
  simp [committed, Shared.change]

/-- After a query every thread sees the objects it saw before. -/
theorem views_change {s : Shared T} {t : T} {q : Query} {r : QueryReply q} {v : Tables}
    (hc : s.Clear t q) (h : q.Does (s.seen t) r v) (u : T) (row : RowKey)
    (hrow : ((s.objects row).view u).isSome = true) :
    (((s.change t q v).objects row).view u).isSome = true := by
  by_cases hu : u = t
  · subst hu
    simp only [Shared.change, Version.view_write_self]
    by_cases hsame : v.objects row = (s.seen u).objects row
    · rw [hsame]
      exact hrow
    · exact (does_inserts h hsame).2
  · rwa [Shared.change, Version.view_write_other (clear_objects hc h) hu]

/-- A licensed query, which the reader makes only to read. -/
theorem query_sound {s s' : Traced T} {t : T} {q : Query} {r : QueryReply q}
    (h : Sound calls reader tables s) (hlicense : Licensed calls s.db t q)
    (hreads : t = reader → ∀ {a v : Tables} {r : QueryReply q}, q.Does a r v → v = a)
    (hstep : s.Effect t (.query q) r s') :
    Sound calls reader tables s' ∧ (rules calls reader tables).guar t s s' := by
  obtain ⟨⟨hc, v, hdoes, hdb⟩, horigin, hlog⟩ := hstep
  have hcommitted : committed s'.db = committed s.db := by rw [hdb, committed_change]
  have hkeeps : Keeps (committed s.db) (committed s'.db) := by
    rw [hcommitted]
    exact keeps_refl _
  obtain ⟨hstays, hrecorded⟩ := h.record hlog hkeeps
  have hviews : ∀ u row, ((s.db.objects row).view u).isSome = true →
      ((s'.db.objects row).view u).isSome = true := by
    rw [hdb]
    exact fun u row => views_change hc hdoes u row
  refine ⟨⟨?_, ?_, ?_, hstays, hrecorded, ?_⟩, ⟨[_], hlog.symm⟩, hkeeps, fun u _ row => hviews u row⟩
  · intro row u x hp
    have hcom : (s'.db.objects row).committed = (s.db.objects row).committed :=
      congrFun (congrArg Tables.objects hcommitted) row
    rw [hcom]
    rw [hdb] at hp
    obtain ⟨_, hp⟩ | ⟨hne, rfl, rfl⟩ := Version.pending_write hp
    · exact h.inserting row u x hp
    · obtain ⟨habsent, hsome⟩ := does_inserts hdoes (Ne.symm hne)
      refine ⟨hsome, ?_⟩
      -- the thread saw no row, and has no change of it pending
      cases hpend : (s.db.objects row).pending with
      | none =>
        have hview : (s.db.objects row).view u = (s.db.objects row).committed := by
          simp [Version.view, hpend]
        exact hview.symm.trans habsent
      | some p => exact (h.inserting row p.1 p.2 hpend).2
  · intro key u reference hp
    rw [hdb] at hp
    obtain ⟨_, hp⟩ | ⟨hne, rfl, hnew⟩ := Version.pending_write hp
    · obtain hbind | ⟨hbatch, hview⟩ := h.binding key u reference hp
      · exact .inl hbind
      · exact .inr ⟨hbatch, hviews u reference hview⟩
    · obtain hbind | ⟨hbatch, hview⟩ := licensed_binds hlicense hdoes (hnew ▸ hne) hnew.symm
      · exact .inl hbind
      · exact .inr ⟨hbatch, hviews u reference hview⟩
  · rw [hcommitted, horigin]
    exact h.bound
  · refine ⟨?_, ?_⟩
    · intro row x hp
      rw [hdb] at hp
      obtain ⟨_, hp⟩ | ⟨hne, ht, _⟩ := Version.pending_write hp
      · exact h.idle.1 row x hp
      · exact hne (by rw [hreads ht.symm hdoes]; rfl)
    · intro key x hp
      rw [hdb] at hp
      obtain ⟨_, hp⟩ | ⟨hne, ht, _⟩ := Version.pending_write hp
      · exact h.idle.2 key x hp
      · exact hne (by rw [hreads ht.symm hdoes]; rfl)

theorem begin_sound {s s' : Traced T} {t : T} {r : StmtReply .begin}
    (h : Sound calls reader tables s) (hstep : s.Effect t .begin r s') :
    Sound calls reader tables s' ∧ (rules calls reader tables).guar t s s' := by
  obtain ⟨hdb, horigin, hlog⟩ := hstep
  have hcommitted : committed s'.db = committed s.db := by rw [hdb]; rfl
  have hkeeps : Keeps (committed s.db) (committed s'.db) := by
    rw [hcommitted]
    exact keeps_refl _
  obtain ⟨hstays, hrecorded⟩ := h.record hlog hkeeps
  refine ⟨⟨?_, ?_, ?_, hstays, hrecorded, ?_⟩, ⟨[_], hlog.symm⟩, hkeeps, ?_⟩
  · rw [hdb]; exact h.inserting
  · rw [hdb]; exact h.binding
  · rw [hcommitted, horigin]; exact h.bound
  · rw [hdb]; exact h.idle
  · rw [hdb]; exact fun _ _ _ hrow => hrow

theorem rollback_sound {s s' : Traced T} {t : T} {r : StmtReply .rollback}
    (h : Sound calls reader tables s) (hstep : s.Effect t .rollback r s') :
    Sound calls reader tables s' ∧ (rules calls reader tables).guar t s s' := by
  obtain ⟨hdb, horigin, hlog⟩ := hstep
  have hdb : s'.db = s.db.rollback t := hdb
  have hcommitted : committed s'.db = committed s.db := by
    rw [hdb]
    simp [committed, Shared.rollback]
  have hviews : ∀ u, u ≠ t → ∀ row, (s'.db.objects row).view u = (s.db.objects row).view u := by
    intro u hu row
    rw [hdb]
    exact Version.view_rollback_other _ hu
  have hkeeps : Keeps (committed s.db) (committed s'.db) := by
    rw [hcommitted]
    exact keeps_refl _
  obtain ⟨hstays, hrecorded⟩ := h.record hlog hkeeps
  refine ⟨⟨?_, ?_, ?_, hstays, hrecorded, ?_⟩, ⟨[_], hlog.symm⟩, hkeeps, ?_⟩
  · intro row u x hp
    have hcom : (s'.db.objects row).committed = (s.db.objects row).committed :=
      congrFun (congrArg Tables.objects hcommitted) row
    rw [hcom]
    rw [hdb] at hp
    exact h.inserting row u x (Version.pending_rollback hp).2
  · intro key u reference hp
    rw [hdb] at hp
    obtain ⟨hu, hp⟩ := Version.pending_rollback hp
    rw [hviews u hu]
    exact h.binding key u reference hp
  · rw [hcommitted, horigin]
    exact h.bound
  · rw [hdb]
    exact ⟨fun row x hp => h.idle.1 row x (Version.pending_rollback hp).2,
      fun key x hp => h.idle.2 key x (Version.pending_rollback hp).2⟩
  · intro u hu row hrow
    rwa [hviews u hu]

/-- A commit adds the objects that its transaction sees, and keeps the others. -/
theorem Sound.commit_objects {s : Traced T} (h : Sound calls reader tables s) (t : T) :
    Keeps (committed s.db) (committed (s.db.commit t)) ∧ ∀ row,
      ((s.db.objects row).view t).isSome = true →
        ((committed (s.db.commit t)).objects row).isSome = true := by
  refine ⟨?_, ?_⟩
  · intro row canonical hrow
    obtain ⟨x, hp, _⟩ | ⟨_, hsame⟩ := Version.committed_commit t (s.db.objects row)
    · exact absurd (hrow.symm.trans (h.inserting row t x hp).2) (by simp)
    · exact hsame.trans hrow
  · intro row hrow
    obtain ⟨x, hp, hcom⟩ | ⟨hnone, hcom⟩ := Version.committed_commit t (s.db.objects row)
    · show ((s.db.objects row).commit t).committed.isSome = true
      rw [hcom]
      exact (h.inserting row t x hp).1
    · show ((s.db.objects row).commit t).committed.isSome = true
      have hview : (s.db.objects row).view t = (s.db.objects row).committed := by
        unfold Version.view
        split
        · rename_i u x hp
          exact if_neg fun (hu : u = t) => hnone x (hu ▸ hp)
        · rfl
      rw [hcom, ← hview]
      exact hrow

theorem commit_sound {s s' : Traced T} {t : T} {r : StmtReply .commit}
    (h : Sound calls reader tables s) (hstep : s.Effect t .commit r s') :
    Sound calls reader tables s' ∧ (rules calls reader tables).guar t s s' := by
  obtain ⟨hdb, horigin, hlog⟩ := hstep
  have hdb : s'.db = s.db.commit t := hdb
  obtain ⟨hkeeps, hpublished⟩ := h.commit_objects t
  rw [← hdb] at hkeeps hpublished
  have hviews : ∀ u, u ≠ t → ∀ row, ((s.db.objects row).view u).isSome = true →
      ((s'.db.objects row).view u).isSome = true := by
    intro u hu row hrow
    rw [hdb]
    obtain ⟨x, hp, hview⟩ | hview := Version.view_commit_other (s.db.objects row) hu
    · show (((s.db.objects row).commit t).view u).isSome = true
      rw [hview]
      exact (h.inserting row t x hp).1
    · show (((s.db.objects row).commit t).view u).isSome = true
      rwa [hview]
  obtain ⟨hstays, hrecorded⟩ := h.record hlog hkeeps
  refine ⟨⟨?_, ?_, ?_, hstays, hrecorded, ?_⟩, ⟨[_], hlog.symm⟩, hkeeps, hviews⟩
  · intro row u x hp
    rw [hdb] at hp ⊢
    obtain ⟨hu, hp⟩ := Version.pending_commit hp
    refine ⟨(h.inserting row u x hp).1, ?_⟩
    obtain ⟨y, hp', _⟩ | ⟨_, hsame⟩ := Version.committed_commit t (s.db.objects row)
    · rw [hp] at hp'
      cases hp'
      exact absurd rfl hu
    · exact hsame.trans (h.inserting row u x hp).2
  · intro key u reference hp
    rw [hdb] at hp
    obtain ⟨hu, hp⟩ := Version.pending_commit hp
    obtain hbind | ⟨hbatch, hview⟩ := h.binding key u reference hp
    · exact .inl hbind
    · exact .inr ⟨hbatch, hviews u hu reference hview⟩
  · intro key reference hbound
    rw [horigin]
    simp only [originAfter]
    obtain ⟨x, hp, hcom⟩ | ⟨hnone, hsame⟩ := Version.committed_commit t (s.db.bindings key)
    · -- the binding is the one this transaction has written
      have hx : x = some reference := by
        rw [hdb] at hbound
        exact hcom.symm.trans hbound
      subst hx
      rw [hp]
      simp only [if_true]
      obtain hbind | ⟨hbatch, hview⟩ := h.binding key t reference hp
      · exact .inl hbind
      · exact .inr ⟨hbatch, hpublished reference hview⟩
    · have hold : (committed s.db).bindings key = some reference := by
        rw [hdb] at hbound
        exact hsame.symm.trans hbound
      have horig : (match (s.db.bindings key).pending with
          | some (u, some _) => if u = t then some t else s.origin key
          | _ => s.origin key) = s.origin key := by
        split
        · rename_i u y hp
          exact if_neg fun (hu : u = t) => hnone _ (hu ▸ hp)
        · rfl
      rw [horig]
      have hwas := h.bound key reference hold
      cases ho : s.origin key with
      | none =>
        rw [ho] at hwas
        exact hwas
      | some u =>
        rw [ho] at hwas
        obtain hbind | ⟨hbatch, hstored⟩ := hwas
        · exact .inl hbind
        · obtain ⟨canonical, hcanonical⟩ := Option.isSome_iff_exists.mp hstored
          refine .inr ⟨hbatch, ?_⟩
          rw [hkeeps reference canonical hcanonical]
          rfl
  · rw [hdb]
    exact ⟨fun row x hp => h.idle.1 row x (Version.pending_commit hp).2,
      fun key x hp => h.idle.2 key x (Version.pending_commit hp).2⟩

/-! ## Writers -/

section Writers

variable {α β : Type} {t : T} {rows : List RowKey} {s : Traced T}

/-- The objects a thread sees. -/
def Visible (t : T) (rows : List RowKey) (s : Traced T) : Prop :=
  ∀ row ∈ rows, ((s.db.objects row).view t).isSome = true

theorem visible_nil (t : T) (s : Traced T) : Visible t [] s := by
  intro row hrow
  cases hrow

theorem visible_stable (t : T) (rows : List RowKey) :
    Stable (rules calls reader tables) t (Visible t rows) := by
  intro s s' ho hs row hrow
  obtain ⟨_, _, u, hu, _, _, hviews⟩ := ho
  exact hviews t (Ne.symm hu) row (hs row hrow)

variable (calls reader tables) in
abbrev Wp (t : T) (p : Prog Stmt StmtReply StoreError α)
    (Q : Except StoreError α → Traced T → Prop) (s : Traced T) : Prop :=
  wp traced (rules calls reader tables) t p Q s

/-- One step of a writer, licensed by what it sees. -/
theorem wp_step {q : Query} {k : QueryReply q → Prog Stmt StmtReply StoreError α}
    {Q : Except StoreError α → Traced T → Prop} (ht : t ≠ reader) (hs : Visible t rows s)
    (hlicense : ∀ s', Visible t rows s' → Licensed calls s'.db t q)
    (h : ∀ s' r v s'', Visible t rows s' → q.Does (s'.db.seen t) r v → s''.db.seen t = v →
      Visible t rows s'' → Wp calls reader tables t (k r) Q s'') :
    Wp calls reader tables t (.exec (.query q) k) Q s := by
  refine wp_exec (visible_stable t rows) hs ?_
  intro s' r s'' hinv hvisible hstep
  obtain ⟨hsound, hguar⟩ := query_sound hinv (hlicense s' hvisible)
    (fun heq => absurd heq ht) hstep
  refine ⟨hsound, hguar, ?_⟩
  obtain ⟨⟨hc, v, hdoes, hdb⟩, _, _⟩ := hstep
  refine h s' r v s'' hvisible hdoes (by rw [hdb, Shared.seen_change]) ?_
  intro row hrow
  rw [hdb]
  exact views_change hc hdoes t row (hvisible row hrow)

/-- A query that binds no key. -/
def plainQuery : Query → Bool
  | .insertBinding _ _ | .insertBindings _ => false
  | _ => true

theorem plain_licensed {q : Query} (h : plainQuery q = true) (s : Shared T) :
    Licensed calls s t q := by
  cases q with
  | insertBinding _ _ => cases h
  | insertBindings _ => cases h
  | _ => trivial

/-- A body that binds no key. -/
def Plain : Program α → Prop
  | .pure _ | .fail _ => True
  | .exec q k => plainQuery q = true ∧ ∀ r, Plain (k r)

theorem plain_bind {p : Program α} {f : α → Program β} (hp : Plain p) (hf : ∀ a, Plain (f a)) :
    Plain (p >>= f) := by
  induction p with
  | pure a => exact hf a
  | fail e => trivial
  | exec q k ih => exact ⟨hp.1, fun r => ih r (hp.2 r)⟩

theorem plain_fetchAll {κ ν : Type} [DecidableEq κ] {fetch : List α → Program (List (κ × ν))}
    (h : ∀ chunk, Plain (fetch chunk)) (chunks : List (List α)) (d : Dict κ ν) :
    Plain (fetchAll fetch chunks d) := by
  induction chunks generalizing d with
  | nil => trivial
  | cons chunk rest ih => exact plain_bind (h chunk) fun rows => ih _

theorem plain_gather {send : List α → Program (List β)} (h : ∀ chunk, Plain (send chunk))
    (chunks : List (List α)) (found : List β) : Plain (gather send chunks found) := by
  induction chunks generalizing found with
  | nil => trivial
  | cons chunk rest ih => exact plain_bind (h chunk) fun keys => ih _

theorem plain_ofExcept (out : Except StoreError α) : Plain (Prog.ofExcept out : Program α) := by
  cases out <;> trivial

theorem plain_query {q : Query} (h : plainQuery q = true) : Plain (query q) :=
  ⟨h, fun _ => trivial⟩

theorem plain_translate {p : Program α} (hp : Plain p) : Plain (p.translate byRow) := by
  have hbyRow : ∀ q, plainQuery q = true → Plain (byRow q) := by
    intro q hq
    cases q with
    | insertObjects rows =>
      show Plain (insertObjectRows rows)
      induction rows with
      | nil => trivial
      | cons row rest ih => exact ⟨rfl, fun _ => ih rfl⟩
    | insertBindings _ => cases hq
    | deleteBindings keys =>
      exact ⟨rfl, fun _ => plain_gather (fun _ => plain_query rfl) _ _⟩
    | _ => exact plain_query hq
  induction p with
  | pure a => trivial
  | fail e => trivial
  | exec q k ih => exact plain_bind (hbyRow q hp.1) fun r => ih r (hp.2 r)

/-- It goes on seeing what it sees. -/
theorem wp_plain {p : Program α} (ht : t ≠ reader) (hp : Plain p) (hs : Visible t rows s) :
    Wp calls reader tables t (rowByRow p) (fun _ s' => Visible t rows s') s := by
  have hp := plain_translate hp
  unfold rowByRow
  generalize p.translate byRow = p at hp ⊢
  induction p generalizing s with
  | pure a => exact wp_pure (visible_stable t rows) hs fun _ _ h => h
  | fail e => exact wp_fail (visible_stable t rows) hs fun _ _ h => h
  | exec q k ih =>
    refine wp_step ht hs ?_ ?_
    · exact fun s' _ => plain_licensed hp.1 s'.db
    · intro s' r v s'' _ _ _ hs''
      exact ih r hs'' (hp.2 r)

/-- One part of a body, then the rest. -/
theorem wp_then {p : Program α} {f : α → Program β} {Q : Except StoreError β → Traced T → Prop}
    (hinv : Sound calls reader tables s) (P : Except StoreError α → Traced T → Prop)
    (hp : Wp calls reader tables t (rowByRow p) P s)
    (hok : ∀ a s', Sound calls reader tables s' → P (.ok a) s' →
      Wp calls reader tables t (rowByRow (f a)) Q s')
    (herror : ∀ e s', Sound calls reader tables s' → P (.error e) s' →
      Wp calls reader tables t (rowByRow (.fail e : Program β)) Q s') :
    Wp calls reader tables t (rowByRow (p >>= f)) Q s := by
  rw [rowByRow_bind]
  refine wp_bind hinv (wp_mono ?_ hp)
  intro out s' hinv' h
  cases out with
  | ok a => exact hok a s' hinv' h
  | error e => exact herror e s' hinv' h

/-- A transaction around a body. -/
theorem wp_transaction {body : Program α}
    (h : ∀ s, Sound calls reader tables s →
      Wp calls reader tables t (onConnection body) (fun _ _ => True) s) (s : Traced T) :
    Wp calls reader tables t (transaction body) (fun _ _ => True) s := by
  refine wp_exec (visible_stable t []) (visible_nil t s) ?_
  intro s' r s'' hinv _ hstep
  obtain ⟨hsound, hguar⟩ := begin_sound hinv hstep
  refine ⟨hsound, hguar, wp_settle hsound (wp_mono ?_ (h s'' hsound))⟩
  intro out s _ _
  cases out with
  | ok a =>
    intro s' _ hinv r s'' hstep
    obtain ⟨hsound, hguar⟩ := commit_sound hinv hstep
    exact ⟨hsound, hguar, fun _ _ _ => trivial⟩
  | error e =>
    intro s' _ hinv r s'' hstep
    obtain ⟨hsound, hguar⟩ := rollback_sound hinv hstep
    exact ⟨hsound, hguar, fun _ _ _ => trivial⟩

/-! ### Batches -/

/-- Row after row of an insertion, then the rest of the body. -/
theorem wp_insertObjectRows {chunk : List (RowKey × String)} {f : Unit → Program α}
    {Q : Except StoreError α → Traced T → Prop} (ht : t ≠ reader) (hs : Visible t rows s)
    (h : ∀ s', Visible t (rows ++ chunk.map Prod.fst) s' →
      Wp calls reader tables t (rowByRow (f ())) Q s') :
    Wp calls reader tables t (rowByRow (query (.insertObjects chunk) >>= f)) Q s := by
  show Wp calls reader tables t
    (onConnection (insertObjectRows chunk >>= fun r => (f r).translate byRow)) Q s
  induction chunk generalizing rows s with
  | nil => exact h s (by simpa using hs)
  | cons row rest ih =>
    refine wp_step ht hs (fun s' _ => plain_licensed rfl s'.db) ?_
    intro s' r v s'' _ hdoes hseen hs''
    refine @ih (rows ++ [row.1]) _ ?_ ?_
    · intro row' hrow
      rcases List.mem_append.mp hrow with hrow | hrow
      · exact hs'' row' hrow
      · cases List.mem_singleton.mp hrow
        have hobject : ((s''.db.seen t).objects row.1).isSome = true := by
          rw [hseen, hdoes.2]
          simp [putAbsent_self]
        exact hobject
    · exact fun s₃ hs₃ => h s₃ (by simpa using hs₃)

theorem wp_insertObjects {chunks : List (List (RowKey × String))} (ht : t ≠ reader)
    (hs : Visible t rows s) :
    Wp calls reader tables t (rowByRow (PostgresBackend.insertObjects chunks))
      (fun _ s' => Visible t (rows ++ chunks.flatten.map Prod.fst) s') s := by
  induction chunks generalizing rows s with
  | nil =>
    refine wp_pure (visible_stable t rows) hs ?_
    intro s' _ h
    simpa using h
  | cons chunk rest ih =>
    refine wp_insertObjectRows ht hs ?_
    intro s' hs'
    have hrest := ih hs'
    rwa [List.append_assoc, ← List.map_append] at hrest

/-- Storing the objects of a batch makes them visible to it. -/
theorem wp_storeObjects {n : Nat} (hn : 0 < n) {objects : Dict RowKey String} (ht : t ≠ reader)
    (hinv : Sound calls reader tables s) :
    Wp calls reader tables t (rowByRow (PostgresBackend.storeObjects n objects))
      (fun _ s' => Visible t objects.keys s') s := by
  refine wp_then hinv (fun _ s' => Visible t objects.keys s') ?_ ?_ ?_
  · have hinsert := @wp_insertObjects T _ calls reader tables t [] s (chunks n objects.items) ht
      (visible_nil t s)
    rwa [chunks_flatten hn] at hinsert
  · intro _ s' _ hs'
    refine wp_plain ht ?_ hs'
    exact plain_bind (plain_fetchAll (fun chunk => plain_query rfl) _ _)
      fun stored => plain_ofExcept _
  · intro e s' _ hs'
    exact wp_plain ht (p := (.fail e : Program Unit)) trivial hs'

theorem wp_insertBindingRows {chunk : List (String × RowKey)} {found : List String}
    {f : List String → Program α} {Q : Except StoreError α → Traced T → Prop}
    (ht : t ≠ reader) (hcall : ∃ entries, calls t = .putBoundObjects entries)
    (hrefs : ∀ row ∈ chunk, row.2 ∈ rows) (hs : Visible t rows s)
    (h : ∀ found' s', Visible t rows s' → Wp calls reader tables t (rowByRow (f found')) Q s') :
    Wp calls reader tables t
      (onConnection (insertBindingRows chunk found >>= fun r => (f r).translate byRow)) Q s := by
  induction chunk generalizing found s with
  | nil => exact h found s hs
  | cons row rest ih =>
    refine wp_step ht hs ?_ ?_
    · exact fun s' hs' => .inr ⟨hcall, hs' row.2 (hrefs row List.mem_cons_self)⟩
    · intro s' r v s'' _ _ _ hs''
      exact ih (fun row' hrow => hrefs row' (List.mem_cons_of_mem _ hrow)) hs''

theorem wp_insertBindings {chunks : List (List BoundObjectWrite)} {found : List String}
    (ht : t ≠ reader) (hcall : ∃ entries, calls t = .putBoundObjects entries)
    (hrefs : ∀ w ∈ chunks.flatten, w.reference ∈ rows) (hs : Visible t rows s) :
    Wp calls reader tables t (rowByRow (gather
      (fun chunk => query (.insertBindings (bindingPairs chunk))) chunks found))
      (fun _ _ => True) s := by
  induction chunks generalizing found s with
  | nil => exact fun _ _ _ => trivial
  | cons chunk rest ih =>
    refine wp_insertBindingRows ht hcall ?_ hs ?_
    · intro row hrow
      obtain ⟨w, hw, rfl⟩ := List.mem_map.mp hrow
      exact hrefs w (List.mem_append_left _ hw)
    · intro inserted s' hs'
      exact ih (fun w hw => hrefs w (List.mem_append_right _ hw)) hs'

theorem wp_putBoundObjects {n : Nat} (hn : 0 < n) {entries : List BoundObjectWrite}
    (ht : t ≠ reader) (hcall : calls t = .putBoundObjects entries)
    (hinv : Sound calls reader tables s) :
    Wp calls reader tables t
      (rowByRow (PostgresBackend.putBoundObjectsOnConnection n entries))
      (fun _ _ => True) s := by
  unfold PostgresBackend.putBoundObjectsOnConnection
  cases hdw : PostgresBackend.distinctWrites entries Dict.empty Dict.empty with
  | error err => exact fun _ _ _ => trivial
  | ok p =>
    obtain ⟨objects, writes⟩ := p
    have hd := PostgresBackend.distinctWrites_ok hdw
    have hrefs : ∀ w ∈ writes.values, w.reference ∈ objects.keys := by
      intro w hw
      obtain ⟨⟨key, w'⟩, hmem, rfl⟩ := List.mem_map.mp hw
      have hget : writes.get? key = some w' := Dict.get?_eq_some.mpr hmem
      rw [hd.writes_eq] at hget
      obtain ⟨e, he, heq⟩ := List.mem_map.mp (firstOf_mem hget)
      cases heq
      rw [← Dict.contains_iff, Dict.contains, hd.agree _ he]
      rfl
    rw [Prog.ofExcept_ok, Prog.pure_bind]
    refine wp_then hinv _ (wp_storeObjects hn ht hinv) ?_ ?_
    · intro _ s' hinv' hs'
      refine wp_then hinv' (fun _ _ => True) (wp_insertBindings ht ⟨entries, hcall⟩ ?_ hs') ?_ ?_
      · rw [chunks_flatten hn]
        exact hrefs
      · intro inserted s'' hinv'' _
        refine wp_mono (fun _ _ _ _ => trivial) (wp_plain ht ?_ (visible_nil t s''))
        refine plain_bind (plain_fetchAll (fun chunk => plain_query rfl) _ _) fun stored => ?_
        split
        · trivial
        · trivial
      · exact fun _ _ _ _ _ _ _ => trivial
    · exact fun _ _ _ _ _ _ _ => trivial

/-! ### Calls -/

/-- A body whose result is wrapped as a reply. -/
theorem wp_wrapped {p : Program α} {f : α → Reply} (hinv : Sound calls reader tables s)
    (h : Wp calls reader tables t (rowByRow p) (fun _ _ => True) s) :
    Wp calls reader tables t (rowByRow (do return f (← p))) (fun _ _ => True) s :=
  wp_then hinv _ h (fun _ _ _ _ _ _ _ => trivial) (fun _ _ _ _ _ _ _ => trivial)

theorem wp_plainBody {p : Program α} (ht : t ≠ reader) (hp : Plain p) :
    Wp calls reader tables t (rowByRow p) (fun _ _ => True) s :=
  wp_mono (fun _ _ _ _ => trivial) (wp_plain ht hp (visible_nil t s))

/-- Every call keeps the traces sound. -/
theorem wp_call (b : PostgresBackend) (ht : t ≠ reader) (s : Traced T) :
    Wp calls reader tables t (programs b calls t) (fun _ _ => True) s := by
  unfold programs checked
  split
  · exact fun _ _ _ => trivial
  cases hcall : calls t with
  | putObject schema contentHash canonical =>
    rw [PostgresBackend.program, transaction_translate]
    refine wp_transaction (fun s hinv => wp_wrapped hinv (wp_plainBody ht ?_)) s
    refine plain_bind (plain_query rfl) fun inserted => ?_
    cases inserted with
    | some _ => trivial
    | none =>
      refine plain_bind (plain_query rfl) fun stored => ?_
      cases stored <;> trivial
  | bind key schema contentHash =>
    rw [PostgresBackend.program, transaction_translate]
    refine wp_transaction (fun s hinv => wp_wrapped hinv ?_) s
    refine wp_step ht (visible_nil t s) (fun _ _ => .inl hcall) ?_
    intro s' r v s'' _ _ _ hs''
    refine wp_plainBody ht (plain_bind (plain_query rfl) fun row => ?_)
    cases row <;> trivial
  | getObject schema contentHash =>
    rw [PostgresBackend.program, onConnection_translate]
    exact wp_plainBody ht (plain_bind (plain_query rfl) fun _ => trivial)
  | getBinding key =>
    rw [PostgresBackend.program, onConnection_translate]
    exact wp_plainBody ht (plain_bind (plain_query rfl) fun _ => trivial)
  | getBoundObjects keys =>
    rw [PostgresBackend.program]
    split
    · exact fun _ _ _ => trivial
    · rw [onConnection_translate]
      refine wp_plainBody ht (plain_bind ?_ fun _ => trivial)
      refine plain_bind (plain_fetchAll (fun _ => plain_query rfl) _ _) fun bindings => ?_
      exact plain_bind (plain_fetchAll (fun _ => plain_query rfl) _ _) fun objects => trivial
  | putBoundObjects entries =>
    rw [PostgresBackend.program]
    split
    · exact fun _ _ _ => trivial
    · rw [transaction_translate]
      refine wp_transaction (fun s hinv => wp_wrapped hinv ?_) s
      exact wp_putBoundObjects b.positive ht hcall hinv
  | deleteBindings keys =>
    rw [PostgresBackend.program]
    split
    · exact fun _ _ _ => trivial
    · rw [transaction_translate]
      refine wp_transaction (fun s hinv => wp_wrapped hinv (wp_plainBody ht ?_)) s
      exact plain_gather (fun _ => plain_query rfl) _ _

end Writers

/-! ## The reader -/

section Reader

variable {α : Type} {s : Traced T}

/-- The event of reading the chunk that has the key, with the binding committed then. -/
def ReadAt (reader : T) (requested : List (List String)) (e : Event T) (key : String)
    (reference : RowKey) : Prop :=
  e.thread = reader ∧ (∃ chunk ∈ requested, e.stmt = .query (.selectBindings chunk) ∧
    key ∈ chunk) ∧ e.committed.bindings key = some reference

/-- Every binding found so far was read at some event. -/
def Found (reader : T) (requested : List (List String)) (d : Dict String RowKey)
    (log : List (Event T)) : Prop :=
  ∀ key reference, d.get? key = some reference → ∃ later e earlier,
    log = later ++ e :: earlier ∧ ReadAt reader requested e key reference

omit [DecidableEq T] in
theorem Found.grow {requested : List (List String)} {d : Dict String RowKey}
    {log log' : List (Event T)} (h : Found reader requested d log) (hlog : log <:+ log') :
    Found reader requested d log' := by
  intro key reference hget
  obtain ⟨later, e, earlier, heq, hread⟩ := h key reference hget
  obtain ⟨newer, rfl⟩ := hlog
  exact ⟨newer ++ later, e, earlier, by rw [heq, List.append_assoc], hread⟩

/-- The objects read so far, since the log was `log`: what was found is committed, what was not
was committed at no event before. -/
structure Looked (log : List (Event T)) (objects : Dict RowKey String) (done : List RowKey)
    (s : Traced T) : Prop where
  grown : log <:+ s.log
  found : ∀ row canonical, objects.get? row = some canonical →
    (committed s.db).objects row = some canonical
  missed : ∀ row ∈ done, objects.get? row = none → ∀ e ∈ log, e.committed.objects row = none

theorem found_stable (requested : List (List String)) (d : Dict String RowKey) :
    Stable (rules calls reader tables) reader (fun s => Found reader requested d s.log) := by
  intro s s' ho hs
  obtain ⟨_, _, u, _, hlog, _⟩ := ho
  exact hs.grow hlog

theorem looked_stable (log : List (Event T)) (objects : Dict RowKey String)
    (done : List RowKey) :
    Stable (rules calls reader tables) reader (Looked log objects done) := by
  intro s s' ho hs
  obtain ⟨_, _, u, _, hlog, hkeeps, _⟩ := ho
  exact ⟨hs.grown.trans hlog, fun row canonical hget => hkeeps row canonical (hs.found row _ hget),
    hs.missed⟩

theorem reads_plain {q : Query} (hq : Reads q) : plainQuery q = true := by
  cases q with
  | insertBinding _ _ | insertBindings _ => exact hq.elim
  | _ => rfl

/-- One query of the reader: it sees what is committed, and changes nothing. -/
theorem wp_read {q : Query} {f : QueryReply q → Program α}
    {Q : Except StoreError α → Traced T → Prop} {A : Traced T → Prop}
    (hA : Stable (rules calls reader tables) reader A) (hs : A s) (hq : Reads q)
    (h : ∀ s' r s'', A s' → Sound calls reader tables s' →
      q.Does (committed s'.db) r (committed s'.db) → committed s''.db = committed s'.db →
      s''.log = ⟨reader, .query q, committed s'.db, s'.origin⟩ :: s'.log →
      Wp calls reader tables reader (rowByRow (f r)) Q s'') :
    Wp calls reader tables reader (rowByRow (query q >>= f)) Q s := by
  rw [rowByRow_query (reads_byRow hq).2]
  refine wp_exec hA hs ?_
  intro s' r s'' hinv hA' hstep
  obtain ⟨hsound, hguar⟩ := query_sound hinv (plain_licensed (reads_plain hq) s'.db)
    (fun _ => reads_does hq) hstep
  refine ⟨hsound, hguar, ?_⟩
  obtain ⟨⟨_, v, hdoes, hdb⟩, _, hlog⟩ := hstep
  have hsame := reads_does hq hdoes
  rw [hsame, hinv.reader_sees] at hdoes
  exact h s' r s'' hA' hinv hdoes (by rw [hdb, committed_change]) hlog

theorem wp_fetchBindings {requested todo : List (List String)} {d : Dict String RowKey}
    (htodo : ∀ chunk ∈ todo, chunk ∈ requested) (hs : Found reader requested d s.log) :
    Wp calls reader tables reader
      (rowByRow (fetchAll (fun chunk => query (.selectBindings chunk)) todo d))
      (fun out s' => ∃ d', out = .ok d' ∧ Found reader requested d' s'.log) s := by
  induction todo generalizing d s with
  | nil => exact wp_pure (found_stable requested d) hs fun s' _ h => ⟨d, rfl, h⟩
  | cons chunk rest ih =>
    refine wp_read (found_stable requested d) hs trivial ?_
    intro s' found s'' hfound _ hdoes _ hlog
    have hrows : ∀ key reference, (key, reference) ∈ found ↔
        key ∈ chunk ∧ (committed s'.db).bindings key = some reference := hdoes.2
    refine ih (fun chunk' hmem => htodo chunk' (List.mem_cons_of_mem _ hmem)) ?_
    intro key reference hget
    rw [Dict.get?_foldl_set found d (fun p hp => ((hrows p.1 p.2).mp hp).2)] at hget
    split at hget
    · rename_i hmem
      obtain ⟨p, hp, rfl⟩ := List.mem_map.mp hmem
      exact ⟨[], _, s'.log, hlog, rfl,
        ⟨chunk, htodo chunk List.mem_cons_self, rfl, ((hrows p.1 p.2).mp hp).1⟩, hget⟩
    · exact (hfound.grow ⟨[_], hlog.symm⟩) key reference hget

theorem wp_fetchObjects {log : List (Event T)} {todo : List (List RowKey)}
    {objects : Dict RowKey String} {done : List RowKey} (hs : Looked log objects done s) :
    Wp calls reader tables reader
      (rowByRow (fetchAll (fun chunk => query (.selectObjects chunk)) todo objects))
      (fun out s' => ∃ objects', out = .ok objects' ∧
        Looked log objects' (done ++ todo.flatten) s') s := by
  induction todo generalizing objects done s with
  | nil =>
    refine wp_pure (looked_stable log objects done) hs ?_
    intro s' _ h
    exact ⟨objects, rfl, by simpa using h⟩
  | cons chunk rest ih =>
    refine wp_read (looked_stable log objects done) hs trivial ?_
    intro s' found s'' hlooked hinv hdoes hsame hlog
    have hrows : ∀ row canonical, (row, canonical) ∈ found ↔
        row ∈ chunk ∧ (committed s'.db).objects row = some canonical := hdoes.2
    have hget := Dict.get?_foldl_set found objects (fun p hp => ((hrows p.1 p.2).mp hp).2)
    have hnext : Looked log (found.foldl (fun d p => d.set p.1 p.2) objects) (done ++ chunk) s'' := by
      refine ⟨hlooked.grown.trans ⟨[_], hlog.symm⟩, ?_, ?_⟩
      · intro row canonical hrow
        rw [hsame]
        rw [hget] at hrow
        split at hrow
        · exact hrow
        · exact hlooked.found row canonical hrow
      · intro row hmem hnone e he
        rw [hget] at hnone
        split at hnone
        · -- a row that was found is not missing
          rename_i hfound
          obtain ⟨p, hp, rfl⟩ := List.mem_map.mp hfound
          rw [((hrows p.1 p.2).mp hp).2] at hnone
          cases hnone
        · rename_i habsent
          rcases List.mem_append.mp hmem with hdone | hchunk
          · exact hlooked.missed row hdone hnone e he
          · -- not committed when looked for, so at no event before
            by_contra hsome
            obtain ⟨canonical, hc⟩ := Option.ne_none_iff_exists'.mp hsome
            have hnow := hinv.stays.2 e (hlooked.grown.mem he) row canonical hc
            exact habsent (List.mem_map.mpr ⟨(row, canonical),
              (hrows row canonical).mpr ⟨hchunk, hnow⟩, rfl⟩)
    have hrest := ih hnext
    rwa [List.append_assoc] at hrest

/-- What a batch read returned. -/
structure Untorn (calls : T → Call) (reader : T) (tables : Tables)
    (requested : List (List String)) (s : Traced T) (rows : Dict String BoundObjectRow) : Prop where
  /-- only keys of the request -/
  keys : ∀ key, (rows.get? key).isSome = true → key ∈ requested.flatten
  /-- each row is of the moment its key's chunk was read -/
  row : ∀ key row, rows.get? key = some row → ∃ later e earlier,
    s.log = later ++ e :: earlier ∧
    -- its binding was committed then
    ReadAt reader requested e key (row.bindingSchema, row.bindingContentHash) ∧
    -- its text is that of the object, if that was committed by then
    (∀ e' ∈ e :: earlier, ∀ canonical,
      e'.committed.objects (row.bindingSchema, row.bindingContentHash) = some canonical →
      row.canonical = some canonical) ∧
    (∀ canonical, row.canonical = some canonical →
      (committed s.db).objects (row.bindingSchema, row.bindingContentHash) = some canonical) ∧
    -- without a text, the key was bound before its object was stored, and not by a batch
    (row.canonical = none →
      e.committed.objects (row.bindingSchema, row.bindingContentHash) = none ∧
      match e.origin key with
      | none => tables.bindings key = some (row.bindingSchema, row.bindingContentHash) ∧
          tables.objects (row.bindingSchema, row.bindingContentHash) = none
      | some u => calls u = .bind key row.bindingSchema row.bindingContentHash)

/-- The regrouping: bindings read by the events of `log`, objects looked up after them. -/
theorem untorn_rows {requested : List (List String)} {log : List (Event T)}
    {bindings : Dict String RowKey} {objects : Dict RowKey String}
    (hinv : Sound calls reader tables s) (hfound : Found reader requested bindings log)
    (hlooked : Looked log objects bindings.values.eraseDups s) :
    Untorn calls reader tables requested s (Dict.collect bindings.keys fun key =>
      (bindings.get? key).map fun reference => ⟨reference.1, reference.2, objects.get? reference⟩) := by
  have hrow : ∀ key row, (Dict.collect bindings.keys fun key => (bindings.get? key).map
      fun reference => (⟨reference.1, reference.2, objects.get? reference⟩ : BoundObjectRow)).get? key =
        some row → ∃ reference, bindings.get? key = some reference ∧
          row = ⟨reference.1, reference.2, objects.get? reference⟩ := by
    intro key row hget
    rw [Dict.get?_collect] at hget
    split at hget
    · obtain ⟨reference, hb, heq⟩ := Option.map_eq_some_iff.mp hget
      exact ⟨reference, hb, heq.symm⟩
    · cases hget
  refine ⟨?_, ?_⟩
  · intro key hsome
    obtain ⟨row, hget⟩ := Option.isSome_iff_exists.mp hsome
    obtain ⟨reference, hb, _⟩ := hrow key row hget
    obtain ⟨_, _, _, _, _, ⟨chunk, hchunk, _, hkey⟩, _⟩ := hfound key reference hb
    exact List.mem_flatten.mpr ⟨chunk, hchunk, hkey⟩
  · intro key row hget
    obtain ⟨reference, hb, rfl⟩ := hrow key row hget
    obtain ⟨later, e, earlier, heq, hread⟩ := hfound key reference hb
    obtain ⟨newer, hnewer⟩ := hlooked.grown
    have hlog : s.log = (newer ++ later) ++ e :: earlier := by
      rw [← hnewer, heq, List.append_assoc]
    have hdone : reference ∈ bindings.values.eraseDups := List.mem_eraseDups.mpr
      (List.mem_map.mpr ⟨(key, reference), Dict.get?_eq_some.mp hb, rfl⟩)
    obtain ⟨hboundBy, hinitial, _⟩ := hinv.recorded _ e earlier hlog
    have hmissed : objects.get? reference = none →
        ∀ e' ∈ e :: earlier, e'.committed.objects reference = none := by
      intro hnone e' he'
      refine hlooked.missed reference hdone hnone e' ?_
      rw [heq]
      exact List.mem_append_right _ he'
    refine ⟨newer ++ later, e, earlier, hlog, hread, ?_, hlooked.found reference, ?_⟩
    · intro e' he' canonical hc
      cases hobject : objects.get? reference with
      | none =>
        rw [hmissed hobject e' he'] at hc
        cases hc
      | some text =>
        -- both are the text committed now
        have hnow := hinv.stays.2 e' (by rw [hlog]; exact List.mem_append_right _ he') _ _ hc
        rw [hlooked.found reference text hobject] at hnow
        exact hnow
    · intro hnone
      have hmissing := hmissed hnone e List.mem_cons_self
      refine ⟨hmissing, ?_⟩
      have horigin := hboundBy key reference hread.2.2
      cases ho : e.origin key with
      | none =>
        rw [ho] at horigin
        refine ⟨horigin, ?_⟩
        by_contra hsome
        obtain ⟨canonical, hc⟩ := Option.ne_none_iff_exists'.mp hsome
        exact absurd (hmissing.symm.trans (hinitial _ _ hc)) (by simp)
      | some u =>
        rw [ho] at horigin
        obtain hbind | ⟨_, hstored⟩ := horigin
        · exact hbind
        · rw [hmissing] at hstored
          cases hstored

/-- `_get_bound_objects_on_connection` as a body. -/
def readBody (b : PostgresBackend) (keys : List String) : Program Reply := do
  return .rows (← PostgresBackend.getBoundObjectsOnConnection b.batchChunkSize keys)

theorem reads_readBody (b : PostgresBackend) (keys : List String) :
    Sends Reads (readBody b keys) := by
  refine sends_bind (sends_bind ?_ fun bindings => ?_) fun _ => trivial
  · exact sends_fetchAll (fun _ _ => sends_query trivial) _
  · exact sends_bind (sends_fetchAll (fun _ _ => sends_query trivial) _) fun objects => trivial

theorem wp_reader (b : PostgresBackend) (keys : List String) (hinv : Sound calls reader tables s) :
    Wp calls reader tables reader (rowByRow (readBody b keys))
      (fun out s' => ∃ rows, out = .ok (.rows rows) ∧
        Untorn calls reader tables (chunks b.batchChunkSize keys) s' rows) s := by
  have hempty : Found reader (chunks b.batchChunkSize keys) Dict.empty s.log := by
    intro key reference hget
    cases hget
  refine wp_then hinv (fun out s' => ∃ rows, out = .ok rows ∧
    ∃ bindings objects log, Found reader (chunks b.batchChunkSize keys) bindings log ∧
      Looked log objects bindings.values.eraseDups s' ∧
      rows = Dict.collect bindings.keys fun key => (bindings.get? key).map fun reference =>
        ⟨reference.1, reference.2, objects.get? reference⟩) ?_ ?_ ?_
  · refine wp_then hinv _ (wp_fetchBindings (fun _ h => h) hempty) ?_ ?_
    · intro bindings s' hinv' hread
      obtain ⟨_, heq, hfound⟩ := hread
      cases heq
      -- the objects are looked up against the log as it is now
      have hlooked : Looked s'.log Dict.empty [] s' := by
        refine ⟨List.suffix_refl _, ?_, ?_⟩
        · intro row canonical hget
          cases hget
        · intro row hmem
          cases hmem
      refine wp_then hinv' _ (wp_fetchObjects hlooked) ?_ ?_
      · intro objects s'' _ hread
        obtain ⟨_, heq, hlooked⟩ := hread
        cases heq
        rw [List.nil_append, chunks_flatten b.positive] at hlooked
        refine wp_pure (looked_stable _ _ _) hlooked ?_
        intro s₃ _ hlooked
        exact ⟨_, rfl, bindings, objects, s'.log, hfound, hlooked, rfl⟩
      · intro e s'' _ hread
        obtain ⟨_, heq, _⟩ := hread
        cases heq
    · intro e s' _ hread
      obtain ⟨_, heq, _⟩ := hread
      cases heq
  · intro rows s' _ hread
    obtain ⟨_, heq, bindings, objects, log, hfound, hlooked, hrows⟩ := hread
    cases heq
    refine wp_pure (looked_stable log objects _) hlooked ?_
    intro s'' hinv'' hlooked
    refine ⟨rows, rfl, ?_⟩
    rw [hrows]
    exact untorn_rows hinv'' hfound hlooked
  · intro e s' _ hread
    obtain ⟨_, heq, _⟩ := hread
    cases heq

end Reader

/-- The programs of one batch read and of concurrent calls. -/
def batchRead (b : PostgresBackend) (calls : T → Call) (reader : T) (keys : List String) (t : T) :
    Prog Stmt StmtReply StoreError Reply :=
  if t = reader then onConnection (readBody b keys) else programs b calls t

/-- Tracing takes part in no step. -/
theorem traced_step {s : Traced T} {t : T} {op : Stmt} {r : StmtReply op} {db : Shared T}
    (h : readCommitted.step t s.db op r db) :
    ∃ s', traced.step t s op r s' ∧ s'.db = db :=
  ⟨⟨db, originAfter s t op, _⟩, ⟨h, rfl, rfl⟩, rfl⟩

theorem sound_start (calls : T → Call) (reader : T) (tables : Tables) :
    Sound calls reader tables (Traced.ofTables tables) := by
  refine ⟨?_, ?_, ?_, ⟨keeps_refl _, ?_⟩, ?_, ?_, ?_⟩
  · intro row u x hp
    cases hp
  · intro key u reference hp
    cases hp
  · exact fun key reference hbound => hbound
  · intro e he
    cases he
  · intro later e earlier heq
    cases later <;> cases heq
  · intro row x hp
    cases hp
  · intro key x hp
    cases hp

/-- **Batch reads are never torn.** However a batch read runs among concurrent calls, from any
tables: when it has ended it has returned rows, each of the moment its key's chunk was read;
and a committed object keeps its text. -/
theorem batch_reads_never_torn (b : PostgresBackend) (calls : T → Call) (reader : T)
    (keys : List String) (tables : Tables)
    {c : Config T (Traced T) Stmt StmtReply StoreError Reply}
    (hc : Reachable traced (Traced.ofTables tables) (batchRead b calls reader keys) c) :
    (∀ out, c.prog reader = some (.ofExcept out) → ∃ rows, out = .ok (.rows rows) ∧
      Untorn calls reader tables (chunks b.batchChunkSize keys) c.state rows) ∧
    ∀ e ∈ c.state.log, Keeps e.committed (committed c.state.db) := by
  have hstart := sound_start calls reader tables
  obtain ⟨hinv, hthreads⟩ := reachable_wp
    (R := rules calls reader tables) (Q := fun t out s => t = reader → ∃ rows,
      out = .ok (.rows rows) ∧ Untorn calls reader tables (chunks b.batchChunkSize keys) s rows)
    hstart (fun t s s' h hkill => rollback_sound h hkill) (by
      intro t
      by_cases ht : t = reader
      · subst ht
        rw [batchRead, if_pos rfl, ← rowByRow_reads (reads_readBody b keys)]
        exact wp_mono (fun out s _ h _ => h) (wp_reader b keys hstart)
      · rw [batchRead, if_neg ht]
        exact wp_mono (fun out s _ _ heq => absurd heq ht) (wp_call b ht _)) hc
  refine ⟨?_, hinv.stays.2⟩
  intro out hp
  exact wp_ended hinv out (hthreads reader _ hp) rfl

/-! ## A read across a write -/

/-- One more statement of a thread. -/
theorem Traced.exec {ε α : Type} {s : Traced T} {progs : T → Prog Stmt StmtReply ε α}
    {c : Config T (Traced T) Stmt StmtReply ε α} (hc : Reachable traced s progs c) {t : T}
    {op : Stmt} {k : StmtReply op → Prog Stmt StmtReply ε α} {r : StmtReply op} {db : Shared T}
    (hp : c.prog t = some (.exec op k)) (h : c.state.db.Effect t op r db) :
    Reachable traced s progs
      ⟨⟨db, originAfter c.state t op, ⟨t, op, committed c.state.db, c.state.origin⟩ :: c.state.log⟩,
        Function.update c.prog t (some (k r))⟩ :=
  hc.exec hp ⟨h, rfl, rfl⟩

def sampleBackend : PostgresBackend := ⟨1, by decide⟩

/-- The object that the key is bound to is stored while the key is read. -/
def sampleCalls (_ : Bool) : Call :=
  .putObject sampleReference.schema sampleReference.contentHash "null"

def sampleTables : Tables :=
  ⟨fun _ => none, fun key =>
    if key = "k" then some (sampleReference.schema, sampleReference.contentHash) else none⟩

theorem batch_reads_late_object :
    ∃ (c : Config Bool (Traced Bool) Stmt StmtReply StoreError Reply)
      (rows : Dict String BoundObjectRow),
      Reachable traced (Traced.ofTables sampleTables)
        (batchRead sampleBackend sampleCalls true ["k"]) c ∧
      c.prog true = some (.ofExcept (.ok (.rows rows))) ∧
      rows.get? "k" =
        some ⟨sampleReference.schema, sampleReference.contentHash, some "null"⟩ ∧
      Untorn sampleCalls true sampleTables (chunks sampleBackend.batchChunkSize ["k"])
        c.state rows := by
  have hwriter : batchRead sampleBackend sampleCalls true ["k"] false =
      (sampleBackend.program (sampleCalls false)).translate stmtByRow := by
    have hvalid : (sampleCalls false).validate = .ok () :=
      validateReference_ok sampleReference.schema_valid sampleReference.hash_valid
    rw [batchRead, if_neg (by decide), programs, checked, hvalid]
  have h0 : Reachable traced (Traced.ofTables sampleTables)
      (batchRead sampleBackend sampleCalls true ["k"])
      (start (Traced.ofTables sampleTables)
        (batchRead sampleBackend sampleCalls true ["k"])) := .refl
  have h1 := Traced.exec h0 (t := true)
    (r := [("k", sampleReference.schema, sampleReference.contentHash)])
    (congrArg some (if_pos rfl)) (by
      refine ⟨trivial, _, ⟨rfl, ?_⟩, rfl⟩
      intro key reference
      show (key, reference) ∈ [("k", sampleReference.schema, sampleReference.contentHash)] ↔
        key ∈ ["k"] ∧ (if key = "k" then some (sampleReference.schema, sampleReference.contentHash)
          else none) = some reference
      by_cases hkey : key = "k"
      · simp [hkey, eq_comm]
      · simp [hkey])
  have h2 := Traced.exec h1 (t := false) (r := ()) (congrArg some hwriter) rfl
  have h3 := Traced.exec h2 (t := false) (r := some "null") rfl
    ⟨(by rintro ⟨_, _, hp, _⟩; cases hp), _, ⟨rfl, rfl⟩, rfl⟩
  have h4 := Traced.exec h3 (t := false) (r := ()) rfl rfl
  have h5 := Traced.exec h4 (t := true)
    (r := [((sampleReference.schema, sampleReference.contentHash), "null")]) rfl (by
      refine ⟨trivial, _, ⟨rfl, ?_⟩, rfl⟩
      intro reference canonical
      show (reference, canonical) ∈
          [((sampleReference.schema, sampleReference.contentHash), "null")] ↔
        reference ∈ [(sampleReference.schema, sampleReference.contentHash)] ∧ _ = some canonical
      constructor
      · intro hmem
        cases List.mem_singleton.mp hmem
        exact ⟨List.mem_singleton.mpr rfl, rfl⟩
      · intro h
        cases List.mem_singleton.mp h.1
        have hnow : some "null" = some canonical := h.2
        cases hnow
        exact List.mem_singleton.mpr rfl)
  obtain ⟨rows, heq, huntorn⟩ := (batch_reads_never_torn sampleBackend sampleCalls true ["k"]
    sampleTables h5).1 (.ok (.rows _)) rfl
  cases heq
  exact ⟨_, _, h5, rfl, rfl, huntorn⟩

end DrStore.Store.BatchReads
