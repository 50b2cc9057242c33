import DrStore.Base.Pool
import DrStore.Base.Versions
import DrStore.Store.Postgres

/-! # PostgreSQL under READ COMMITTED

Any number of calls run at once, one statement at a time. A `SELECT` sees what is committed when it
runs, and the changes of its own transaction. A statement that writes several rows goes through
them one by one: an insertion of a row waits for the transaction with a pending change to it, and
then inserts the row or skips it; a deletion of a row waits for a transaction that deletes it. What
a statement has written is pending while it waits for the next row. -/
namespace DrStore.Store.ReadCommitted
open DrStore.Base.Collections DrStore.Base.Pool DrStore.Base.Programs DrStore.Base.Versions
open DrStore.Store.ContentAddressing DrStore.Store.Contract DrStore.Store.Postgres
open DrStore.Store.Statements

/-! ## Row by row -/

/-- `INSERT INTO objects … ON CONFLICT DO NOTHING`. -/
def insertObjectRows : List (RowKey × String) → Program Unit
  | [] => return ()
  | (reference, canonical) :: rest => do
    let _ ← query (.insertObject reference canonical)
    insertObjectRows rest

/-- `INSERT INTO bindings … ON CONFLICT DO NOTHING RETURNING key`. -/
def insertBindingRows : List (String × RowKey) → List String → Program (List String)
  | [], found => return found
  | (key, reference) :: rest, found => do
    let inserted ← query (.insertBinding key reference)
    insertBindingRows rest (if inserted = true then found ++ [key] else found)

/-- `DELETE FROM bindings … RETURNING key`: of the rows that are there when it starts, those that
are still there when their turn comes. -/
def deleteRows (keys : List String) : Program (List String) := do
  let rows ← query (.selectBindings keys)
  let present := keys.filter fun key => (rows.map Prod.fst).contains key
  gather (fun key => query (.deleteBindings key)) (present.map fun key => [key]) []

def byRow : (q : Query) → Program (QueryReply q)
  | .insertObjects rows => insertObjectRows rows
  | .insertBindings rows => insertBindingRows rows []
  | .deleteBindings keys => deleteRows keys
  | q => query q

def stmtByRow : (op : Stmt) → Prog Stmt StmtReply StoreError (StmtReply op)
  | .query q => onConnection (byRow q)
  | .begin => .exec .begin .pure
  | .commit => .exec .commit .pure
  | .rollback => .exec .rollback .pure

/-- The statements of a body, row by row. -/
def rowByRow {α : Type} (p : Program α) : Prog Stmt StmtReply StoreError α :=
  onConnection (p.translate byRow)

/-- The programs of concurrent calls. -/
def programs {T : Type} (b : PostgresBackend) (calls : T → Call) (t : T) :
    Prog Stmt StmtReply StoreError Reply :=
  (checked (calls t) (b.program (calls t))).translate stmtByRow

section

variable {α β : Type}

theorem onConnection_bind (p : Program α) (f : α → Program β) :
    onConnection (p >>= f) = onConnection p >>= fun a => onConnection (f a) := by
  induction p with
  | pure a => rfl
  | fail e => rfl
  | exec q k ih => exact congrArg (Prog.exec (Stmt.query q)) (funext fun r => ih r)

/-- One part of a body, then the rest. -/
theorem rowByRow_bind (p : Program α) (f : α → Program β) :
    rowByRow (p >>= f) = rowByRow p >>= fun a => rowByRow (f a) := by
  simp only [rowByRow, Prog.translate_bind, onConnection_bind]

/-- A query that is one statement, and one row at most. -/
theorem rowByRow_query {q : Query} (hq : byRow q = query q) (f : QueryReply q → Program α) :
    rowByRow (query q >>= f) = .exec (.query q) fun r => rowByRow (f r) := by
  rw [rowByRow_bind]
  show onConnection ((query q).translate byRow) >>= _ = _
  rw [show (query q).translate byRow = byRow q >>= Prog.pure from rfl, hq]
  rfl

theorem onConnection_translate (p : Program α) :
    (onConnection p).translate stmtByRow = rowByRow p := by
  induction p with
  | pure a => rfl
  | fail e => rfl
  | exec q k ih =>
    show (onConnection (byRow q) >>= fun r => (onConnection (k r)).translate stmtByRow) = _
    simp only [ih]
    exact (onConnection_bind (byRow q) fun r => (k r).translate byRow).symm

/-! ### Alone, the rows add up to the statement -/

theorem insertObjectRows_ensures (rows : List (RowKey × String)) (t : Tables) :
    Ensures (insertObjectRows rows)
      (fun out t' => out = .ok () ∧ t' = { t with objects := fill t.objects rows }) t := by
  induction rows generalizing t with
  | nil => exact ⟨rfl, rfl⟩
  | cons row rest ih =>
    refine ensures_query ?_
    rintro inserted _ ⟨_, rfl⟩
    exact ih { t with objects := putAbsent t.objects row.1 row.2 }

theorem insertBindingRows_ensures (rows : List (String × RowKey)) (found : List String)
    (t : Tables) :
    Ensures (insertBindingRows rows found) (fun out t' => ∃ inserted, out = .ok inserted ∧
      (∀ key, key ∈ inserted ↔ key ∈ found ∨ key ∈ rows.map Prod.fst ∧ t.bindings key = none) ∧
      t' = { t with bindings := fill t.bindings rows }) t := by
  induction rows generalizing found t with
  | nil => exact ⟨found, rfl, by simp, rfl⟩
  | cons row rest ih =>
    obtain ⟨key, reference⟩ := row
    refine ensures_query ?_
    rintro inserted _ ⟨rfl, rfl⟩
    refine Prog.ensures_mono (ih _ _) ?_
    rintro _ _ ⟨keys, rfl, hkeys, rfl⟩
    refine ⟨keys, rfl, ?_, rfl⟩
    intro k
    rw [hkeys]
    by_cases hk : k = key
    · subst hk
      cases hb : t.bindings k <;> simp [putAbsent_self, hb]
    · have hother : putAbsent t.bindings key reference k = t.bindings k := by
        simp [putAbsent, Ne.symm hk]
      cases hb : t.bindings key <;> simp [hother, hk]

theorem flatten_singletons (keys : List String) : (keys.map fun key => [key]).flatten = keys :=
  List.flatMap_singleton' keys

theorem deleteRows_ensures (keys : List String) (t : Tables) :
    Ensures (deleteRows keys) (fun out t' => ∃ deleted, out = .ok deleted ∧
      (∀ key, key ∈ deleted ↔ key ∈ keys ∧ (t.bindings key).isSome = true) ∧
      t' = { t with bindings := fun k => if k ∈ keys then none else t.bindings k }) t := by
  refine ensures_query ?_
  intro rows t' hdoes
  obtain ⟨ht, hrows⟩ := hdoes
  rw [ht]
  have hpresent : ∀ key, key ∈ keys.filter (fun key => (rows.map Prod.fst).contains key) ↔
      key ∈ keys ∧ (t.bindings key).isSome = true := by
    intro key
    simp only [List.mem_filter, List.contains_eq_mem, decide_eq_true_eq, List.mem_map,
      Option.isSome_iff_exists]
    constructor
    · rintro ⟨_, p, hp, rfl⟩
      exact ⟨((hrows p.1 p.2).mp hp).1, p.2, ((hrows p.1 p.2).mp hp).2⟩
    · rintro ⟨hkey, reference, hb⟩
      exact ⟨hkey, (key, reference), (hrows key reference).mpr ⟨hkey, hb⟩, rfl⟩
  refine Prog.ensures_mono (delete_ensures _ [] t) ?_
  rintro _ _ ⟨deleted, rfl, hdeleted, rfl⟩
  rw [flatten_singletons] at hdeleted ⊢
  refine ⟨deleted, rfl, ?_, ?_⟩
  · intro key
    rw [hdeleted, hpresent]
    simp
  · simp only [Tables.after, Tables.mk.injEq, true_and, hpresent]
    funext key
    by_cases hkey : key ∈ keys <;> cases hb : t.bindings key <;> simp [hkey]

/-- Without other transactions, a statement does row by row what it says. -/
theorem byRow_ensures (q : Query) (t : Tables) :
    Ensures (byRow q) (fun out t' => ∃ r, out = .ok r ∧ q.Does t r t') t := by
  cases q with
  | insertObjects rows =>
    refine Prog.ensures_mono (insertObjectRows_ensures rows t) ?_
    rintro _ _ ⟨rfl, rfl⟩
    exact ⟨(), rfl, rfl⟩
  | insertBindings rows =>
    refine Prog.ensures_mono (insertBindingRows_ensures rows [] t) ?_
    rintro _ _ ⟨inserted, rfl, hinserted, rfl⟩
    exact ⟨inserted, rfl, fun key => by simp [hinserted], rfl⟩
  | deleteBindings keys =>
    refine Prog.ensures_mono (deleteRows_ensures keys t) ?_
    rintro _ _ ⟨deleted, rfl, hdeleted, rfl⟩
    exact ⟨deleted, rfl, hdeleted, rfl⟩
  | _ => exact fun r t' hdoes => ⟨r, rfl, hdoes⟩

/-! ### No statement raises -/

theorem returns_insertObjectRows (rows : List (RowKey × String)) :
    (insertObjectRows rows).Returns := by
  induction rows with
  | nil => trivial
  | cons row rest ih => exact fun _ => ih

theorem returns_insertBindingRows (rows : List (String × RowKey)) (found : List String) :
    (insertBindingRows rows found).Returns := by
  induction rows generalizing found with
  | nil => trivial
  | cons row rest ih => exact fun _ => ih _

theorem returns_pure (a : α) : (pure a : Program α).Returns := trivial

theorem returns_query (q : Query) : (query q).Returns := fun _ => trivial

theorem returns_gather {send : List α → Program (List β)} (h : ∀ chunk, (send chunk).Returns)
    (chunks : List (List α)) (found : List β) : (gather send chunks found).Returns := by
  induction chunks generalizing found with
  | nil => trivial
  | cons chunk rest ih => exact (h chunk).bind fun keys => ih _

theorem returns_fetchAll {κ ν : Type} [DecidableEq κ] {fetch : List α → Program (List (κ × ν))}
    (h : ∀ chunk, (fetch chunk).Returns) (chunks : List (List α)) (d : Dict κ ν) :
    (fetchAll fetch chunks d).Returns := by
  induction chunks generalizing d with
  | nil => trivial
  | cons chunk rest ih => exact (h chunk).bind fun rows => ih _

theorem returns_byRow (q : Query) : (byRow q).Returns := by
  cases q with
  | insertObjects rows => exact returns_insertObjectRows rows
  | insertBindings rows => exact returns_insertBindingRows rows []
  | deleteBindings keys => exact fun _ => returns_gather (fun _ => returns_query _) _ _
  | _ => exact fun _ => trivial

theorem returns_onConnection {p : Program α} (h : p.Returns) : (onConnection p).Returns := by
  induction p with
  | pure a => trivial
  | fail e => cases h
  | exec q k ih => exact fun r => ih r (h r)

theorem returns_stmtByRow (op : Stmt) : (stmtByRow op).Returns := by
  cases op with
  | query q => exact returns_onConnection (returns_byRow q)
  | begin | commit | rollback => exact fun _ => trivial

theorem returns_translate {p : Program α} (h : p.Returns) : (p.translate byRow).Returns := by
  induction p with
  | pure a => trivial
  | fail e => cases h
  | exec q k ih => exact (returns_byRow q).bind fun r => ih r (h r)

/-- A transaction goes row by row where its body does. -/
theorem transaction_translate (body : Program α) :
    (transaction body).translate stmtByRow = transaction (body.translate byRow) := by
  refine congrArg (Prog.exec Stmt.begin) (funext fun _ => ?_)
  refine (Prog.translate_settle returns_stmtByRow _ _).trans ?_
  rw [onConnection_translate]
  refine congrArg (Prog.settle _) (funext fun out => ?_)
  cases out <;> rfl

end

variable {T : Type} [DecidableEq T]

/-! ## Transactions under READ COMMITTED -/

structure Shared (T : Type) where
  objects : RowKey → Version T String
  bindings : String → Version T RowKey
  awaited : T → List String

namespace Shared

def ofTables (t : Tables) : Shared T :=
  ⟨fun r => .settled (t.objects r), fun k => .settled (t.bindings k), fun _ => []⟩

def seen (s : Shared T) (t : T) : Tables :=
  ⟨fun r => (s.objects r).view t, fun k => (s.bindings k).view t⟩

def commit (s : Shared T) (t : T) : Shared T :=
  ⟨fun r => (s.objects r).commit t, fun k => (s.bindings k).commit t,
    Function.update s.awaited t []⟩

def rollback (s : Shared T) (t : T) : Shared T :=
  ⟨fun r => (s.objects r).rollback t, fun k => (s.bindings k).rollback t,
    Function.update s.awaited t []⟩

/-- The keys offered and not yet read back, after one more query. -/
def track (awaited : List String) : Query → List String
  | .insertBinding key _ => key :: awaited
  | .selectBinding key => awaited.filter fun k => decide (k ≠ key)
  | .selectBindings keys => awaited.filter fun k => decide (k ∉ keys)
  | _ => awaited

/-- The state after a query that turned what `t` sees into `v`. -/
def change (s : Shared T) (t : T) (q : Query) (v : Tables) : Shared T :=
  ⟨fun r => (s.objects r).write t (v.objects r), fun k => (s.bindings k).write t (v.bindings k),
    Function.update s.awaited t (track (s.awaited t) q)⟩

/-- No other transaction has to end before the query can run. Insertions of several rows have no
step of their own: they are carried out by `byRow`. -/
def Clear (s : Shared T) (t : T) : Query → Prop
  | .insertObject reference _ => ¬ (s.objects reference).Busy t
  | .insertBinding key _ => ¬ (s.bindings key).Busy t
  | .insertObjects _ | .insertBindings _ => False
  | .deleteBindings keys =>
    ∀ key ∈ keys, ((s.bindings key).view t).isSome = true → ¬ (s.bindings key).Busy t
  | _ => True

def Effect (s : Shared T) (t : T) : (op : Stmt) → StmtReply op → Shared T → Prop
  | .begin, _, s' => s' = { s with awaited := Function.update s.awaited t [] }
  | .commit, _, s' => s' = s.commit t
  | .rollback, _, s' => s' = s.rollback t
  | .query q, r, s' => s.Clear t q ∧ ∃ v, q.Does (s.seen t) r v ∧ s' = s.change t q v

@[simp] theorem seen_change (s : Shared T) (t : T) (q : Query) (v : Tables) :
    (s.change t q v).seen t = v := by
  simp [seen, change]

@[simp] theorem awaited_change (s : Shared T) (t : T) (q : Query) (v : Tables) :
    (s.change t q v).awaited t = track (s.awaited t) q := by
  simp [change]

end Shared

/-- Calls on one database; a call that dies rolls back. -/
def readCommitted : System T (Shared T) Stmt StmtReply where
  step t s op r s' := s.Effect t op r s'
  kill t s s' := s' = s.rollback t

/-! ## What a query changes -/

theorem does_objects {q : Query} {t v : Tables} {r : QueryReply q} (h : q.Does t r v)
    {row : RowKey} (hne : v.objects row ≠ t.objects row) :
    (v.objects row).isSome = true ∧ row ∈ (match q with
      | .insertObject reference _ => [reference]
      | .insertObjects rows => rows.map Prod.fst
      | _ => []) := by
  cases q with
  | insertObject reference canonical =>
    obtain ⟨_, rfl⟩ := h
    have hfill := @fill_changed _ _ _ t.objects [(reference, canonical)] row hne
    exact ⟨hfill.2, hfill.1⟩
  | insertObjects rows =>
    cases h
    exact (fill_changed hne).symm
  | selectObject _ => obtain ⟨_, rfl⟩ := h; exact absurd rfl hne
  | selectByHash _ _ => obtain ⟨rfl, _⟩ := h; exact absurd rfl hne
  | selectObjects _ => obtain ⟨rfl, _⟩ := h; exact absurd rfl hne
  | insertBinding _ _ => obtain ⟨_, rfl⟩ := h; exact absurd rfl hne
  | insertBindings _ => obtain ⟨_, rfl⟩ := h; exact absurd rfl hne
  | selectBinding _ => obtain ⟨_, rfl⟩ := h; exact absurd rfl hne
  | selectBindings _ => obtain ⟨rfl, _⟩ := h; exact absurd rfl hne
  | selectBound _ => obtain ⟨rfl, _⟩ := h; exact absurd rfl hne
  | deleteBindings _ => obtain ⟨_, rfl⟩ := h; exact absurd rfl hne

theorem does_bindings {q : Query} {t v : Tables} {r : QueryReply q} (h : q.Does t r v)
    {key : String} (hne : v.bindings key ≠ t.bindings key) : match q with
      | .insertBinding key' _ => key = key'
      | .insertBindings rows => key ∈ rows.map Prod.fst
      | .deleteBindings keys => key ∈ keys ∧ (t.bindings key).isSome = true
      | _ => False := by
  cases q with
  | insertBinding key' reference =>
    obtain ⟨_, rfl⟩ := h
    have hfill := @fill_changed _ _ _ t.bindings [(key', reference)] key hne
    exact List.mem_singleton.mp hfill.1
  | insertBindings rows =>
    obtain ⟨_, rfl⟩ := h
    exact (fill_changed hne).1
  | deleteBindings keys =>
    obtain ⟨_, rfl⟩ := h
    by_cases hk : key ∈ keys
    · refine ⟨hk, ?_⟩
      cases hb : t.bindings key with
      | none => simp [hk, hb] at hne
      | some _ => rfl
    · simp [hk] at hne
  | insertObject _ _ => obtain ⟨_, rfl⟩ := h; exact absurd rfl hne
  | insertObjects _ => cases h; exact absurd rfl hne
  | selectObject _ => obtain ⟨_, rfl⟩ := h; exact absurd rfl hne
  | selectByHash _ _ => obtain ⟨rfl, _⟩ := h; exact absurd rfl hne
  | selectObjects _ => obtain ⟨rfl, _⟩ := h; exact absurd rfl hne
  | selectBinding _ => obtain ⟨_, rfl⟩ := h; exact absurd rfl hne
  | selectBindings _ => obtain ⟨rfl, _⟩ := h; exact absurd rfl hne
  | selectBound _ => obtain ⟨rfl, _⟩ := h; exact absurd rfl hne

/-- A query that may run changes no row that another transaction has changed. -/
theorem clear_objects {s : Shared T} {t : T} {q : Query} {r : QueryReply q} {v : Tables}
    (hc : s.Clear t q) (h : q.Does (s.seen t) r v) {row : RowKey}
    (hne : (s.objects row).view t ≠ v.objects row) : ¬ (s.objects row).Busy t := by
  have hmem := (does_objects h (Ne.symm hne)).2
  cases q with
  | insertObject reference canonical =>
    cases List.mem_singleton.mp hmem
    exact hc
  | insertObjects rows => exact hc.elim
  | _ => cases hmem

theorem clear_bindings {s : Shared T} {t : T} {q : Query} {r : QueryReply q} {v : Tables}
    (hc : s.Clear t q) (h : q.Does (s.seen t) r v) {key : String}
    (hne : (s.bindings key).view t ≠ v.bindings key) : ¬ (s.bindings key).Busy t := by
  have hmem := does_bindings h (Ne.symm hne)
  cases q with
  | insertBinding key' reference =>
    cases hmem
    exact hc
  | insertBindings rows => exact hc.elim
  | deleteBindings keys => exact hc key hmem.1 hmem.2
  | _ => cases hmem


/-- A query can always be answered. -/
theorem does_total (t : Tables) : ∀ q : Query, ∃ r v, q.Does t r v
  | .insertObject _ _ => ⟨_, _, rfl, rfl⟩
  | .insertObjects _ => ⟨(), _, rfl⟩
  | .selectObject _ => ⟨_, _, rfl, rfl⟩
  | .selectByHash schema contentHash => by
    cases hexact : t.objects (schema, contentHash) with
    | some canonical => exact ⟨some (schema, canonical), t, rfl, by rw [hexact]⟩
    | none =>
      by_cases hother : ∃ other canonical, t.objects (other, contentHash) = some canonical
      · obtain ⟨other, canonical, h⟩ := hother
        refine ⟨some (other, canonical), t, rfl, ?_⟩
        rw [hexact]
        exact .inl ⟨other, canonical, h, rfl⟩
      · have hnone : ∀ other, t.objects (other, contentHash) = none := by
          intro other
          by_contra hne
          exact hother ⟨other, Option.ne_none_iff_exists'.mp hne⟩
        exact ⟨none, t, rfl, by rw [hexact]; exact .inr ⟨hnone, rfl⟩⟩
  | .selectObjects references => by
    refine ⟨references.filterMap fun r => (t.objects r).map (r, ·), t, rfl, ?_⟩
    intro reference canonical
    simp [List.mem_filterMap]
  | .insertBinding _ _ => ⟨_, _, rfl, rfl⟩
  | .insertBindings rows => by
    refine ⟨(rows.map Prod.fst).filter fun k => (t.bindings k).isNone, _, ?_, rfl⟩
    intro key
    simp
  | .selectBinding _ => ⟨_, _, rfl, rfl⟩
  | .selectBindings keys => by
    refine ⟨keys.filterMap fun k => (t.bindings k).map (k, ·), t, rfl, ?_⟩
    intro key reference
    simp [List.mem_filterMap]
  | .selectBound keys => by
    refine ⟨keys.filterMap fun k => (t.bindings k).map fun r => (k, r, t.objects r), t, rfl, ?_⟩
    intro key reference canonical
    simp only [List.mem_filterMap, Option.map_eq_some_iff, Prod.mk.injEq]
    constructor
    · rintro ⟨k, hk, r, hr, rfl, rfl, rfl⟩
      exact ⟨hk, hr, rfl⟩
    · rintro ⟨hk, hr, rfl⟩
      exact ⟨key, hk, reference, hr, rfl, rfl, rfl⟩
  | .deleteBindings keys => by
    refine ⟨keys.filter fun k => (t.bindings k).isSome, _, ?_, rfl⟩
    intro key
    simp


/-! ## Calls that wait for each other -/

section Waiting

variable {α : Type}

/-- The row that the query has to have to itself is one that `u` has changed. -/
def Shared.Blocks (s : Shared T) (t u : T) : Query → Prop
  | .insertObject reference _ => ∃ x, (s.objects reference).pending = some (u, x)
  | .insertBinding key _ => ∃ x, (s.bindings key).pending = some (u, x)
  | .deleteBindings keys => ∃ key ∈ keys, ((s.bindings key).view t).isSome = true ∧
      ∃ x, (s.bindings key).pending = some (u, x)
  | _ => False

abbrev Calls (T : Type) := Config T (Shared T) Stmt StmtReply StoreError Reply

def WaitsFor (c : Calls T) (t u : T) : Prop :=
  u ≠ t ∧ ∃ q k, c.prog t = some (.exec (.query q) k) ∧ c.state.Blocks t u q

/-- Calls that wait for each other in a circle, of which PostgreSQL aborts one. -/
def Deadlocked (c : Calls T) : Prop := ∃ t, Relation.TransGen (WaitsFor c) t t

/-- A statement of one row at most, or of rows that it reads. -/
def Single : Query → Prop
  | .insertObjects _ | .insertBindings _ => False
  | _ => True

def Reads : Query → Prop
  | .insertObject _ _ | .insertObjects _ | .insertBinding _ _ | .insertBindings _
  | .deleteBindings _ => False
  | _ => True

theorem reads_byRow {q : Query} (hq : Reads q) : Single q ∧ byRow q = query q := by
  cases q with
  | insertObject _ _ | insertObjects _ | insertBinding _ _ | insertBindings _
  | deleteBindings _ => exact hq.elim
  | _ => exact ⟨trivial, rfl⟩

theorem reads_does {q : Query} (hq : Reads q) {t v : Tables} {r : QueryReply q}
    (h : q.Does t r v) : v = t := by
  cases q with
  | insertObject _ _ | insertObjects _ | insertBinding _ _ | insertBindings _
  | deleteBindings _ => exact hq.elim
  | selectObject _ | selectBinding _ => exact h.2
  | selectByHash _ _ | selectObjects _ | selectBindings _ | selectBound _ => exact h.1

theorem clear_or_blocked (s : Shared T) (t : T) {q : Query} (hq : Single q) :
    s.Clear t q ∨ ∃ u, u ≠ t ∧ s.Blocks t u q := by
  by_contra h
  rw [not_or] at h
  obtain ⟨hclear, hfree⟩ := h
  refine hclear ?_
  cases q with
  | insertObjects _ | insertBindings _ => exact hq.elim
  | insertObject reference canonical | insertBinding key reference =>
    rintro ⟨u, x, hp, hu⟩
    exact hfree ⟨u, hu, x, hp⟩
  | deleteBindings keys =>
    rintro key hkey hsees ⟨u, x, hp, hu⟩
    exact hfree ⟨u, hu, key, hkey, hsees, x, hp⟩
  | _ => trivial

/-! ### Changes are made in open transactions -/

/-- What is left of a call that has a transaction open, or none: it changes rows in a transaction
only, and ends it before it ends itself. -/
def Tidy : Bool → Prog Stmt StmtReply StoreError α → Prop
  | isOpen, .pure _ => isOpen = false
  | isOpen, .fail _ => isOpen = false
  | isOpen, .exec .begin k => isOpen = false ∧ ∀ r, Tidy true (k r)
  | isOpen, .exec .commit k => isOpen = true ∧ ∀ r, Tidy false (k r)
  | isOpen, .exec .rollback k => isOpen = true ∧ ∀ r, Tidy false (k r)
  | isOpen, .exec (.query q) k => Single q ∧ (isOpen = true ∨ Reads q) ∧ ∀ r, Tidy isOpen (k r)

theorem sends_translate {p : Program α} : Sends Single (p.translate byRow) := by
  have hbyRow : ∀ q : Query, Sends Single (byRow q) := by
    intro q
    cases q with
    | insertObjects rows =>
      show Sends Single (insertObjectRows rows)
      induction rows with
      | nil => trivial
      | cons row rest ih => exact ⟨trivial, fun _ _ => ih⟩
    | insertBindings rows =>
      have h : ∀ found, Sends Single (insertBindingRows rows found) := by
        induction rows with
        | nil => exact fun _ => trivial
        | cons row rest ih => exact fun found => ⟨trivial, fun _ _ => ih _⟩
      exact h []
    | deleteBindings keys =>
      exact ⟨trivial, fun _ _ => sends_gather (fun chunk _ => sends_query trivial) _⟩
    | _ => exact sends_query trivial
  induction p with
  | pure a => trivial
  | fail e => trivial
  | exec q k ih => exact sends_bind (hbyRow q) ih

theorem tidy_transaction (body : Program α) : Tidy false (transaction (body.translate byRow)) := by
  have hbody : ∀ (p : Program α) (f : Except StoreError α → Prog Stmt StmtReply StoreError α),
      Sends Single p → (∀ out, Tidy true (f out)) → Tidy true ((onConnection p).settle f) := by
    intro p f hp hf
    induction p with
    | pure a => exact hf _
    | fail e => exact hf _
    | exec q k ih => exact ⟨hp.1, .inl rfl, fun r => ih r (hp.2 r trivial)⟩
  refine ⟨rfl, fun _ => hbody _ _ sends_translate ?_⟩
  intro out
  cases out with
  | ok a => exact ⟨rfl, fun _ => rfl⟩
  | error e => exact ⟨rfl, fun _ => rfl⟩

/-- A body that only reads is the same row by row. -/
theorem rowByRow_reads {p : Program α} (hp : Sends Reads p) : rowByRow p = onConnection p := by
  induction p with
  | pure a => rfl
  | fail e => rfl
  | exec q k ih =>
    have hquery : rowByRow (.exec q k) = .exec (.query q) fun r => rowByRow (k r) :=
      rowByRow_query (reads_byRow hp.1).2 k
    rw [hquery]
    exact congrArg (Prog.exec (Stmt.query q)) (funext fun r => ih r (hp.2 r trivial))

theorem tidy_reads {p : Program α} (hp : Sends Reads p) : Tidy false (rowByRow p) := by
  rw [rowByRow_reads hp]
  induction p with
  | pure a => rfl
  | fail e => rfl
  | exec q k ih =>
    exact ⟨(reads_byRow hp.1).1, .inr hp.1, fun r => ih r (hp.2 r trivial)⟩

omit [DecidableEq T] in
theorem tidy_programs (b : PostgresBackend) (calls : T → Call) (t : T) :
    Tidy false (programs b calls t) := by
  unfold programs checked
  split
  · rfl
  cases calls t with
  | putObject _ _ _ | bind _ _ _ =>
    rw [PostgresBackend.program, transaction_translate]
    exact tidy_transaction _
  | getObject _ _ | getBinding _ =>
    rw [PostgresBackend.program, onConnection_translate]
    exact tidy_reads (sends_bind (sends_query trivial) fun _ => trivial)
  | getBoundObjects keys =>
    rw [PostgresBackend.program]
    split
    · rfl
    · rw [onConnection_translate]
      refine tidy_reads (sends_bind ?_ fun _ => trivial)
      refine sends_bind (sends_fetchAll (fun _ _ => sends_query trivial) _) fun bindings => ?_
      exact sends_bind (sends_fetchAll (fun _ _ => sends_query trivial) _) fun objects => trivial
  | putBoundObjects entries =>
    rw [PostgresBackend.program]
    split
    · rfl
    · rw [transaction_translate]
      exact tidy_transaction _
  | deleteBindings keys =>
    rw [PostgresBackend.program]
    split
    · rfl
    · rw [transaction_translate]
      exact tidy_transaction _

/-- `u` has changed a row. -/
def Shared.Holding (s : Shared T) (u : T) : Prop :=
  (∃ row x, (s.objects row).pending = some (u, x)) ∨
    ∃ key x, (s.bindings key).pending = some (u, x)

theorem blocks_holding {s : Shared T} {t u : T} {q : Query} (h : s.Blocks t u q) :
    s.Holding u := by
  cases q with
  | insertObject reference _ => exact .inl ⟨reference, h⟩
  | insertBinding key _ => exact .inr ⟨key, h⟩
  | deleteBindings keys =>
    obtain ⟨key, _, _, h⟩ := h
    exact .inr ⟨key, h⟩
  | _ => exact h.elim

theorem holding_commit {s : Shared T} {t u : T} (h : (s.commit t).Holding u) :
    u ≠ t ∧ s.Holding u := by
  obtain ⟨row, x, hp⟩ | ⟨key, x, hp⟩ := h
  · obtain ⟨hu, hp⟩ := Version.pending_commit hp
    exact ⟨hu, .inl ⟨row, x, hp⟩⟩
  · obtain ⟨hu, hp⟩ := Version.pending_commit hp
    exact ⟨hu, .inr ⟨key, x, hp⟩⟩

theorem holding_rollback {s : Shared T} {t u : T} (h : (s.rollback t).Holding u) :
    u ≠ t ∧ s.Holding u := by
  obtain ⟨row, x, hp⟩ | ⟨key, x, hp⟩ := h
  · obtain ⟨hu, hp⟩ := Version.pending_rollback hp
    exact ⟨hu, .inl ⟨row, x, hp⟩⟩
  · obtain ⟨hu, hp⟩ := Version.pending_rollback hp
    exact ⟨hu, .inr ⟨key, x, hp⟩⟩

/-- A query changes rows for its own call only, and none where it reads. -/
theorem holding_query {s s' : Shared T} {t u : T} {q : Query} {r : QueryReply q}
    (h : s.Effect t (.query q) r s') (hu : u ≠ t ∨ Reads q) (hs' : s'.Holding u) :
    s.Holding u := by
  obtain ⟨_, v, hdoes, rfl⟩ := h
  have hsame : u = t → v = s.seen t := fun heq =>
    reads_does (hu.resolve_left fun hne => hne heq) hdoes
  obtain ⟨row, x, hp⟩ | ⟨key, x, hp⟩ := hs'
  · obtain ⟨_, hp⟩ | ⟨hne, heq, _⟩ := Version.pending_write hp
    · exact .inl ⟨row, x, hp⟩
    · exact absurd (by rw [hsame heq]; rfl) hne
  · obtain ⟨_, hp⟩ | ⟨hne, heq, _⟩ := Version.pending_write hp
    · exact .inr ⟨key, x, hp⟩
    · exact absurd (by rw [hsame heq]; rfl) hne

/-- A call with a transaction open, or one that has changed nothing. -/
def Accounted (c : Calls T) (u : T) : Prop :=
  (∃ p, c.prog u = some p ∧ Tidy true p) ∨
    ¬ c.state.Holding u ∧ ∀ p, c.prog u = some p → Tidy false p

theorem accounted_other {c : Calls T} {s' : Shared T} {t u : T}
    {p' : Option (Prog Stmt StmtReply StoreError Reply)} (hu : u ≠ t)
    (hs' : s'.Holding u → c.state.Holding u) (h : Accounted c u) :
    Accounted ⟨s', Function.update c.prog t p'⟩ u := by
  unfold Accounted
  simp only [Function.update_of_ne hu]
  exact h.imp_right fun h => ⟨fun hheld => h.1 (hs' hheld), h.2⟩

theorem accounted_step {c c' : Calls T} (h : ∀ u, Accounted c u) (hstep : Step readCommitted c c')
    (u : T) : Accounted c' u := by
  cases hstep with
  | exec t op k r s' hp heffect =>
    have heffect : c.state.Effect t op r s' := heffect
    by_cases hu : u = t
    · subst hu
      have hheld := h u
      unfold Accounted at hheld ⊢
      simp only [hp, Option.some.injEq, exists_eq_left', forall_eq'] at hheld
      simp only [Function.update_self, Option.some.injEq, exists_eq_left', forall_eq']
      cases op with
      | begin =>
        obtain ⟨hopen, _⟩ | ⟨_, _, hk⟩ := hheld
        · cases hopen
        · exact .inl (hk r)
      | commit =>
        cases heffect
        obtain ⟨_, hk⟩ | ⟨_, hopen, _⟩ := hheld
        · exact .inr ⟨fun hs => (holding_commit hs).1 rfl, hk r⟩
        · cases hopen
      | rollback =>
        cases heffect
        obtain ⟨_, hk⟩ | ⟨_, hopen, _⟩ := hheld
        · exact .inr ⟨fun hs => (holding_rollback hs).1 rfl, hk r⟩
        · cases hopen
      | query q =>
        obtain ⟨_, _, hk⟩ | ⟨hnone, _, hreads, hk⟩ := hheld
        · exact .inl (hk r)
        · obtain hopen | hreads := hreads
          · cases hopen
          · exact .inr ⟨fun hs => hnone (holding_query heffect (.inr hreads) hs), hk r⟩
    · refine accounted_other hu ?_ (h u)
      intro hs'
      cases op with
      | begin => cases heffect; exact hs'
      | commit => cases heffect; exact (holding_commit hs').2
      | rollback => cases heffect; exact (holding_rollback hs').2
      | query q => exact holding_query heffect (.inl hu) hs'
  | kill t p s' _ hkill =>
    obtain rfl : s' = c.state.rollback t := hkill
    by_cases hu : u = t
    · subst hu
      refine .inr ⟨fun hs => (holding_rollback hs).1 rfl, ?_⟩
      intro p hp
      simp at hp
    · exact accounted_other hu (fun hs => (holding_rollback hs).2) (h u)

theorem accounted_reachable {b : PostgresBackend} {calls : T → Call} {tables : Tables}
    {c : Calls T} (hc : Reachable readCommitted (Shared.ofTables tables) (programs b calls) c) :
    ∀ u, Accounted c u := by
  induction hc with
  | refl =>
    intro u
    refine .inr ⟨?_, ?_⟩
    · rintro (⟨_, _, hp⟩ | ⟨_, _, hp⟩) <;> cases hp
    · intro p hp
      cases hp
      exact tidy_programs b calls u
  | tail _ hstep ih => exact accounted_step ih hstep

/-! ### Some call goes on -/

/-- A call that has not ended goes on, or waits for one that has not ended. -/
theorem goes_or_waits {c : Calls T} (h : ∀ u, Accounted c u) {t : T} {op : Stmt}
    {k : StmtReply op → Prog Stmt StmtReply StoreError Reply}
    (hp : c.prog t = some (.exec op k)) :
    (∃ r s', readCommitted.step t c.state op r s') ∨ ∃ u, WaitsFor c t u := by
  cases op with
  | begin => exact .inl ⟨(), _, rfl⟩
  | commit => exact .inl ⟨(), _, rfl⟩
  | rollback => exact .inl ⟨(), _, rfl⟩
  | query q =>
    have hsingle : Single q := by
      obtain ⟨p, hp', htidy⟩ | ⟨_, htidy⟩ := h t
      · rw [hp] at hp'
        cases hp'
        exact htidy.1
      · exact (htidy _ hp).1
    obtain hclear | ⟨u, hu, hblocks⟩ := clear_or_blocked c.state t hsingle
    · obtain ⟨r, v, hdoes⟩ := does_total (c.state.seen t) q
      exact .inl ⟨r, _, hclear, v, hdoes, rfl⟩
    · exact .inr ⟨u, hu, q, k, hp, hblocks⟩

theorem awaited_goes {c : Calls T} (h : ∀ u, Accounted c u) {t u : T} (hwaits : WaitsFor c t u) :
    ∃ op k, c.prog u = some (.exec op k) := by
  obtain ⟨_, q, k, _, hblocks⟩ := hwaits
  obtain ⟨p, hp, htidy⟩ | ⟨hnone, _⟩ := h u
  · cases p with
    | pure a => cases htidy
    | fail e => cases htidy
    | exec op k => exact ⟨op, k, hp⟩
  · exact absurd (blocks_holding hblocks) hnone

/-- **Without a deadlock the calls go on**: one that has not ended can make its next step, or waits
in the end for one that can. -/
theorem calls_go_on [Finite T] {b : PostgresBackend} {calls : T → Call} {tables : Tables}
    {c : Calls T} (hc : Reachable readCommitted (Shared.ofTables tables) (programs b calls) c)
    (hdeadlock : ¬ Deadlocked c) {t : T} {op : Stmt}
    {k : StmtReply op → Prog Stmt StmtReply StoreError Reply}
    (hp : c.prog t = some (.exec op k)) :
    ∃ u op k r s', Relation.ReflTransGen (WaitsFor c) t u ∧ c.prog u = some (.exec op k) ∧
      readCommitted.step u c.state op r s' := by
  have hall := accounted_reachable hc
  obtain ⟨u, hpath, hfree⟩ := exists_unblocked (fun t ht => hdeadlock ⟨t, ht⟩) t
  obtain ⟨op, k, hp⟩ : ∃ op k, c.prog u = some (.exec op k) := by
    obtain rfl | ⟨_, _, hwaits⟩ := hpath.cases_tail
    · exact ⟨op, k, hp⟩
    · exact awaited_goes hall hwaits
  obtain ⟨r, s', hstep⟩ | ⟨v, hwaits⟩ := goes_or_waits hall hp
  · exact ⟨u, op, k, r, s', hpath, hp, hstep⟩
  · exact absurd hwaits (hfree v)

end Waiting

end DrStore.Store.ReadCommitted
