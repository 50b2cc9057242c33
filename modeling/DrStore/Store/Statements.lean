import DrStore.Base.Programs
import DrStore.Store.Contract

/-! # SQL on the two tables

The queries that both SQL backends send, and what a query does to the tables it sees:
`INSERT OR IGNORE` and `ON CONFLICT DO NOTHING` insert the rows whose key is absent, a `SELECT`
returns its rows in any order. A backend call is a program over queries, run alone or in a
transaction. An `Engine` is any database session with these laws. -/
namespace DrStore.Store.Statements
open DrStore.Base.Collections DrStore.Base.Programs DrStore.Store.ContentAddressing
open DrStore.Store.Contract

/-! ## Queries -/

inductive Query where
  | insertObject (reference : RowKey) (canonical : String)
  | insertObjects (rows : List (RowKey × String))
  | selectObject (reference : RowKey)
  | selectByHash (schema contentHash : String)
  | selectObjects (references : List RowKey)
  | insertBinding (key : String) (reference : RowKey)
  | insertBindings (rows : List (String × RowKey))
  | selectBinding (key : String)
  | selectBindings (keys : List String)
  | selectBound (keys : List String)
  | deleteBindings (keys : List String)

/-- The columns the callers use. An insert of one row replies with what it inserted (by
`RETURNING`, or by `rowcount`), one of many bindings with the keys it inserted. -/
abbrev QueryReply : Query → Type
  | .insertObject _ _ => Option String
  | .insertObjects _ => Unit
  | .selectObject _ => Option String
  | .selectByHash _ _ => Option (String × String)
  | .selectObjects _ => List (RowKey × String)
  | .insertBinding _ _ => Bool
  | .insertBindings _ => List String
  | .selectBinding _ => Option RowKey
  | .selectBindings _ => List (String × RowKey)
  | .selectBound _ => List (String × RowKey × Option String)
  | .deleteBindings _ => List String

def Query.Does (t : Tables) : (q : Query) → QueryReply q → Tables → Prop
  | .insertObject reference canonical, r, t' =>
    r = (if (t.objects reference).isNone then some canonical else none) ∧
      t' = { t with objects := putAbsent t.objects reference canonical }
  | .insertObjects rows, _, t' => t' = { t with objects := fill t.objects rows }
  | .selectObject reference, r, t' => r = t.objects reference ∧ t' = t
  | .selectByHash schema contentHash, r, t' => t' = t ∧
    -- ORDER BY schema = ? DESC LIMIT 1: the exact row is first, the others in any order
    match t.objects (schema, contentHash) with
    | some canonical => r = some (schema, canonical)
    | none => (∃ other canonical, t.objects (other, contentHash) = some canonical ∧
          r = some (other, canonical)) ∨
        ((∀ other, t.objects (other, contentHash) = none) ∧ r = none)
  | .selectObjects references, rows, t' => t' = t ∧
    ∀ reference canonical, (reference, canonical) ∈ rows ↔
      reference ∈ references ∧ t.objects reference = some canonical
  | .insertBinding key reference, r, t' => r = (t.bindings key).isNone ∧
      t' = { t with bindings := putAbsent t.bindings key reference }
  | .insertBindings rows, inserted, t' =>
    (∀ key, key ∈ inserted ↔ key ∈ rows.map Prod.fst ∧ t.bindings key = none) ∧
      t' = { t with bindings := fill t.bindings rows }
  | .selectBinding key, r, t' => r = t.bindings key ∧ t' = t
  | .selectBindings keys, rows, t' => t' = t ∧
    ∀ key reference, (key, reference) ∈ rows ↔ key ∈ keys ∧ t.bindings key = some reference
  | .selectBound keys, rows, t' => t' = t ∧
    ∀ key reference canonical, (key, reference, canonical) ∈ rows ↔
      key ∈ keys ∧ t.bindings key = some reference ∧ t.objects reference = canonical
  | .deleteBindings keys, deleted, t' =>
    (∀ key, key ∈ deleted ↔ key ∈ keys ∧ (t.bindings key).isSome = true) ∧
      t' = { t with bindings := fun k => if k ∈ keys then none else t.bindings k }

/-! ## Statements and sessions -/

inductive Stmt where
  | begin
  | commit
  | rollback
  | query (q : Query)

abbrev StmtReply : Stmt → Type
  | .query q => QueryReply q
  | _ => Unit

/-- What a connection sees, and the tables its open transaction began with. -/
structure Session where
  live : Tables
  saved : Option Tables

def Session.Does (s : Session) : (op : Stmt) → StmtReply op → Session → Prop
  | .begin, _, s' => s' = ⟨s.live, some s.live⟩
  | .commit, _, s' => s' = ⟨s.live, none⟩
  | .rollback, _, s' => s' = ⟨s.saved.getD s.live, none⟩
  | .query q, r, s' => ∃ t', q.Does s.live r t' ∧ s' = ⟨t', s.saved⟩

/-- A database that one connection uses at a time. -/
structure Engine where
  State : Type
  answer : State → (op : Stmt) → StmtReply op × State
  session : State → Session
  lawful : ∀ s op, (session s).Does op (answer s op).1 (session (answer s op).2)

/-! ## Programs -/

abbrev Program (α : Type) := Prog Query QueryReply StoreError α

def query (q : Query) : Program (QueryReply q) := .perform q

/-- The statements of a program on a connection. -/
def onConnection {α : Type} : Program α → Prog Stmt StmtReply StoreError α
  | .pure a => .pure a
  | .fail e => .fail e
  | .exec q k => .exec (.query q) fun r => onConnection (k r)

/-- Commit when the body returns, roll back when it raises. -/
def transaction {α : Type} (body : Program α) : Prog Stmt StmtReply StoreError α :=
  .exec .begin fun _ => (onConnection body).settle fun
    | .ok a => .closing .commit (.ok a)
    | .error e => .closing .rollback (.error e)

variable {α β κ ν : Type} [DecidableEq κ]

/-- Query chunk after chunk, setting the rows in one dict. -/
def fetchAll (fetch : List α → Program (List (κ × ν))) : List (List α) → Dict κ ν →
    Program (Dict κ ν)
  | [], d => return d
  | chunk :: rest, d => do
    let rows ← fetch chunk
    fetchAll fetch rest (rows.foldl (fun d p => d.set p.1 p.2) d)

/-- Query chunk after chunk, collecting the keys in one set. -/
def gather (send : List α → Program (List β)) : List (List α) → List β → Program (List β)
  | [], found => return found
  | chunk :: rest, found => do
    let keys ← send chunk
    gather send rest (found ++ keys)

/-- Insert a binding if its key is absent, then read back what is there. -/
def insertThenRead (key : String) (reference : RowKey) : Program BindOutcome := do
  let inserted ← query (.insertBinding key reference)
  let row ← query (.selectBinding key)
  match row with
  | none => .fail .assertionError
  | some existing => return ⟨inserted, existing.1, existing.2⟩

/-! ## Whatever is replied -/

section Sends

variable {ok : Query → Prop}

/-- Every statement is one of `ok`. -/
abbrev Sends (ok : Query → Prop) (p : Program α) : Prop :=
  p.follows ok (fun _ _ => True) fun _ => True

theorem sends_query {q : Query} (hq : ok q) : Sends ok (query q) := ⟨hq, fun _ _ => trivial⟩

theorem sends_bind {p : Program α} {f : α → Program β} (hp : Sends ok p)
    (hf : ∀ a, Sends ok (f a)) : Sends ok (p >>= f) :=
  Prog.follows_bind _ hp (fun a _ => hf a) fun _ _ => trivial

theorem sends_ofExcept (out : Except StoreError α) :
    Sends ok (Prog.ofExcept out : Program α) := by
  cases out <;> trivial

theorem sends_fetchAll {fetch : List α → Program (List (κ × ν))}
    {chunks : List (List α)} (h : ∀ chunk ∈ chunks, Sends ok (fetch chunk)) (d : Dict κ ν) :
    Sends ok (fetchAll fetch chunks d) := by
  induction chunks generalizing d with
  | nil => trivial
  | cons chunk rest ih =>
    refine sends_bind (h chunk List.mem_cons_self) fun rows => ?_
    exact ih (fun chunk hchunk => h chunk (List.mem_cons_of_mem _ hchunk)) _

theorem sends_gather {send : List α → Program (List β)} {chunks : List (List α)}
    (h : ∀ chunk ∈ chunks, Sends ok (send chunk)) (found : List β) :
    Sends ok (gather send chunks found) := by
  induction chunks generalizing found with
  | nil => trivial
  | cons chunk rest ih =>
    refine sends_bind (h chunk List.mem_cons_self) fun keys => ?_
    exact ih (fun chunk hchunk => h chunk (List.mem_cons_of_mem _ hchunk)) _

end Sends

/-! ## What programs ensure -/

abbrev Ensures (p : Program α) (Q : Except StoreError α → Tables → Prop) (t : Tables) : Prop :=
  p.ensures Query.Does Q t

theorem ensures_query {q : Query} {f : QueryReply q → Program α}
    {Q : Except StoreError α → Tables → Prop} {t : Tables}
    (h : ∀ r t', q.Does t r t' → Ensures (f r) Q t') : Ensures (query q >>= f) Q t := h

theorem onConnection_ensures (p : Program α) (Q : Except StoreError α → Session → Prop)
    (s : Session) (h : Ensures p (fun out t' => Q out ⟨t', s.saved⟩) s.live) :
    (onConnection p).ensures Session.Does Q s := by
  induction p generalizing s with
  | pure a => exact h
  | fail e => exact h
  | exec q k ih =>
    rintro r s' ⟨t', hdoes, rfl⟩
    exact ih r ⟨t', s.saved⟩ (h r t' hdoes)

/-- The tables a transaction leaves: those its body reached, or those it began with. -/
def leaves (t : Tables) (out : Except StoreError α) (t' : Tables) : Tables :=
  match out with
  | .ok _ => t'
  | .error _ => t

theorem transaction_ensures (body : Program α) (Q : Except StoreError α → Session → Prop)
    (s : Session) (h : Ensures body (fun out t' => Q out ⟨leaves s.live out t', none⟩) s.live) :
    (transaction body).ensures Session.Does Q s := by
  rintro _ s' rfl
  refine (Prog.ensures_settle _ _ Q _).mpr (onConnection_ensures body _ _ ?_)
  refine Prog.ensures_mono h ?_
  intro out t' hQ
  cases out with
  | ok a => rintro _ s' rfl; exact hQ
  | error e => rintro _ s' rfl; exact hQ

/-- Fetching reads the rows of a map at the keys asked for. -/
theorem fetchAll_ensures {m : κ → Option ν} {t : Tables} {fetch : List κ → Program (List (κ × ν))}
    (hfetch : ∀ chunk, Ensures (fetch chunk) (fun out t' => ∃ rows, out = .ok rows ∧ t' = t ∧
      ∀ k v, (k, v) ∈ rows ↔ k ∈ chunk ∧ m k = some v) t)
    (chunks : List (List κ)) (d : Dict κ ν) :
    Ensures (fetchAll fetch chunks d) (fun out t' => ∃ d' : Dict κ ν, out = .ok d' ∧ t' = t ∧
      ∀ k, d'.get? k = if k ∈ chunks.flatten ∧ (m k).isSome = true then m k else d.get? k) t := by
  induction chunks generalizing d with
  | nil => exact ⟨d, rfl, rfl, by simp⟩
  | cons chunk rest ih =>
    refine Prog.ensures_after (fun rows t' => t' = t ∧
      ∀ k v, (k, v) ∈ rows ↔ k ∈ chunk ∧ m k = some v) (Prog.ensures_mono (hfetch chunk) ?_) ?_
    · rintro _ _ ⟨rows, rfl, rfl, h⟩
      exact ⟨rows, rfl, rfl, h⟩
    · rintro rows _ ⟨rfl, hrows⟩
      refine Prog.ensures_mono (ih _) ?_
      rintro _ _ ⟨d', rfl, rfl, hd'⟩
      refine ⟨d', rfl, rfl, ?_⟩
      intro k
      have hmem : k ∈ rows.map Prod.fst ↔ k ∈ chunk ∧ (m k).isSome = true := by
        rw [List.mem_map, Option.isSome_iff_exists]
        constructor
        · rintro ⟨⟨_, v⟩, hp, rfl⟩
          exact ⟨((hrows _ _).mp hp).1, v, ((hrows _ _).mp hp).2⟩
        · rintro ⟨hk, v, hv⟩
          exact ⟨(k, v), (hrows k v).mpr ⟨hk, hv⟩, rfl⟩
      rw [hd', Dict.get?_foldl_set rows d (fun p hp => ((hrows p.1 p.2).mp hp).2) k]
      simp only [hmem, List.flatten_cons, List.mem_append]
      by_cases hsome : (m k).isSome = true <;> by_cases h1 : k ∈ chunk <;>
        by_cases h2 : k ∈ rest.flatten <;> simp [hsome, h1, h2]

/-- Deleting chunk after chunk deletes all the keys and reports the bound ones. -/
theorem delete_ensures (chunks : List (List String)) (found : List String) (t : Tables) :
    Ensures (gather (fun keys => query (.deleteBindings keys)) chunks found)
      (fun out t' => ∃ deleted, out = .ok deleted ∧
        (∀ k, k ∈ deleted ↔
          k ∈ found ∨ k ∈ chunks.flatten ∧ (t.bindings k).isSome = true) ∧
        t' = t.after (.deleteBindings chunks.flatten)) t := by
  induction chunks generalizing found t with
  | nil => exact ⟨found, rfl, by simp, by simp [Tables.after]⟩
  | cons chunk rest ih =>
    refine ensures_query ?_
    rintro keys _ ⟨hkeys, rfl⟩
    refine Prog.ensures_mono (ih (found ++ keys) _) ?_
    rintro _ _ ⟨deleted, rfl, hdel, rfl⟩
    refine ⟨deleted, rfl, ?_, ?_⟩
    · intro k
      rw [hdel, List.mem_append, hkeys, List.flatten_cons, List.mem_append]
      by_cases h : k ∈ chunk <;> simp [h]
    · simp only [Tables.after, Tables.mk.injEq, true_and]
      funext k
      by_cases h1 : k ∈ chunk <;> by_cases h2 : k ∈ rest.flatten <;> simp [h1, h2]

/-! ## Calls -/

/-- A body to be run in a transaction does what the contract says of the call. -/
def Fulfils (call : Call) (body : Program Reply) : Prop :=
  ∀ t : Tables, Ensures body (fun out t' => t.Answers call out ∧
    leaves t out t' = t.after call) t

/-- A body that only reads does. -/
def Reports (call : Call) (body : Program Reply) : Prop :=
  ∀ t : Tables, Ensures body (fun out t' => t.Answers call out ∧ t' = t.after call) t

theorem insertThenRead_fulfils (key schema contentHash : String) :
    Fulfils (.bind key schema contentHash)
      (do return .bind (← insertThenRead key (schema, contentHash))) := by
  intro t
  refine Prog.ensures_after (fun o t' => o = ⟨(t.bindings key).isNone,
    ((t.bindings key).getD (schema, contentHash)).1,
    ((t.bindings key).getD (schema, contentHash)).2⟩ ∧
    t' = t.after (.bind key schema contentHash)) ?_ ?_
  · refine ensures_query ?_
    rintro inserted _ ⟨rfl, rfl⟩
    refine ensures_query ?_
    rintro row _ ⟨rfl, rfl⟩
    simp only [putAbsent_self]
    exact ⟨_, rfl, rfl, rfl⟩
  · rintro _ _ ⟨rfl, rfl⟩
    exact ⟨rfl, rfl⟩

theorem selectByHash_reports (schema contentHash : String) :
    Reports (.getObject schema contentHash)
      (do return .object (← query (.selectByHash schema contentHash))) := by
  rintro t row _ ⟨rfl, h⟩
  refine ⟨?_, rfl⟩
  simp only [Tables.Answers]
  split
  · rename_i canonical hexact
    rw [hexact] at h
    rw [h]
  · rename_i hnone
    rw [hnone] at h
    rcases h with ⟨other, canonical, hother, rfl⟩ | ⟨hall, rfl⟩
    · exact .inl ⟨other, canonical, hother, rfl⟩
    · exact .inr ⟨hall, rfl⟩

theorem selectBinding_reports (key : String) :
    Reports (.getBinding key) (do return .binding (← query (.selectBinding key))) := by
  rintro t row _ ⟨rfl, rfl⟩
  exact ⟨rfl, rfl⟩

/-- What a batch body does: all of it, or a conflict. -/
def Batch (entries : List BoundObjectWrite) (t : Tables)
    (out : Except StoreError (Dict String BindOutcome)) (t' : Tables) : Prop :=
  if t.compatible entries = true then
    ∃ outcomes : Dict String BindOutcome, out = .ok outcomes ∧
      t' = ⟨t.objectsAfter entries, t.bindingsAfter entries⟩ ∧
      ∀ k, outcomes.get? k = if k ∈ entries.map BoundObjectWrite.key then
        Tables.boundOutcome (t.bindings k) (t.bindingsAfter entries k) else none
  else ∃ schema contentHash, out = .error (.objectConflict schema contentHash)

theorem batch_fulfils {entries : List BoundObjectWrite} {body : Program (Dict String BindOutcome)}
    (h : ∀ t, Ensures body (Batch entries t) t) :
    Fulfils (.putBoundObjects entries) (do return .outcomes (← body)) := by
  intro t
  refine Prog.ensures_bind _ (h t) ?_ ?_
  · intro outcomes t' hbatch
    unfold Batch at hbatch
    simp only [Tables.Answers, Tables.after]
    split at hbatch
    · rename_i hc
      obtain ⟨_, heq, rfl, ho⟩ := hbatch
      cases heq
      simp only [if_pos hc]
      exact ⟨⟨outcomes, rfl, ho⟩, rfl⟩
    · obtain ⟨_, _, heq⟩ := hbatch
      cases heq
  · intro e t' hbatch
    unfold Batch at hbatch
    simp only [Tables.Answers, Tables.after]
    split at hbatch
    · obtain ⟨_, heq, _⟩ := hbatch
      cases heq
    · rename_i hc
      obtain ⟨schema, contentHash, heq⟩ := hbatch
      cases heq
      rw [if_neg hc, if_neg hc]
      exact ⟨⟨schema, contentHash, rfl⟩, rfl⟩

/-- Check the arguments, then run the statements of the call. -/
def checked (call : Call) (p : Prog Stmt StmtReply StoreError Reply) :
    Prog Stmt StmtReply StoreError Reply :=
  match call.validate with
  | .error e => .fail e
  | .ok _ => p

/-- What an engine's run of a call owes its caller. -/
def Meets (call : Call) (p : Prog Stmt StmtReply StoreError Reply) : Prop :=
  ∀ s : Session, p.ensures Session.Does (fun out s' => s.live.Answers call out ∧
    s'.live = s.live.after call) s

theorem transaction_meets {call : Call} {body : Program Reply} (h : Fulfils call body) :
    Meets call (transaction body) :=
  fun s => transaction_ensures body _ s (h s.live)

theorem onConnection_meets {call : Call} {body : Program Reply} (h : Reports call body) :
    Meets call (onConnection body) :=
  fun s => onConnection_ensures body _ s (h s.live)

theorem pure_meets {call : Call} {reply : Reply}
    (h : ∀ t : Tables, t.Answers call (.ok reply) ∧ t = t.after call) :
    Meets call (.pure reply) :=
  fun s => h s.live

/-- The backend of an engine and programs that meet the contract. -/
def Engine.backend (E : Engine) (program : Call → Prog Stmt StmtReply StoreError Reply)
    (h : ∀ call, Meets call (program call)) : Backend where
  State := E.State
  step s call :=
    let (out, s') := (checked call (program call)).run E.answer s
    (s', out)
  tables s := (E.session s).live
  serves s call := by
    unfold Tables.Serves checked
    cases call.validate with
    | error e => exact ⟨rfl, rfl⟩
    | ok _ =>
      exact Prog.run_ensures (Q := fun out s' => (E.session s).live.Answers call out ∧
        s'.live = (E.session s).live.after call) E.lawful (h call (E.session s))

end DrStore.Store.Statements
