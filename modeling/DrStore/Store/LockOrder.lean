import DrStore.Base.KeyLocks
import DrStore.Store.Postgres

/-! # Concurrent batches of the PostgreSQL backend (storage_backends/postgresql.py)

Any number of clients send one write batch each. An `INSERT … ON CONFLICT DO NOTHING` goes through
its rows in the order in which the statement lists them; a row whose key another open transaction
has inserted is waited for. What a `SELECT` returns is left open. -/
namespace DrStore.Store.LockOrder
open DrStore.Base.Collections DrStore.Base.Programs DrStore.Base.Pool DrStore.Base.KeyLocks
open DrStore.Store.ContentAddressing DrStore.Store.Contract DrStore.Store.Statements
open DrStore.Store.Postgres DrStore.Store.Postgres.PostgresBackend

/-- The primary keys of the two tables. -/
inductive Key where
  | object (reference : RowKey)
  | binding (key : String)
deriving DecidableEq

abbrev RowOp := KeyOp Key Query

abbrev RowReply : RowOp → Type := KeyReply QueryReply

abbrev RowScript (α : Type) := Prog RowOp RowReply StoreError α

/-! ## Statements, row by row -/

def Key.bindingKey : Key → Option String
  | .object _ => none
  | .binding key => some key

/-- A query on the rows; those that a batch does not send are only looked at. -/
def queryRows : (q : Query) → RowScript (QueryReply q)
  | .insertObjects rows => do
    let _ ← insertAll (rows.map fun row => Key.object row.1)
    return ()
  | .insertBindings rows => do
    let inserted ← insertAll (rows.map fun row => Key.binding row.1)
    return inserted.filterMap Key.bindingKey
  | q => .exec (.look q) .pure

def stmtRows : (op : Stmt) → RowScript (StmtReply op)
  | .begin => .pure ()
  | .commit => .exec .commit .pure
  | .rollback => .exec .rollback .pure
  | .query q => queryRows q

/-- `put_bound_objects`, row by row. -/
def putBoundObjectsRows (b : PostgresBackend) (entries : List BoundObjectWrite) :
    RowScript Reply :=
  (b.program (.putBoundObjects entries)).translate stmtRows

/-! ## The order of the rows -/

/-- The distinct references and then the distinct keys, unless the batch clashes with itself. -/
def lockOrder (entries : List BoundObjectWrite) : List Key :=
  match distinctWrites entries Dict.empty Dict.empty with
  | .error _ => []
  | .ok (objects, writes) => objects.keys.map .object ++ writes.keys.map .binding

def queryKeys : Query → List Key
  | .insertObjects rows => rows.map fun row => .object row.1
  | .insertBindings rows => rows.map fun row => .binding row.1
  | _ => []

def stmtKeys : Stmt → List Key
  | .query q => queryKeys q
  | .begin | .commit | .rollback => []

theorem queryRows_tries (q : Query) (rest : List Key) :
    Tries KeyOp.takes (Leaves rest) (queryRows q) (queryKeys q ++ rest) := by
  cases q with
  | insertObjects rows => exact tries_then (insertAll_tries _ rest) fun _ => tries_pure
  | insertBindings rows => exact tries_then (insertAll_tries _ rest) fun _ => tries_pure
  | _ => exact ⟨rest, rfl, fun _ => tries_pure⟩

theorem stmtRows_tries (op : Stmt) (rest : List Key) :
    Tries KeyOp.takes (Leaves rest) (stmtRows op) (stmtKeys op ++ rest) := by
  cases op with
  | begin => exact tries_pure
  | query q => exact queryRows_tries q rest
  | commit => exact ⟨rest, rfl, fun _ => tries_pure⟩
  | rollback => exact ⟨rest, rfl, fun _ => tries_pure⟩

section

variable {α κ ν : Type} [DecidableEq κ]

/-- A transaction tries what its body tries. -/
theorem transaction_tries {body : Program α} {ks : List Key}
    (h : Tries queryKeys (fun _ _ => True) body ks) :
    Tries stmtKeys (fun _ _ => True) (transaction body) ks := by
  have hbody : ∀ {Q : Except StoreError α → List Key → Prop} (p : Program α) (ks : List Key),
      Tries queryKeys Q p ks → Tries stmtKeys Q (onConnection p) ks := by
    intro Q p
    induction p with
    | pure a => exact fun ks h => h
    | fail e => exact fun ks h => h
    | exec q k ih =>
      intro ks h
      obtain ⟨rest, hks, h⟩ := h
      exact ⟨rest, hks, fun r => ih r rest (h r)⟩
  refine ⟨ks, rfl, fun _ => tries_settle ((hbody body ks h).mono ?_)⟩
  intro out left _
  cases out with
  | ok a => exact ⟨left, rfl, fun _ => trivial⟩
  | error e => exact ⟨left, rfl, fun _ => trivial⟩

/-- A query that inserts nothing. -/
theorem query_tries {q : Query} (hq : queryKeys q = []) (rest : List Key) :
    Tries queryKeys (Leaves rest) (query q) rest :=
  ⟨rest, by rw [hq]; rfl, fun _ => tries_pure⟩

theorem fetchAll_tries {fetch : List α → Program (List (κ × ν))} {rest : List Key}
    (hfetch : ∀ chunk, Tries queryKeys (Leaves rest) (fetch chunk) rest) (chunks : List (List α))
    (d : Dict κ ν) : Tries queryKeys (Leaves rest) (fetchAll fetch chunks d) rest := by
  induction chunks generalizing d with
  | nil => exact tries_pure
  | cons chunk more ih => exact tries_then (hfetch chunk) fun rows => ih _

/-- Chunk after chunk is all of it. -/
theorem insertObjects_tries (chunks : List (List (RowKey × String))) (rest : List Key) :
    Tries queryKeys (Leaves rest) (insertObjects chunks)
      ((chunks.flatten.map fun row => .object row.1) ++ rest) := by
  induction chunks with
  | nil => exact tries_pure
  | cons chunk more ih =>
    rw [List.flatten_cons, List.map_append, List.append_assoc]
    exact tries_then tries_perform fun _ => ih

theorem insertBindings_tries (chunks : List (List BoundObjectWrite)) (found : List String)
    (rest : List Key) :
    Tries queryKeys (Leaves rest)
      (gather (fun chunk => query (.insertBindings (bindingPairs chunk))) chunks found)
      ((chunks.flatten.map fun e => .binding e.key) ++ rest) := by
  induction chunks generalizing found with
  | nil => exact tries_pure
  | cons chunk more ih =>
    have hkeys : (chunk.map fun e => Key.binding e.key) =
        queryKeys (.insertBindings (bindingPairs chunk)) := by
      simp [queryKeys, bindingPairs]
    rw [List.flatten_cons, List.map_append, List.append_assoc, hkeys]
    exact tries_then tries_perform fun keys => ih _

end

theorem storeObjects_tries {n : Nat} (hn : 0 < n) (objects : Dict RowKey String)
    (rest : List Key) :
    Tries queryKeys (fun _ left => left = rest) (storeObjects n objects)
      (objects.keys.map .object ++ rest) := by
  have hinsert := insertObjects_tries (chunks n objects.items) rest
  rw [chunks_flatten hn] at hinsert
  have hkeys : objects.items.map (fun row => Key.object row.1) = objects.keys.map .object := by
    simp [Dict.keys]
  rw [hkeys] at hinsert
  refine tries_then hinsert fun _ => ?_
  refine tries_then (fetchAll_tries (fun _ => query_tries rfl _) _ _) fun stored => ?_
  cases compareObjects stored objects.items with
  | ok _ => rfl
  | error e => rfl

theorem storeBindings_tries {n : Nat} (hn : 0 < n) {writes : Dict String BoundObjectWrite}
    (hkeys : writes.values.map BoundObjectWrite.key = writes.keys) :
    Tries queryKeys (fun _ _ => True) (storeBindings n writes) (writes.keys.map .binding) := by
  have hinsert := insertBindings_tries (chunks n writes.values) [] []
  rw [chunks_flatten hn, List.append_nil] at hinsert
  have hbindings : writes.values.map (fun e => Key.binding e.key) = writes.keys.map .binding := by
    rw [← hkeys, List.map_map]
    rfl
  rw [hbindings] at hinsert
  refine tries_then hinsert fun inserted => ?_
  refine tries_then (fetchAll_tries (fun _ => query_tries rfl _) _ _) fun stored => ?_
  show Tries _ _ (ite _ _ _) _
  split
  · trivial
  · trivial

/-- Whatever is stored already, a batch inserts in its lock order. -/
theorem putBoundObjects_tries {n : Nat} (hn : 0 < n) (entries : List BoundObjectWrite) :
    Tries queryKeys (fun _ _ => True) (putBoundObjectsOnConnection n entries)
      (lockOrder entries) := by
  unfold putBoundObjectsOnConnection lockOrder
  cases hd : distinctWrites entries Dict.empty Dict.empty with
  | error e => trivial
  | ok p =>
    obtain ⟨objects, writes⟩ := p
    show Tries _ _ (storeObjects n objects >>= fun _ => storeBindings n writes) (_ ++ _)
    refine tries_bind (storeObjects_tries hn objects _) ?_ fun _ _ _ => trivial
    intro _ left hleft
    subst hleft
    exact storeBindings_tries hn (distinctWrites_ok hd).keys_eq

theorem rows_tries (b : PostgresBackend) (entries : List BoundObjectWrite) :
    Tries KeyOp.takes (fun _ _ => True) (putBoundObjectsRows b entries) (lockOrder entries) := by
  refine Tries.translate stmtRows_tries ?_
  unfold program
  show Tries _ _ (ite _ _ _) _
  split
  · trivial
  · refine transaction_tries (tries_bind (putBoundObjects_tries b.positive entries) ?_ ?_)
    · exact fun _ _ _ => trivial
    · exact fun _ _ _ => trivial

/-! ## Deadlock -/

section

variable {T : Type} [DecidableEq T]

abbrev Batches (T : Type) := Run T Key Query QueryReply StoreError Reply

/-- From any tables, with no transaction open. -/
def initial (committed : Key → Bool) : Table T Key := ⟨committed, fun _ => none⟩

/-- **Ordered batches.** Batches that list their rows in one common order do not deadlock. -/
theorem ordered_batches_never_deadlock (before : Key → Key → Prop) [IsStrictOrder Key before]
    (b : T → PostgresBackend) (entries : T → List BoundObjectWrite)
    (hordered : ∀ t, (lockOrder (entries t)).Pairwise before) (committed : Key → Bool)
    (c : Batches T) (hc : Reachable system (initial committed)
      (fun t => putBoundObjectsRows (b t) (entries t)) c) : ¬ Deadlocked c := by
  have hinorder := inOrder_reachable (fun _ => rfl) (fun t => rows_tries (b t) (entries t)) hc
  exact hinorder.not_deadlocked hordered

end

def one : BoundObjectWrite :=
  ⟨"one", "result", "6b86b273ff34fce19d6b804eff5a3f5747ada4eaa22f1d49c01e52ddb7875b4b", "1"⟩

def two : BoundObjectWrite :=
  ⟨"two", "result", "d4735e3a265e16eee03f59718b9b5d03019c07d8b6c51f90da3a666eec13ab35", "2"⟩

theorem clientBatch_pos : 0 < 512 := by decide

def clientBackend : PostgresBackend := ⟨512, clientBatch_pos⟩

/-- Where a row of the two entries stands. -/
def place (k : Key) : Nat := (lockOrder [one, two]).idxOf k

instance : IsStrictOrder Key fun j k => place j < place k where
  irrefl k := Nat.lt_irrefl (place k)
  trans _ _ _ := Nat.lt_trans

/-- The same entries in the same order: one waits for the other, and that is all. -/
theorem ordered_batches_never_deadlock_same :
    ∃ c : Batches Bool, Reachable system (initial fun _ => false)
      (fun _ => putBoundObjectsRows clientBackend [one, two]) c ∧ WaitsFor c false true ∧
        ¬ Deadlocked c := by
  have h0 : Reachable system (initial fun _ => false)
      (fun _ : Bool => putBoundObjectsRows clientBackend [one, two])
      (start (initial fun _ => false) fun _ => putBoundObjectsRows clientBackend [one, two]) := .refl
  have h1 := h0.exec (t := true) (r := true) rfl ⟨rfl, rfl⟩
  refine ⟨_, h1, ⟨by decide, _, _, rfl, rfl, rfl⟩, ?_⟩
  exact ordered_batches_never_deadlock (fun j k => place j < place k) (fun _ => clientBackend)
    (fun _ => [one, two]) (fun _ => by decide) (fun _ => false) _ h1

/-- The same two entries, in opposite orders. -/
def opposite : Bool → List BoundObjectWrite
  | true => [one, two]
  | false => [two, one]

/-- Each client has inserted its first object, and waits for the other's. -/
theorem opposite_batches_deadlock :
    ∃ c : Batches Bool, Reachable system (initial fun _ => false)
      (fun t => putBoundObjectsRows clientBackend (opposite t)) c ∧ Deadlocked c := by
  have h0 : Reachable system (initial fun _ => false)
      (fun t => putBoundObjectsRows clientBackend (opposite t)) (start (initial fun _ => false)
        fun t => putBoundObjectsRows clientBackend (opposite t)) := .refl
  have h1 := h0.exec (t := true) (r := true) rfl ⟨rfl, rfl⟩
  have h2 := h1.exec (t := false) (r := true) rfl ⟨rfl, rfl⟩
  refine ⟨_, h2, true, .tail (.single (b := false) ?_) ?_⟩
  · exact ⟨by decide, _, _, rfl, rfl, rfl⟩
  · exact ⟨by decide, _, _, rfl, rfl, rfl⟩

end DrStore.Store.LockOrder
