import DrStore.Store.Memory
import DrStore.Store.Postgres
import DrStore.Store.Sqlite

/-! # The three backends agree

All three meet one contract, and the contract leaves nothing open but the order of dicts and
sets, the entry a conflict names, and which other schema `get_object` reports. -/
namespace DrStore.Store.Agreement
open DrStore.Base.Collections DrStore.Base.Programs DrStore.Base.Runs
open DrStore.Store.ContentAddressing DrStore.Store.Contract DrStore.Store.Memory
open DrStore.Store.Postgres DrStore.Store.Sqlite DrStore.Store.Statements

def RaisesConflict (out : Except StoreError Reply) : Prop :=
  ∃ schema contentHash, out = .error (.objectConflict schema contentHash)

theorem same_conflict_iff {t : Tables} {call : Call} {out out' : Except StoreError Reply}
    (h : Same t call out out') : RaisesConflict out ↔ RaisesConflict out' := by
  unfold RaisesConflict
  unfold Same at h
  split at h <;> first | simp | (subst h; rfl)

/-- Two backends with equal tables keep them equal along every run. -/
theorem tables_agree (A B : Backend) {s : A.State} {s' : B.State} (h : A.tables s = B.tables s')
    (calls : List Call) :
    A.tables (A.machine.after s calls) = B.tables (B.machine.after s' calls) := by
  refine (Machine.lockstep (m := A.machine) (n := B.machine)
    (R := fun s s' => A.tables s = B.tables s') (Q := fun _ _ _ => True) ?_ calls
    (fun _ _ => trivial : ∀ call ∈ calls, True) h).1
  intro s s' call _ h
  have hserves := B.serves s' call
  rw [← h] at hserves
  exact ⟨(serves_same (A.serves s call) hserves).1, trivial⟩

theorem replies_agree (A B : Backend) {s : A.State} {s' : B.State} (h : A.tables s = B.tables s')
    (calls : List Call) (call : Call) :
    Same (A.tables (A.machine.after s calls)) call (A.machine.reply s calls call)
      (B.machine.reply s' calls call) := by
  have hserves := B.serves (B.machine.after s' calls) call
  rw [← tables_agree A B h calls] at hserves
  exact (serves_same (A.serves (A.machine.after s calls) call) hserves).2

/-- **The backends agree.** From equal tables, after every run of calls the in-memory, SQLite
and PostgreSQL backends have equal tables, and reply alike to whatever comes next, whatever the
engines' row orders and the PostgreSQL chunk size. -/
theorem backends_agree (sqlite postgresql : Engine) (b : PostgresBackend) (m : MemoryBackend)
    (s : sqlite.State) (p : postgresql.State) (hs : m.tables = (sqlite.session s).live)
    (hp : m.tables = (postgresql.session p).live) (calls : List Call) :
    let memory := MemoryBackend.backend.machine
    let sqliteMachine := (SqliteBackend.backend sqlite).machine
    let postgresMachine := (b.backend postgresql).machine
    let t := MemoryBackend.tables (memory.after m calls)
    (sqlite.session (sqliteMachine.after s calls)).live = t ∧
      (postgresql.session (postgresMachine.after p calls)).live = t ∧
      ∀ call, Same t call (memory.reply m calls call) (sqliteMachine.reply s calls call) ∧
        Same t call (memory.reply m calls call) (postgresMachine.reply p calls call) ∧
        (RaisesConflict (memory.reply m calls call) ↔
          RaisesConflict (sqliteMachine.reply s calls call)) ∧
        (RaisesConflict (memory.reply m calls call) ↔
          RaisesConflict (postgresMachine.reply p calls call)) := by
  refine ⟨(tables_agree MemoryBackend.backend (SqliteBackend.backend sqlite) hs calls).symm,
    (tables_agree MemoryBackend.backend (b.backend postgresql) hp calls).symm, ?_⟩
  intro call
  have hsqlite := replies_agree MemoryBackend.backend (SqliteBackend.backend sqlite) hs calls call
  have hpostgres := replies_agree MemoryBackend.backend (b.backend postgresql) hp calls call
  exact ⟨hsqlite, hpostgres, same_conflict_iff hsqlite, same_conflict_iff hpostgres⟩

/-! ## A session over dicts -/

namespace DictEngine

/-- A query answered by the two dicts of the in-memory backend. -/
def answer (d : MemoryBackend) : (q : Query) → QueryReply q × MemoryBackend
  | .insertObject reference canonical =>
    (if (d.objects.get? reference).isNone then some canonical else none,
      { d with objects := d.objects.setdefault reference canonical })
  | .insertObjects rows =>
    ((), { d with objects := rows.foldl (fun o p => o.setdefault p.1 p.2) d.objects })
  | .selectObject reference => (d.objects.get? reference, d)
  | .selectByHash schema contentHash =>
    (d.getObject schema contentHash, d)
  | .selectObjects references => (d.objects.items.filter fun p => decide (p.1 ∈ references), d)
  | .insertBinding key reference => ((d.bindings.get? key).isNone,
      { d with bindings := d.bindings.setdefault key reference })
  | .insertBindings rows =>
    ((rows.map Prod.fst).filter fun key => (d.bindings.get? key).isNone,
      { d with bindings := rows.foldl (fun o p => o.setdefault p.1 p.2) d.bindings })
  | .selectBinding key => (d.bindings.get? key, d)
  | .selectBindings keys => (d.bindings.items.filter fun p => decide (p.1 ∈ keys), d)
  | .selectBound keys => ((d.bindings.items.filter fun p => decide (p.1 ∈ keys)).map
      fun p => (p.1, p.2, d.objects.get? p.2), d)
  | .deleteBindings keys => (keys.filter fun key => (d.bindings.get? key).isSome,
      { d with bindings := keys.foldl (fun o key => o.erase key) d.bindings })

theorem get?_foldl_erase (keys : List String) (o : Dict String RowKey) (k : String) :
    (keys.foldl (fun o key => o.erase key) o).get? k = if k ∈ keys then none else o.get? k := by
  induction keys generalizing o with
  | nil => simp
  | cons key keys ih =>
    rw [List.foldl_cons, ih, Dict.get?_erase]
    by_cases h : k = key <;> simp [h]

theorem answer_does (d : MemoryBackend) (q : Query) :
    q.Does d.tables (answer d q).1 (answer d q).2.tables := by
  cases q with
  | insertObject reference canonical =>
    refine ⟨rfl, ?_⟩
    simp only [answer, MemoryBackend.tables, Tables.mk.injEq, and_true]
    exact funext fun j => Dict.get?_setdefault ..
  | insertObjects rows => simp [Query.Does, answer, MemoryBackend.tables, Dict.get?_foldl_setdefault]
  | selectObject reference => exact ⟨rfl, rfl⟩
  | selectByHash schema contentHash =>
    have h := d.getObject_spec schema contentHash
    simp only [Tables.Answers, Except.ok.injEq, Reply.object.injEq] at h
    exact ⟨rfl, h⟩
  | selectObjects references =>
    refine ⟨rfl, ?_⟩
    intro r c
    simp only [answer, List.mem_filter, decide_eq_true_eq, MemoryBackend.tables, Dict.get?_eq_some]
    exact and_comm
  | insertBinding key reference =>
    refine ⟨rfl, ?_⟩
    simp only [answer, MemoryBackend.tables, Tables.mk.injEq, true_and]
    exact funext fun j => Dict.get?_setdefault ..
  | insertBindings rows =>
    refine ⟨?_, ?_⟩
    · intro key
      simp [answer, MemoryBackend.tables]
    · simp [answer, MemoryBackend.tables, Dict.get?_foldl_setdefault]
  | selectBinding key => exact ⟨rfl, rfl⟩
  | selectBindings keys =>
    refine ⟨rfl, ?_⟩
    intro k r
    simp only [answer, List.mem_filter, decide_eq_true_eq, MemoryBackend.tables, Dict.get?_eq_some]
    exact and_comm
  | selectBound keys =>
    refine ⟨rfl, ?_⟩
    intro k r c
    simp only [answer, List.mem_map, List.mem_filter, decide_eq_true_eq, MemoryBackend.tables,
      Dict.get?_eq_some, Prod.mk.injEq]
    constructor
    · rintro ⟨p, ⟨hp, hk⟩, rfl, rfl, rfl⟩
      exact ⟨hk, hp, rfl⟩
    · rintro ⟨hk, hp, rfl⟩
      exact ⟨(k, r), ⟨hp, hk⟩, rfl, rfl, rfl⟩
  | deleteBindings keys =>
    refine ⟨?_, ?_⟩
    · intro key
      simp [answer, MemoryBackend.tables]
    · simp only [answer, MemoryBackend.tables, Tables.mk.injEq, true_and]
      exact funext fun k => get?_foldl_erase keys d.bindings k

/-- The live dicts, and those the open transaction began with. -/
structure State where
  live : MemoryBackend
  saved : Option MemoryBackend

def statement (s : State) : (op : Stmt) → StmtReply op × State
  | .begin => ((), ⟨s.live, some s.live⟩)
  | .commit => ((), ⟨s.live, none⟩)
  | .rollback => ((), ⟨s.saved.getD s.live, none⟩)
  | .query q => ((answer s.live q).1, ⟨(answer s.live q).2, s.saved⟩)

def engine : Engine where
  State := State
  answer := statement
  session s := ⟨s.live.tables, s.saved.map MemoryBackend.tables⟩
  lawful s op := by
    cases op with
    | begin => rfl
    | commit => rfl
    | rollback => cases hs : s.saved <;> simp [Session.Does, statement, hs]
    | query q => exact ⟨_, answer_does s.live q, rfl⟩

def start : engine.State := ⟨MemoryBackend.empty, none⟩

end DictEngine

def sampleEntry (key canonical : String) : BoundObjectWrite :=
  ⟨key, "result", "e3b0c44298fc1c149afbf4c8996fb92427ae41e4649b934ca495991b7852b855", canonical⟩

/-- A batch that binds one key twice over, then one that clashes with it. -/
theorem backends_agree_clash :
    RaisesConflict (MemoryBackend.backend.machine.reply MemoryBackend.empty
        [.putBoundObjects [sampleEntry "a" "1", sampleEntry "b" "1", sampleEntry "a" "1"]]
        (.putBoundObjects [sampleEntry "c" "2"])) ∧
      RaisesConflict ((PostgresBackend.backend ⟨1, by decide⟩ DictEngine.engine).machine.reply
        DictEngine.start
        [.putBoundObjects [sampleEntry "a" "1", sampleEntry "b" "1", sampleEntry "a" "1"]]
        (.putBoundObjects [sampleEntry "c" "2"])) := by
  have h : RaisesConflict (MemoryBackend.backend.machine.reply MemoryBackend.empty
      [.putBoundObjects [sampleEntry "a" "1", sampleEntry "b" "1", sampleEntry "a" "1"]]
      (.putBoundObjects [sampleEntry "c" "2"])) := ⟨_, _, rfl⟩
  have hagree := backends_agree DictEngine.engine DictEngine.engine ⟨1, by decide⟩
    MemoryBackend.empty DictEngine.start DictEngine.start rfl rfl
    [.putBoundObjects [sampleEntry "a" "1", sampleEntry "b" "1", sampleEntry "a" "1"]]
  exact ⟨h, ((hagree.2.2 (.putBoundObjects [sampleEntry "c" "2"])).2.2.2).mp h⟩

end DrStore.Store.Agreement
