import DrStore.Base.Histories
import DrStore.Store.Sqlite

/-! # SQLite backends of many processes (storage_backends/sqlite.py)

Any number of backends work on one database file, each on a connection of its own. `_immediate`
takes the write lock of the file; a query outside of it sees what is committed by then. Any
statement may raise, a lock that stays busy among them, and any process may die. A rollback goes
through. The calls of one backend come one after another; here they may overlap as well. -/
namespace DrStore.Store.Processes
open DrStore.Base.Collections DrStore.Base.Exclusive DrStore.Base.Histories DrStore.Base.Pool
open DrStore.Base.Programs
open DrStore.Store.Contract DrStore.Store.ContentAddressing DrStore.Store.Sqlite
open DrStore.Store.Statements (Program Query QueryReply Fulfils Reports fetchAll insertThenRead
  insertThenRead_fulfils batch_fulfils selectByHash_reports selectBinding_reports leaves)

/-! ## Programs -/

abbrev Script := Prog (Op Query) (OpReply QueryReply) (Option StoreError)

namespace SqliteBackend
open DrStore.Store.Sqlite.SqliteBackend

/-- `_immediate`. Rolling back where no transaction is open does nothing. -/
def immediate (body : Program Reply) : Script Reply :=
  transact body (.fail none) fun
    | .ok reply => .pure reply
    | .error e => .exec .rollback fun _ => .fail e

/-- Statements outside a transaction. -/
def reading (body : Program Reply) : Script Reply := onConnection (raising body)

/-- A public method, up to the reply of the worker. -/
def program (call : Call) : Script Reply :=
  match call.validate with
  | .error e => .fail (some e)
  | .ok _ => match call with
    | .putObject schema contentHash canonical =>
      immediate (do return .put (← putObject schema contentHash canonical))
    | .getObject schema contentHash =>
      reading (do return .object (← getObject schema contentHash))
    | .bind key schema contentHash =>
      immediate (do return .bind (← bind key schema contentHash))
    | .getBinding key => reading (do return .binding (← getBinding key))
    | .getBoundObjects keys =>
      if keys = [] then .pure (.rows Dict.empty)
      else reading (do return .rows (← getBoundObjects keys))
    | .putBoundObjects entries =>
      if entries = [] then .pure (.outcomes Dict.empty)
      else immediate (do return .outcomes (← putBoundObjects entries))
    | .deleteBindings keys =>
      if keys = [] then .pure (.deleted [])
      else immediate (do return .deleted (← deleteBindings keys))

end SqliteBackend

/-! ## Serial orders -/

/-- The calls that take the lock. -/
def writes : Call → Bool
  | .putObject _ _ _ | .bind _ _ _ => true
  | .putBoundObjects entries => !entries.isEmpty
  | .deleteBindings keys => !keys.isEmpty
  | .getObject _ _ | .getBinding _ | .getBoundObjects _ => false

/-- The row that `get_bound_objects` reports for a key. -/
def boundRow (t : Tables) (key : String) : Option BoundObjectRow :=
  (t.bindings key).map fun r => ⟨r.1, r.2, t.objects r⟩

section Orders

variable {T : Type} (calls : T → Call) (t₀ : Tables)

/-- The tables after calls one after another, the last one first. -/
def replay (order : List T) : Tables := order.foldr (fun t tables => tables.after (calls t)) t₀

def order (s : Shared T Tables) : List T := s.log.map Prod.fst

/-- How a call ends that begins after `since`: a write with the reply of its place in the order; a
read of one query with the reply of some place, a long key list with rows of several; an error of
the store is the reply of some place as well, and leaves no trace. -/
def Placed (since order : List T) (t : T) : Except (Option StoreError) Reply → Prop
  | .ok reply =>
    (writes (calls t) = true → ∃ pre, since <:+ pre ∧ t :: pre <:+ order ∧
      (replay calls t₀ pre).Serves (calls t) (.ok reply) (replay calls t₀ (t :: pre))) ∧
    (writes (calls t) = false → (∃ pre, Between since order pre ∧
        (replay calls t₀ pre).Serves (calls t) (.ok reply) (replay calls t₀ pre)) ∨
      ∃ keys rows, calls t = .getBoundObjects keys ∧ reply = .rows rows ∧
        keyQueryChunkSize < keys.length ∧ ∀ key, ∃ pre, Between since order pre ∧
          rows.get? key = if key ∈ keys then boundRow (replay calls t₀ pre) key else none)
  | .error (some e) => t ∉ order ∧ ∃ pre, Between since order pre ∧
    (replay calls t₀ pre).Serves (calls t) (.error e) (replay calls t₀ pre)
  | .error none => True

end Orders

/-! ## Reading -/

/-- The rows of a chunk are those of one point. -/
theorem fetchBound_sees {t : Tables} {chunk : List String}
    {rows : List (String × RowKey × Option String)}
    (h : (Query.selectBound chunk).Does t rows t) (key : String) (row : BoundObjectRow) :
    (key, row) ∈ (rows.map fun r => (r.1, (⟨r.2.1.1, r.2.1.2, r.2.2⟩ : BoundObjectRow))) ↔
      key ∈ chunk ∧ boundRow t key = some row := by
  obtain ⟨_, hrows⟩ := h
  simp only [List.mem_map, boundRow, Option.map_eq_some_iff, Prod.mk.injEq]
  constructor
  · rintro ⟨⟨k, r, canonical⟩, hmem, rfl, rfl⟩
    obtain ⟨hk, hb, ho⟩ := (hrows k r canonical).mp hmem
    exact ⟨hk, r, hb, by rw [ho]⟩
  · rintro ⟨hk, r, hb, rfl⟩
    exact ⟨(key, r, t.objects r), (hrows _ _ _).mpr ⟨hk, hb, rfl⟩, rfl, rfl⟩

section Reads

variable {T : Type} {t₀ : Tables} {since pre : List (T × Tables)}

/-- Each key's row was there at some point, or was not. -/
def Seen (t₀ : Tables) (since pre : List (T × Tables)) (keys : List String)
    (rows : Dict String BoundObjectRow) : Prop :=
  ∀ key, ∃ mid, Between since pre mid ∧
    rows.get? key = if key ∈ keys then boundRow (latest t₀ mid) key else none

/-- Later chunks see later points. -/
theorem fetchAll_sees (chunks : List (List String)) (done : List String)
    (d : Dict String BoundObjectRow) (hsince : since <:+ pre) (hd : Seen t₀ since pre done d) :
    (fetchAll SqliteBackend.fetchBound chunks d).ensures (Sees Query.Does t₀) (fun out pre' =>
      ∃ rows, out = .ok rows ∧ Seen t₀ since pre' (done ++ chunks.flatten) rows) pre := by
  induction chunks generalizing done d pre with
  | nil => exact ⟨d, rfl, by simpa using hd⟩
  | cons chunk rest ih =>
    rintro rows pre' ⟨hpre, hdoes⟩
    have hmem := fetchBound_sees hdoes
    have hnow : Between since pre' pre' := ⟨hsince.trans hpre, List.suffix_rfl⟩
    rw [List.flatten_cons, ← List.append_assoc]
    refine ih _ _ hnow.1 ?_
    intro key
    rw [Dict.get?_foldl_set _ d (fun p hp => ((hmem p.1 p.2).mp hp).2)]
    by_cases hfound : key ∈ List.map Prod.fst
        (rows.map fun r => (r.1, (⟨r.2.1.1, r.2.1.2, r.2.2⟩ : BoundObjectRow)))
    · obtain ⟨⟨_, row⟩, hrow, rfl⟩ := List.mem_map.mp hfound
      obtain ⟨hk, hb⟩ := (hmem _ row).mp hrow
      refine ⟨pre', hnow, ?_⟩
      rw [if_pos hfound, if_pos (List.mem_append_right done hk)]
    · rw [if_neg hfound]
      obtain ⟨mid, hmid, hget⟩ := hd key
      by_cases hdone : key ∈ done
      · refine ⟨mid, ⟨hmid.1, hmid.2.trans hpre⟩, ?_⟩
        rw [hget, if_pos hdone, if_pos (List.mem_append_left chunk hdone)]
      · refine ⟨pre', hnow, ?_⟩
        rw [hget, if_neg hdone]
        by_cases hk : key ∈ chunk
        · -- a key of this chunk without a row is unbound at this point
          rw [if_pos (List.mem_append_right done hk)]
          cases hb : boundRow (latest t₀ pre') key with
          | none => rfl
          | some row => exact absurd (List.mem_map_of_mem ((hmem key row).mpr ⟨hk, hb⟩)) hfound
        · rw [if_neg (by simp [hdone, hk])]

theorem getBoundObjects_sees (keys : List String) :
    (SqliteBackend.getBoundObjects keys).ensures (Sees Query.Does t₀) (fun out pre' =>
      ∃ rows, out = .ok rows ∧ Seen t₀ since pre' keys rows) since := by
  have hempty : Seen t₀ since since [] Dict.empty := fun key =>
    ⟨since, ⟨List.suffix_rfl, List.suffix_rfl⟩, by simp⟩
  have h := fetchAll_sees (chunks keyQueryChunkSize keys) [] Dict.empty (List.suffix_refl since)
    hempty
  rwa [List.nil_append, chunks_flatten SqliteBackend.keyQueryChunkSize_pos] at h

end Reads

/-! ## Any number of calls -/

section Clients

variable {T : Type} {calls : T → Call} {t₀ : Tables} {t : T}

/-- What a call that has committed did. -/
def Ran (calls : T → Call) (t : T) (tables tables' : Tables) : Prop :=
  writes (calls t) = true ∧ ∃ reply, tables.Serves (calls t) (.ok reply) tables'

theorem serves_valid {tables tables' : Tables} {call : Call} {out : Except StoreError Reply}
    (hv : call.validate = .ok ()) :
    tables.Serves call out tables' ↔ tables.Answers call out ∧ tables' = tables.after call := by
  rw [Tables.Serves, hv]

theorem serves_returned {tables tables' : Tables} {call : Call} {reply : Reply}
    (h : tables.Serves call (.ok reply) tables') :
    call.validate = .ok () ∧ tables.Answers call (.ok reply) ∧ tables' = tables.after call := by
  cases hv : call.validate with
  | error e =>
    rw [Tables.Serves, hv] at h
    cases h.1
  | ok _ => exact ⟨rfl, (serves_valid hv).mp h⟩

theorem latest_replay {tables : Tables} {log pre : List (T × Tables)}
    (h : History (Ran calls) t₀ tables log) (hpre : pre <:+ log) :
    latest t₀ pre = replay calls t₀ (pre.map Prod.fst) := by
  refine (h.serial.suffix hpre).latest_eq ?_
  rintro _ _ _ ⟨_, _, hserves⟩
  exact (serves_returned hserves).2.2

/-- Every place of the order is one where its call went through. -/
theorem served {tables : Tables} {log : List (T × Tables)} {t : T} {pre : List T}
    (h : History (Ran calls) t₀ tables log) (hpre : t :: pre <:+ log.map Prod.fst) :
    writes (calls t) = true ∧ ∃ reply,
      (replay calls t₀ pre).Serves (calls t) (.ok reply) (replay calls t₀ (t :: pre)) := by
  obtain ⟨place, hlog, heq⟩ := List.suffix_map_iff.mp hpre
  cases place with
  | nil => cases heq
  | cons p place =>
    cases heq
    obtain ⟨hwrites, reply, hserves⟩ := serial_iff.mp h.serial p.1 p.2 place hlog
    rw [latest_replay h ((List.suffix_cons ..).trans hlog)] at hserves
    have hafter : p.2 = replay calls t₀ (p.1 :: place.map Prod.fst) := latest_replay h hlog
    exact ⟨hwrites, reply, hafter ▸ hserves⟩

/-- The reply of one point, by a call that is not on the log. -/
theorem placed_at {since order pre : List T} {out : Except StoreError Reply}
    (hnew : t ∉ order) (hpre : Between since order pre)
    (hserves : (replay calls t₀ pre).Serves (calls t) out (replay calls t₀ pre))
    (hw : ∀ reply, out = .ok reply → writes (calls t) = false) :
    Placed calls t₀ since order t (out.mapError some) := by
  cases out with
  | ok reply =>
    refine ⟨?_, fun _ => .inl ⟨pre, hpre, hserves⟩⟩
    intro hwrites
    rw [hw reply rfl] at hwrites
    cases hwrites
  | error e => exact ⟨hnew, pre, hpre, hserves⟩

variable [DecidableEq T] {s : Shared T Tables}

theorem wp_immediate {body : Program Reply} (hv : (calls t).validate = .ok ())
    (hw : writes (calls t) = true) (hbody : Fulfils (calls t) body) (hs : Free t s)
    (hnew : t ∉ s.log.map Prod.fst) :
    wp (system Query.Does) (histories (Ran calls) t₀) t (SqliteBackend.immediate body)
      (fun out s' => Placed calls t₀ (order s) (order s') t out) s := by
  refine wp_mono ?_ (wp_transact (P := fun (tables : Tables) out tables' =>
    tables.Answers (calls t) out ∧ leaves tables out tables' = tables.after (calls t))
    (fun tables => hbody tables)
    (fun _ reply _ h => ⟨hw, reply, (serves_valid hv).mpr h⟩) (just_ofExcept (.error none)) ?_ hs
    hnew)
  · intro out s' hhistory hended
    cases out with
    | ok reply =>
      obtain ⟨pre, tables, hsince, hlog, hanswers, _⟩ := hended
      refine ⟨fun _ => ⟨pre.map Prod.fst, hsince.map _, hlog.map Prod.fst, ?_⟩, ?_⟩
      · rw [← latest_replay hhistory ((List.suffix_cons ..).trans hlog), serves_valid hv]
        refine ⟨hanswers, ?_⟩
        rw [replay, List.foldr_cons, ← replay,
          ← latest_replay hhistory ((List.suffix_cons ..).trans hlog)]
      · intro hreads
        rw [hw] at hreads
        cases hreads
    | error e =>
      cases e with
      | none => trivial
      | some e =>
        obtain ⟨hnew, pre, tables, hsince, hlog, hanswers, hleaves⟩ := hended
        refine ⟨hnew, pre.map Prod.fst, ⟨hsince.map _, hlog.map _⟩, ?_⟩
        rw [← latest_replay hhistory hlog, serves_valid hv]
        exact ⟨hanswers, hleaves⟩
  · intro out
    cases out with
    | ok reply => exact just_ofExcept (.ok reply)
    | error e => exact just_rollback (just_ofExcept (.error e))

/-- What a call without a transaction is known to have replied. -/
theorem wp_reading {body : Program Reply}
    {P : Except StoreError Reply → List (T × Tables) → Prop}
    (hbody : body.ensures (Sees Query.Does t₀) P s.log) (hs : Free t s)
    (hnew : t ∉ s.log.map Prod.fst)
    (hplaced : ∀ out pre s', History (Ran calls) t₀ s'.committed s'.log → pre <:+ s'.log →
      t ∉ order s' → P out pre → Placed calls t₀ (order s) (order s') t (out.mapError some)) :
    wp (system Query.Does) (histories (Ran calls) t₀) t (SqliteBackend.reading body)
      (fun out s' => Placed calls t₀ (order s) (order s') t out) s := by
  refine wp_mono ?_ (wp_reads hbody hs List.suffix_rfl hnew)
  rintro _ s' hhistory (rfl | ⟨out, pre, rfl, hpre, hnew, hp⟩)
  · trivial
  · exact hplaced out pre s' hhistory hpre hnew hp

/-- A call of one query. -/
theorem wp_readingOne {q : Query} {f : QueryReply q → Except StoreError Reply}
    (hv : (calls t).validate = .ok ()) (hw : writes (calls t) = false)
    (hbody : Reports (calls t) (.exec q fun r => Prog.ofExcept (f r))) (hs : Free t s)
    (hnew : t ∉ s.log.map Prod.fst) :
    wp (system Query.Does) (histories (Ran calls) t₀) t
      (SqliteBackend.reading (.exec q fun r => Prog.ofExcept (f r)))
      (fun out s' => Placed calls t₀ (order s) (order s') t out) s := by
  refine wp_reading (ensures_sees (P := fun (tables : Tables) out tables' =>
    tables.Answers (calls t) out ∧ tables' = tables.after (calls t))
    fun tables => hbody tables) hs hnew ?_
  rintro o pre s' hhistory hpre hnew ⟨hsince, hanswers, hafter⟩
  refine placed_at hnew ⟨hsince.map Prod.fst, hpre.map Prod.fst⟩ ?_ fun _ _ => hw
  rw [← latest_replay hhistory hpre, serves_valid hv]
  exact ⟨hanswers, hafter⟩

/-- A key list of several chunks. -/
theorem wp_longList {keys : List String} (hcall : calls t = .getBoundObjects keys)
    (hlong : keyQueryChunkSize < keys.length) (hs : Free t s) (hnew : t ∉ s.log.map Prod.fst) :
    wp (system Query.Does) (histories (Ran calls) t₀) t
      (SqliteBackend.reading (do return .rows (← SqliteBackend.getBoundObjects keys)))
      (fun out s' => Placed calls t₀ (order s) (order s') t out) s := by
  refine wp_reading (P := fun out pre => ∃ rows, out = .ok (.rows rows) ∧
    Seen t₀ s.log pre keys rows) ?_ hs hnew ?_
  · refine Prog.ensures_after (fun rows pre => Seen t₀ s.log pre keys rows)
      (getBoundObjects_sees keys) ?_
    exact fun rows pre hseen => ⟨rows, rfl, hseen⟩
  · rintro _ pre s' hhistory hpre _ ⟨rows, rfl, hseen⟩
    have hw : writes (calls t) = false := by
      rw [hcall]
      rfl
    refine ⟨?_, fun _ => .inr ⟨keys, rows, hcall, rfl, hlong, ?_⟩⟩
    · intro hwrites
      rw [hw] at hwrites
      cases hwrites
    · intro key
      obtain ⟨mid, hmid, hget⟩ := hseen key
      refine ⟨mid.map Prod.fst, ⟨hmid.1.map _, (hmid.2.trans hpre).map _⟩, ?_⟩
      rw [hget, latest_replay hhistory (hmid.2.trans hpre)]

/-- A call of no query. -/
theorem wp_idle {o : Except StoreError Reply}
    (hserves : ∀ tables : Tables, tables.Serves (calls t) o tables)
    (hw : ∀ reply, o = .ok reply → writes (calls t) = false) (hnew : t ∉ s.log.map Prod.fst) :
    wp (system Query.Does) (histories (Ran calls) t₀) t (Prog.ofExcept (o.mapError some))
      (fun out s' => Placed calls t₀ (order s) (order s') t out) s := by
  refine wp_mono ?_ (just_ofExcept (o.mapError some) (fun log => s.log <:+ log ∧
    t ∉ log.map Prod.fst) s (suffix_stable.and unlogged_stable) ⟨List.suffix_rfl, hnew⟩)
  rintro _ s' _ ⟨rfl, hsince, hnew⟩
  exact placed_at hnew ⟨hsince.map _, List.suffix_rfl⟩ (hserves _) hw

/-- Every call has its place. -/
theorem wp_program (hs : Free t s) (hnew : t ∉ s.log.map Prod.fst) :
    wp (system Query.Does) (histories (Ran calls) t₀) t (SqliteBackend.program (calls t))
      (fun out s' => Placed calls t₀ (order s) (order s') t out) s := by
  cases hv : (calls t).validate with
  | error e =>
    have hserves : ∀ tables : Tables, tables.Serves (calls t) (.error e) tables := by
      intro tables
      rw [Tables.Serves, hv]
      exact ⟨rfl, rfl⟩
    unfold SqliteBackend.program
    simp only [hv]
    exact wp_idle hserves (fun _ h => by cases h) hnew
  | ok _ =>
    unfold SqliteBackend.program
    simp only [hv]
    cases hcall : calls t with
    | putObject schema contentHash canonical =>
      refine wp_immediate hv (by rw [hcall]; rfl) ?_ hs hnew
      rw [hcall]
      exact DrStore.Store.Sqlite.SqliteBackend.putObject_fulfils schema contentHash canonical
    | bind key schema contentHash =>
      refine wp_immediate hv (by rw [hcall]; rfl) ?_ hs hnew
      rw [hcall]
      exact insertThenRead_fulfils key schema contentHash
    | getObject schema contentHash =>
      refine wp_readingOne (q := .selectByHash schema contentHash) (f := fun r => .ok (.object r)) hv
        (by rw [hcall]; rfl) ?_ hs hnew
      rw [hcall]
      exact selectByHash_reports schema contentHash
    | getBinding key =>
      refine wp_readingOne (q := .selectBinding key) (f := fun r => .ok (.binding r)) hv
        (by rw [hcall]; rfl) ?_ hs hnew
      rw [hcall]
      exact selectBinding_reports key
    | getBoundObjects keys =>
      have hw : writes (calls t) = false := by rw [hcall]; rfl
      by_cases hnil : keys = []
      · subst hnil
        simp only [if_pos]
        refine wp_idle (o := .ok (.rows Dict.empty)) (fun tables => ?_) (fun _ _ => hw) hnew
        rw [serves_valid hv, hcall]
        exact ⟨⟨_, rfl, by simp⟩, rfl⟩
      · simp only [if_neg hnil]
        by_cases hlong : keyQueryChunkSize < keys.length
        · exact wp_longList hcall hlong hs hnew
        · have hone : (do return .rows (← SqliteBackend.getBoundObjects keys) : Program Reply) =
              .exec (.selectBound keys) fun r => Prog.ofExcept (.ok (.rows
                ((r.map fun p => (p.1, (⟨p.2.1.1, p.2.1.2, p.2.2⟩ : BoundObjectRow))).foldl
                  (fun d p => d.set p.1 p.2) Dict.empty))) := by
            rw [SqliteBackend.getBoundObjects, chunks_singleton hnil (Nat.not_lt.mp hlong)]
            rfl
          rw [hone]
          refine wp_readingOne hv hw ?_ hs hnew
          rw [← hone, hcall]
          exact SqliteBackend.getBoundObjects_reports keys
    | putBoundObjects entries =>
      by_cases hnil : entries = []
      · subst hnil
        simp only [if_pos]
        have hw : writes (calls t) = false := by rw [hcall]; rfl
        refine wp_idle (o := .ok (.outcomes Dict.empty)) (fun tables => ?_) (fun _ _ => hw) hnew
        rw [serves_valid hv, hcall]
        exact ⟨⟨_, rfl, by simp⟩, rfl⟩
      · simp only [if_neg hnil]
        refine wp_immediate hv (by rw [hcall]; simp [writes, hnil]) ?_ hs hnew
        rw [hcall]
        exact batch_fulfils (DrStore.Store.Sqlite.SqliteBackend.putBoundObjects_ensures entries)
    | deleteBindings keys =>
      by_cases hnil : keys = []
      · subst hnil
        simp only [if_pos]
        have hw : writes (calls t) = false := by rw [hcall]; rfl
        refine wp_idle (o := .ok (.deleted [])) (fun tables => ?_) (fun _ _ => hw) hnew
        rw [serves_valid hv, hcall]
        exact ⟨⟨_, rfl, by simp⟩, by simp [Tables.after]⟩
      · simp only [if_neg hnil]
        refine wp_immediate hv (by rw [hcall]; simp [writes, hnil]) ?_ hs hnew
        rw [hcall]
        exact DrStore.Store.Sqlite.SqliteBackend.deleteBindings_fulfils keys

/-- **Backends of any number of processes on one file are strictly serializable.** However many
calls there are, in whatever order their statements run, whichever raise and whoever dies: the
tables are those of the committed calls, each there once and a write that went through, one after
another; every reply is that of one place in this order, of its own place if the call writes, except that a
key list of several chunks may report rows of several places; an error of the store has left no
trace; and what begins after `c₁` comes after all that had committed by then. -/
theorem processes_serializable
    {c₁ c : Config T (Shared T Tables) (Op Query) (OpReply QueryReply) (Option StoreError) Reply}
    (h₁ : Reachable (system Query.Does) ⟨t₀, none, []⟩
      (fun t => SqliteBackend.program (calls t)) c₁)
    (h : Relation.ReflTransGen (Step (system Query.Does)) c₁ c) :
    c.state.committed = replay calls t₀ (order c.state) ∧ (order c.state).Nodup ∧
    (∀ t pre, t :: pre <:+ order c.state → writes (calls t) = true ∧ ∃ reply,
      (replay calls t₀ pre).Serves (calls t) (.ok reply) (replay calls t₀ (t :: pre))) ∧
    order c₁.state <:+ order c.state ∧
    ∀ t out, c₁.prog t = some (SqliteBackend.program (calls t)) →
      c.prog t = some (.ofExcept out) →
        Placed calls t₀ (order c₁.state) (order c.state) t out := by
  obtain ⟨hhistory, hlog, hplaced⟩ := later_history
    (Q := fun t since out log => Placed calls t₀ (since.map Prod.fst) (log.map Prod.fst) t out)
    (fun t s _ hs hnew => wp_program hs hnew) h₁ h
  refine ⟨?_, hhistory.once, fun t pre => served hhistory, hlog.map _, hplaced⟩
  rw [hhistory.committed]
  exact latest_replay hhistory List.suffix_rfl

end Clients

/-! ### One process after another -/

def sampleHash : String := "e3b0c44298fc1c149afbf4c8996fb92427ae41e4649b934ca495991b7852b855"

/-- Two processes bind one key. -/
def sampleCalls (first : Bool) : Call := .bind "k" (if first then "result" else "other") sampleHash

theorem sample_program (first : Bool) : SqliteBackend.program (sampleCalls first) =
    SqliteBackend.immediate (do
      return .bind (← SqliteBackend.bind "k" (if first then "result" else "other") sampleHash)) := by
  have hvalid : (sampleCalls first).validate = .ok () := by cases first <;> rfl
  unfold SqliteBackend.program
  simp only [hvalid]
  rfl

/-- The second begins after the first has returned, and finds what it bound. -/
theorem sample_serializable :
    ∃ c : Config Bool (Shared Bool Tables) (Op Query) (OpReply QueryReply) (Option StoreError) Reply,
      c.prog false = some (.pure (.bind ⟨false, "result", sampleHash⟩)) ∧
        c.state.committed = replay sampleCalls Tables.empty [false, true] := by
  have h0 : Reachable (system Query.Does) ⟨Tables.empty, none, []⟩
      (fun t => SqliteBackend.program (sampleCalls t)) (start _ _) := .refl
  have h1 := h0.exec (t := true) (r := true) (congrArg some (sample_program true))
    (.inl ⟨rfl, rfl, rfl⟩)
  have h2 := h1.exec (t := true) (r := some true) rfl
    (.inl ⟨_, _, rfl, .inl ⟨true, rfl, rfl, rfl⟩, rfl⟩)
  have h3 := h2.exec (t := true) (r := some (some ("result", sampleHash))) rfl
    (.inl ⟨_, _, rfl, .inl ⟨some ("result", sampleHash), rfl, rfl, rfl⟩, rfl⟩)
  have h4 := h3.exec (t := true) (r := true) rfl (.inl ⟨_, rfl, .inl rfl⟩)
  have h5 := h4.exec (t := false) (r := true) (congrArg some (sample_program false))
    (.inl ⟨rfl, rfl, rfl⟩)
  have h6 := h5.exec (t := false) (r := some false) rfl
    (.inl ⟨_, _, rfl, .inl ⟨false, rfl, rfl, rfl⟩, rfl⟩)
  have h7 := h6.exec (t := false) (r := some (some ("result", sampleHash))) rfl
    (.inl ⟨_, _, rfl, .inl ⟨some ("result", sampleHash), rfl, rfl, rfl⟩, rfl⟩)
  have h8 := h7.exec (t := false) (r := true) rfl (.inl ⟨_, rfl, .inl rfl⟩)
  exact ⟨_, rfl, (processes_serializable h8 .refl).1⟩

end DrStore.Store.Processes
