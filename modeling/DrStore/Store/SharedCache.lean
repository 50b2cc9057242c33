import DrStore.Store.FirstWriter
import DrStore.Store.Processes

/-! # Record caches of many processes (record_cache/cache.py on storage_backends/sqlite.py)

Any number of caches work on one database file. A call makes at most one call of its backend, which
has its place in the history of the file; so has the call of the cache, and what it returns is what
the keys hold at that place: the first entry since their last eviction, whichever process offered
it. -/
namespace DrStore.Store.SharedCache
open DrStore.Base.Collections DrStore.Base.Exclusive DrStore.Base.Fallible DrStore.Base.Histories
open DrStore.Base.Pool DrStore.Base.Programs
open DrStore.Store.ContentAddressing DrStore.Store.Contract DrStore.Store.FirstWriter
open DrStore.Store.Immutability DrStore.Store.ObjectStore DrStore.Store.Processes
open DrStore.Store.RecordCache DrStore.Store.Sqlite
open DrStore.Store.Statements (Query QueryReply)

variable {D : DrSerialize}

/-! ## Plans -/

/-- A call after its checks: done, or one backend call and what to make of its reply, with the
count of corrupt rows. -/
inductive CachePlan (D : DrSerialize) where
  | done (result : CacheResult D)
  | ask (call : Call) (finish : Nat → Reply → Nat × Except StoreError (CacheResult D))

/-- What `_get_many` makes of the rows. -/
def readReply (validatedSchema : String) (keys : List String)
    (finish : Dict String (Option D.Jsonable) → Except StoreError (CacheResult D)) (count : Nat) :
    Reply → Nat × Except StoreError (CacheResult D)
  | .rows rows =>
    let (count', out) := readRows validatedSchema rows keys count Dict.empty
    (count', out.bind finish)
  | _ => (count, .error .assertionError)

/-- `_get_many`, and `get_bound_objects` of the store. -/
def readPlan (keys : List String) (schema : String)
    (finish : Dict String (Option D.Jsonable) → Except StoreError (CacheResult D)) :
    Except StoreError (CachePlan D) := do
  let validatedSchema ← validateReferenceSchema schema
  validateKeys keys
  validateKeys keys.eraseDups
  return .ask (.getBoundObjects keys.eraseDups) (readReply validatedSchema keys finish)

/-- A call of the store below, and what to make of its result. -/
def storePlan (finish : Result D → Except StoreError (CacheResult D)) :
    Plan D → Except StoreError (CachePlan D)
  | .done result => return .done (← finish result)
  | .ask call answer => return .ask call fun count reply => (count, (answer reply).bind finish)

def cachePlan : CacheOp D → Except StoreError (CachePlan D)
  | .get key schema => readPlan [key] schema fun hits => do return .get (← subscript hits key)
  | .getMany keys schema => readPlan keys.eraseDups schema fun hits => return .getMany hits
  | .put key schema record =>
    (ObjectStore.putMany (Dict.empty.set key (schema, record))).bind (storePlan fun
      | .putMany winners => do return .put (← subscript winners key)
      | _ => .error .assertionError)
  | .putMany entries => (ObjectStore.putMany entries).bind (storePlan fun
      | .putMany winners => return .putMany winners
      | _ => .error .assertionError)
  | .evictBindings keys => (ObjectStore.evictBindings keys).bind (storePlan fun
      | .evictBindings statuses => return .evictBindings statuses
      | _ => .error .assertionError)

theorem readPlan_ok {keys : List String} {schema : String}
    {finish : Dict String (Option D.Jsonable) → Except StoreError (CacheResult D)}
    {p : CachePlan D} (h : readPlan keys schema finish = .ok p) :
    p = .ask (.getBoundObjects keys.eraseDups) (readReply schema keys finish) := by
  obtain ⟨validatedSchema, hschema, h⟩ := bind_ok h
  obtain ⟨_, _, h⟩ := bind_ok h
  obtain ⟨_, _, h⟩ := bind_ok h
  cases pure_ok h
  rw [validateReferenceSchema] at hschema
  split at hschema
  · cases hschema
    rfl
  · cases hschema

/-! ### A plan on a backend of its own -/

def CachePlan.perform (B : Backend) (c : Cache B) (fault : Fault) :
    CachePlan D → Cache B × Except StoreError (CacheResult D)
  | .done result => (c, .ok result)
  | .ask call finish => match ObjectStore.ask B c.store call fault with
    | (s, .error e) => ({ c with store := s }, .error e)
    | (s, .ok reply) =>
      (⟨s, (finish c.corruptionCount reply).1⟩, (finish c.corruptionCount reply).2)

/-- What a checked call comes to on a backend of its own. -/
def performed (B : Backend) (c : Cache B) (fault : Fault) :
    Except StoreError (CachePlan D) → Cache B × Except StoreError (CacheResult D)
  | .error e => (c, .error e)
  | .ok p => p.perform B c fault

section Alone

variable (B : Backend) (c : Cache B) (fault : Fault)

theorem readPlan_performed (keys : List String) (schema : String)
    (finish : Dict String (Option D.Jsonable) → Except StoreError (CacheResult D)) :
    performed B c fault (readPlan keys schema finish) =
      ((@readMany D B c keys schema fault).1, (readMany B c keys schema fault).2.bind finish) := by
  unfold readPlan readMany getBoundObjects
  cases validateReferenceSchema schema with
  | error e => rfl
  | ok validatedSchema =>
    simp only [ok_bind]
    cases validateKeys keys with
    | error e => rfl
    | ok _ =>
      simp only [ok_bind]
      cases validateKeys keys.eraseDups with
      | error e => rfl
      | ok _ =>
        simp only [ok_bind, pure, Except.pure, performed, CachePlan.perform]
        generalize ObjectStore.ask B c.store (.getBoundObjects keys.eraseDups)
          fault = asked
        obtain ⟨s, out⟩ := asked
        cases out with
        | error e => rfl
        | ok reply => cases reply <;> rfl

theorem storePlan_performed (op : Op D) (finish : Result D → Except StoreError (CacheResult D)) :
    performed B c fault ((plan op).bind (storePlan finish)) = storeCall B c op fault finish := by
  simp only [storeCall, ObjectStore.step]
  cases plan op with
  | error e => rfl
  | ok p =>
    cases p with
    | done result =>
      show performed B c fault (do return .done (← finish result)) = ({ c with store := c.store }, _)
      cases hfinish : finish result with
      | error e => simp [performed, hfinish, Except.bind]
      | ok result' => simp [performed, CachePlan.perform, hfinish, Except.bind]
    | ask call answer =>
      show CachePlan.perform B c fault
        (.ask call fun count reply => (count, (answer reply).bind finish)) = _
      simp only [CachePlan.perform]
      generalize ObjectStore.ask B c.store call fault = asked
      obtain ⟨s, out⟩ := asked
      cases out with
      | error e => rfl
      | ok reply => rfl

/-- **The plans are what the cache does** on a backend of its own. -/
theorem cacheStep_plan (e : CacheEvent D) :
    cacheStep B c e = performed B c e.fault (cachePlan e.op) := by
  obtain ⟨op, fault⟩ := e
  cases op with
  | get key schema =>
    simp only [cacheStep, cachePlan, readPlan_performed]
    rfl
  | getMany keys schema =>
    simp only [cacheStep, cachePlan, readPlan_performed]
    rfl
  | put key schema record =>
    exact (storePlan_performed B c fault (.putMany (Dict.empty.set key (schema, record))) _).symm
  | putMany entries => exact (storePlan_performed B c fault (.putMany entries) _).symm
  | evictBindings keys => exact (storePlan_performed B c fault (.evictBindings keys) _).symm

end Alone

/-! ## In a process -/

/-- The backend call of a cache call; a call without one reads nothing. -/
def backendCall (op : CacheOp D) : Call := match cachePlan op with
  | .ok (.ask call _) => call
  | _ => .getBoundObjects []

/-- A call of a cache in a process, and how many rows it has counted as corrupt. -/
def program (op : CacheOp D) : Script (CacheResult D × Nat) := match cachePlan op with
  | .error e => .fail (some e)
  | .ok (.done result) => .pure (result, 0)
  | .ok (.ask call finish) => Processes.SqliteBackend.program call >>= fun reply =>
    .ofExcept (((finish 0 reply).2.map fun result => (result, (finish 0 reply).1)).mapError some)

section Orders

variable {T : Type} (ops : T → CacheOp D)

/-- What a key holds after these calls, the last one first. -/
def held (order : List T) (key : String) : Option (String × D.Jsonable) :=
  firstWriter key (order.map ops).reverse

theorem held_cons (t : T) (order : List T) (key : String) :
    held ops (t :: order) key = hold key (held ops order key) (ops t) := by
  simp [held, firstWriter, List.foldl_append]

/-- What a call returns that began after `since`. One that writes has a place of its own; a `get`
sees one place, and a `get_many` of several chunks may see several. -/
def Answered (since order : List T) (t : T) : CacheOp D → CacheResult D → Prop
  | .get key schema, .get hit => ∃ pre, Between since order pre ∧
      hit = hitFor schema (held ops pre key)
  | .getMany keys schema, .getMany hits => (∀ key, key ∈ hits.keys ↔ key ∈ keys) ∧
      (∀ key ∈ keys, ∃ pre, Between since order pre ∧
        hits.get? key = some (hitFor schema (held ops pre key))) ∧
      (keys.eraseDups.length ≤ keyQueryChunkSize → ∃ pre, Between since order pre ∧
        ∀ key ∈ keys, hits.get? key = some (hitFor schema (held ops pre key)))
  | .put key _ _, .put reference => ∃ pre, since <:+ pre ∧ t :: pre <:+ order ∧
      ∃ entry, held ops (t :: pre) key = some entry ∧ RefersTo D reference entry
  | .putMany entries, .putMany winners => entries.keys ≠ [] → ∃ pre, since <:+ pre ∧
      t :: pre <:+ order ∧ ∀ key ∈ entries.keys, ∃ entry reference,
        held ops (t :: pre) key = some entry ∧ RefersTo D reference entry ∧
          winners.get? key = some reference
  | .evictBindings keys, .evictBindings statuses => keys ≠ [] → ∃ pre, since <:+ pre ∧
      t :: pre <:+ order ∧ ∀ key ∈ keys, statuses.get? key =
        some (if (held ops pre key).isSome then .evicted else .absent)
  | _, _ => False

/-- How a call ends: it returns and has counted nothing; it raises an error of its own, and has
left no trace; or the database raised. -/
def Ended (since order : List T) (t : T) :
    Except (Option StoreError) (CacheResult D × Nat) → Prop
  | .ok (result, counted) => counted = 0 ∧ Answered ops since order t (ops t) result
  | .error (some _) => t ∉ order
  | .error none => True

end Orders

theorem Answered.grow {T : Type} {ops : T → CacheOp D} {since order order' : List T} {t : T}
    {op : CacheOp D} {result : CacheResult D} (h : Answered ops since order t op result)
    (horder : order <:+ order') : Answered ops since order' t op result := by
  cases op with
  | get key schema =>
    cases result with
    | get hit =>
      obtain ⟨pre, hpre, hhit⟩ := h
      exact ⟨pre, ⟨hpre.1, hpre.2.trans horder⟩, hhit⟩
    | getMany | put | putMany | evictBindings => exact h.elim
  | getMany keys schema =>
    cases result with
    | getMany hits =>
      obtain ⟨hkeys, heach, hone⟩ := h
      refine ⟨hkeys, fun key hkey => ?_, fun hshort => ?_⟩
      · obtain ⟨pre, hpre, hhit⟩ := heach key hkey
        exact ⟨pre, ⟨hpre.1, hpre.2.trans horder⟩, hhit⟩
      · obtain ⟨pre, hpre, hhits⟩ := hone hshort
        exact ⟨pre, ⟨hpre.1, hpre.2.trans horder⟩, hhits⟩
    | get | put | putMany | evictBindings => exact h.elim
  | put key schema record =>
    cases result with
    | put reference =>
      obtain ⟨pre, hsince, hplace, hentry⟩ := h
      exact ⟨pre, hsince, hplace.trans horder, hentry⟩
    | get | getMany | putMany | evictBindings => exact h.elim
  | putMany entries =>
    cases result with
    | putMany winners =>
      intro hnonempty
      obtain ⟨pre, hsince, hplace, hentries⟩ := h hnonempty
      exact ⟨pre, hsince, hplace.trans horder, hentries⟩
    | get | getMany | put | evictBindings => exact h.elim
  | evictBindings keys =>
    cases result with
    | evictBindings statuses =>
      intro hnonempty
      obtain ⟨pre, hsince, hplace, hstatuses⟩ := h hnonempty
      exact ⟨pre, hsince, hplace.trans horder, hstatuses⟩
    | get | getMany | put | putMany => exact h.elim

/-! ## The map in the history -/

section Tables

variable {T : Type} {ops : T → CacheOp D} {tables : Tables} {log : List (T × Tables)}

abbrev calls (ops : T → CacheOp D) (t : T) : Call := backendCall (ops t)

/-- What the keys hold after a batch that went through, in the tables it left. -/
theorem agrees_putMany {held : String → Option (String × D.Jsonable)} {before after : Tables}
    (h : Agrees D before held) {entries : Dict String (String × D.Jsonable)}
    {writes : List BoundObjectWrite} (hwrites : prepareWrites entries.items = .ok writes)
    {reply : Reply} (hserves : before.Serves (.putBoundObjects writes) (.ok reply) after) :
    Agrees D after fun key => (held key).or (offered entries key) := by
  obtain ⟨_, hanswers, rfl⟩ := serves_returned hserves
  rw [Tables.Answers] at hanswers
  split at hanswers
  · rename_i hcompatible
    rw [Tables.after, if_pos hcompatible]
    exact fun key => holds_batch hwrites hcompatible (h key)
  · obtain ⟨_, _, hconflict⟩ := hanswers
    cases hconflict

/-- A call that writes changes what the keys hold as it should. -/
theorem agrees_write {held : String → Option (String × D.Jsonable)} {before after : Tables}
    (h : Agrees D before held) {op : CacheOp D} (hwrites : writes (backendCall op) = true)
    {reply : Reply} (hserves : before.Serves (backendCall op) (.ok reply) after) :
    Agrees D after fun key => hold key (held key) op := by
  have hputMany : ∀ (entries : Dict String (String × D.Jsonable))
      (finish : Result D → Except StoreError (CacheResult D)),
      cachePlan op = (ObjectStore.putMany entries).bind (storePlan finish) →
      Agrees D after fun key => (held key).or (offered entries key) := by
    intro entries finish hplan
    cases hput : ObjectStore.putMany entries with
    | error e =>
      rw [backendCall, hplan, hput] at hwrites
      cases hwrites
    | ok p =>
      obtain ⟨rows, hrows, rfl⟩ := putMany_ok hput
      rw [backendCall, hplan, hput] at hserves
      exact agrees_putMany h hrows hserves
  have hreads : ∀ {keys : List String} {schema : String}
      {finish : Dict String (Option D.Jsonable) → Except StoreError (CacheResult D)},
      cachePlan op = readPlan keys schema finish → False := by
    intro keys schema finish hplan
    rw [backendCall, hplan] at hwrites
    split at hwrites
    · rename_i hread
      cases readPlan_ok hread
      cases hwrites
    · cases hwrites
  cases op with
  | get key schema => exact (hreads rfl).elim
  | getMany keys schema => exact (hreads rfl).elim
  | put key schema record => exact hputMany _ _ rfl
  | putMany entries => exact hputMany _ _ rfl
  | evictBindings keys =>
    cases hevict : (ObjectStore.evictBindings keys : Except StoreError (Plan D)) with
    | error e =>
      rw [backendCall, cachePlan, hevict] at hwrites
      cases hwrites
    | ok p =>
      obtain ⟨_, rfl⟩ | ⟨_, rfl⟩ := evictBindings_ok hevict
      · rw [backendCall, cachePlan, hevict] at hwrites
        cases hwrites
      · rw [backendCall, cachePlan, hevict] at hserves
        obtain ⟨_, _, rfl⟩ := serves_returned hserves
        exact holds_evicted h keys

/-- **At every place of the order the tables hold the map.** -/
theorem agrees_replay (h : History (Ran (calls ops)) Tables.empty tables log) {pre : List T}
    (hpre : pre <:+ log.map Prod.fst) :
    Agrees D (replay (calls ops) Tables.empty pre) (held ops pre) := by
  induction pre with
  | nil => exact fun _ => rfl
  | cons t pre ih =>
    obtain ⟨hwrites, reply, hserves⟩ := served h hpre
    have hagrees := agrees_write (ih ((List.suffix_cons ..).trans hpre)) hwrites hserves
    intro key
    rw [held_cons]
    exact hagrees key

/-- Objects stay. -/
theorem replay_objects {pre order : List T} (h : pre <:+ order) {row : RowKey} {canonical : String}
    (hrow : (replay (calls ops) Tables.empty pre).objects row = some canonical) :
    (replay (calls ops) Tables.empty order).objects row = some canonical := by
  induction order with
  | nil =>
    rw [List.suffix_nil.mp h] at hrow
    exact hrow
  | cons t order ih =>
    rcases List.suffix_cons_iff.mp h with rfl | h
    · exact hrow
    · show (Tables.after (replay (calls ops) Tables.empty order) (calls ops t)).objects row = _
      rcases Tables.after_objects (replay (calls ops) Tables.empty order) (calls ops t) with
        hsame | hfill
      · rw [hsame]
        exact ih h
      · rw [hfill, fill_apply, ih h]
        rfl

/-- Rows that were each seen at a place of the order read as what the keys hold there. Objects stay,
so they are the rows of one table. -/
theorem readRows_places (hD : D.Lawful) (h : History (Ran (calls ops)) Tables.empty tables log)
    (schema : String) {keys : List String} {rows : Dict String BoundObjectRow}
    {place : String → List T} (hplace : ∀ key ∈ keys, place key <:+ log.map Prod.fst)
    (hrows : ∀ key ∈ keys, rows.get? key =
      boundRow (replay (calls ops) Tables.empty (place key)) key) (count : Nat) :
    ∃ hits, readRows schema rows keys count Dict.empty = (count, .ok hits) ∧ ∀ key,
      hits.get? key =
        if key ∈ keys then some (hitFor schema (held ops (place key) key)) else none := by
  classical
  let seen : Tables := ⟨(replay (calls ops) Tables.empty (log.map Prod.fst)).objects, fun key =>
    if key ∈ keys then (replay (calls ops) Tables.empty (place key)).bindings key else none⟩
  let found (key : String) := if key ∈ keys then held ops (place key) key else none
  have hstored : ∀ key ∈ keys, ∀ row,
      (replay (calls ops) Tables.empty (place key)).bindings key = some row →
      (replay (calls ops) Tables.empty (place key)).objects row = seen.objects row := by
    intro key hkey row hrow
    obtain ⟨entry, reference, _, hstored, rfl⟩ := (agrees_replay h (hplace key hkey) key).bound hrow
    obtain ⟨_, _, _, canonical, _, _, hobject⟩ := hstored
    rw [hobject]
    exact (replay_objects (hplace key hkey) hobject).symm
  have hagrees : Agrees D seen found := by
    intro key
    by_cases hkey : key ∈ keys
    · have hbindings : seen.bindings key =
          (replay (calls ops) Tables.empty (place key)).bindings key := if_pos hkey
      have hthere := agrees_replay h (hplace key hkey) key
      have hfound : found key = held ops (place key) key := if_pos hkey
      rw [hfound]
      cases hheld : held ops (place key) key with
      | none =>
        rw [hheld] at hthere
        exact hbindings.trans hthere
      | some entry =>
        rw [hheld] at hthere
        obtain ⟨reference, hschema, hbound, record, canonical, henc, hhash, hobject⟩ := hthere
        refine ⟨reference, hschema, hbindings.trans hbound, record, canonical, henc, hhash, ?_⟩
        exact (hstored key hkey _ hbound).symm.trans hobject
    · have hfound : found key = none := if_neg hkey
      rw [hfound]
      exact if_neg hkey
  have hseen : ∀ key ∈ keys, rows.get? key = boundRow seen key := by
    intro key hkey
    have hbindings : seen.bindings key =
        (replay (calls ops) Tables.empty (place key)).bindings key := if_pos hkey
    rw [hrows key hkey, boundRow, boundRow, hbindings]
    cases hrow : (replay (calls ops) Tables.empty (place key)).bindings key with
    | none => rfl
    | some row => rw [Option.map_some, Option.map_some, hstored key hkey row hrow]
  obtain ⟨hits, hrun, hhits⟩ :=
    @readRows_ok D hD seen found hagrees schema rows keys hseen count Dict.empty
  refine ⟨hits, hrun, fun key => ?_⟩
  rw [hhits]
  by_cases hkey : key ∈ keys
  · simp [hkey, found]
  · simp [hkey]

/-! ## The results -/

variable {since : List T} {t : T} {reply : Reply}

/-- What a read makes of its reply. -/
theorem read_returns (hD : D.Lawful) (h : History (Ran (calls ops)) Tables.empty tables log)
    {keys : List String} (schema : String)
    (finish : Dict String (Option D.Jsonable) → Except StoreError (CacheResult D))
    (hcall : calls ops t = .getBoundObjects keys.eraseDups)
    (hplaced : Placed (calls ops) Tables.empty since (log.map Prod.fst) t (.ok reply)) :
    ∃ (place : String → List T) (hits : Dict String (Option D.Jsonable)),
      (∀ key, Between since (log.map Prod.fst) (place key)) ∧
      (keys.eraseDups.length ≤ keyQueryChunkSize → ∃ pre, place = fun _ => pre) ∧
      readReply schema keys finish 0 reply = (0, finish hits) ∧ ∀ key,
        hits.get? key =
          if key ∈ keys then some (hitFor schema (held ops (place key) key)) else none := by
  have hreads : writes (calls ops t) = false := by
    rw [hcall]
    rfl
  have hfound : ∃ (place : String → List T) (rows : Dict String BoundObjectRow),
      reply = .rows rows ∧ (∀ key, Between since (log.map Prod.fst) (place key)) ∧
      (keys.eraseDups.length ≤ keyQueryChunkSize → ∃ pre, place = fun _ => pre) ∧
      ∀ key ∈ keys, rows.get? key = boundRow (replay (calls ops) Tables.empty (place key)) key := by
    obtain ⟨pre, hpre, hserves⟩ | ⟨keys', rows, hcall', rfl, hlong, heach⟩ := hplaced.2 hreads
    · rw [hcall] at hserves
      obtain ⟨_, ⟨rows, hreply, hget⟩, _⟩ := serves_returned hserves
      cases hreply
      refine ⟨fun _ => pre, rows, rfl, fun _ => hpre, fun _ => ⟨pre, rfl⟩, fun key hkey => ?_⟩
      rw [hget, if_pos (List.mem_eraseDups.mpr hkey)]
      rfl
    · rw [hcall] at hcall'
      cases hcall'
      choose place hplace using heach
      refine ⟨place, rows, rfl, fun key => (hplace key).1, fun hshort => ?_, fun key hkey => ?_⟩
      · exact absurd hlong (Nat.not_lt.mpr hshort)
      · rw [(hplace key).2, if_pos (List.mem_eraseDups.mpr hkey)]
  obtain ⟨place, rows, rfl, hplace, hone, hrows⟩ := hfound
  obtain ⟨hits, hrun, hhits⟩ := readRows_places hD h schema
    (fun key _ => (hplace key).2) hrows 0
  refine ⟨place, hits, hplace, hone, ?_, hhits⟩
  simp only [readReply, hrun]
  rfl

/-- Whether a call writes or not, its reply was an answer somewhere. -/
theorem placed_serves {order : List T}
    (hplaced : Placed (calls ops) Tables.empty since order t (.ok reply))
    (hcall : ∀ keys, calls ops t ≠ .getBoundObjects keys) :
    ∃ before after : Tables, before.Serves (calls ops t) (.ok reply) after := by
  cases hwrites : writes (calls ops t) with
  | true =>
    obtain ⟨_, _, _, hserves⟩ := hplaced.1 hwrites
    exact ⟨_, _, hserves⟩
  | false =>
    obtain ⟨_, _, hserves⟩ | ⟨keys, _, hlong, _⟩ := hplaced.2 hwrites
    · exact ⟨_, _, hserves⟩
    · exact absurd hlong (hcall keys)

/-- What a batch makes of its reply. -/
theorem putMany_returns (h : History (Ran (calls ops)) Tables.empty tables log)
    {entries : Dict String (String × D.Jsonable)} {rows : List BoundObjectWrite}
    (hrows : prepareWrites entries.items = .ok rows)
    (hcall : calls ops t = .putBoundObjects rows)
    (hplaced : Placed (calls ops) Tables.empty since (log.map Prod.fst) t (.ok reply)) :
    ∃ (outcomes : Dict String BindOutcome) (winners : Dict String ObjectReference),
      reply = .outcomes outcomes ∧ ObjectStore.winners outcomes.items Dict.empty = .ok winners ∧
      (entries.keys ≠ [] → ∃ pre, since <:+ pre ∧ t :: pre <:+ log.map Prod.fst ∧
        ∀ key ∈ entries.keys, ∃ entry reference, held ops (t :: pre) key = some entry ∧
          RefersTo D reference entry ∧ winners.get? key = some reference) := by
  have hkeys := prepareWrites_keys hrows
  by_cases hempty : entries.keys = []
  · have hnil : rows = [] := List.map_eq_nil_iff.mp (hkeys.trans hempty)
    subst hnil
    obtain ⟨before, after, hserves⟩ := placed_serves hplaced fun keys heq => by
      rw [hcall] at heq
      cases heq
    rw [hcall] at hserves
    obtain ⟨_, ⟨outcomes, hreply, hget⟩, _⟩ := serves_returned hserves
    cases hreply
    have hitems : outcomes.items = [] := by
      refine List.eq_nil_iff_forall_not_mem.mpr fun item hitem => ?_
      have hnone := hget item.1
      rw [Dict.get?_eq_some.mpr hitem] at hnone
      cases hnone
    refine ⟨outcomes, Dict.empty, rfl, ?_, fun hnonempty => absurd hempty hnonempty⟩
    rw [hitems]
    rfl
  · have hwrites : writes (calls ops t) = true := by
      rw [hcall]
      cases rows with
      | nil => exact absurd hkeys.symm hempty
      | cons row rows => rfl
    obtain ⟨pre, hsince, hplace, hserves⟩ := hplaced.1 hwrites
    have hagrees := agrees_replay h hplace
    rw [hcall] at hserves
    obtain ⟨_, hanswers, hafter⟩ := serves_returned hserves
    rw [Tables.Answers] at hanswers
    split at hanswers
    · rename_i hcompatible
      obtain ⟨outcomes, hreply, hget⟩ := hanswers
      cases hreply
      rw [Tables.after, if_pos hcompatible] at hafter
      have hbindings : (replay (calls ops) Tables.empty (t :: pre)).bindings =
          Tables.bindingsAfter (replay (calls ops) Tables.empty pre) rows := by rw [hafter]
      have hbound : ∀ key ∈ rows.map BoundObjectWrite.key,
          ((replay (calls ops) Tables.empty (t :: pre)).bindings key).isSome = true := by
        intro key hkey
        rw [hbindings]
        refine fill_isSome.mpr (.inr ?_)
        rw [bindingPairs, List.map_map]
        exact hkey
      obtain ⟨winners, hwinners, hrefs⟩ :=
        batch_winners hagrees (by rw [hbindings]; exact hget) hbound
      rw [hkeys] at hrefs
      exact ⟨outcomes, winners, rfl, hwinners, fun _ => ⟨pre, hsince, hplace, hrefs⟩⟩
    · obtain ⟨_, _, hconflict⟩ := hanswers
      cases hconflict

/-- What an eviction makes of its reply. -/
theorem evictBindings_returns (h : History (Ran (calls ops)) Tables.empty tables log)
    {keys : List String} (hcall : calls ops t = .deleteBindings keys.eraseDups)
    (hplaced : Placed (calls ops) Tables.empty since (log.map Prod.fst) t (.ok reply)) :
    ∃ deleted : List String, reply = .deleted deleted ∧
      (keys ≠ [] → ∃ pre, since <:+ pre ∧ t :: pre <:+ log.map Prod.fst ∧
        ∀ key ∈ keys, (key ∈ deleted ↔ (held ops pre key).isSome = true)) := by
  obtain ⟨before, after, hserves⟩ := placed_serves hplaced fun keys heq => by
    rw [hcall] at heq
    cases heq
  rw [hcall] at hserves
  obtain ⟨_, ⟨deleted, hreply, _⟩, _⟩ := serves_returned hserves
  cases hreply
  refine ⟨deleted, rfl, fun hnonempty => ?_⟩
  have hwrites : writes (calls ops t) = true := by
    obtain ⟨key, hkey⟩ := List.exists_mem_of_ne_nil keys hnonempty
    rw [hcall]
    simpa [writes] using List.ne_nil_of_mem (List.mem_eraseDups.mpr hkey)
  obtain ⟨pre, hsince, hplace, hserves⟩ := hplaced.1 hwrites
  have hagrees := agrees_replay h ((List.suffix_cons ..).trans hplace)
  rw [hcall] at hserves
  obtain ⟨_, ⟨deleted', hreply, hdeleted⟩, _⟩ := serves_returned hserves
  cases hreply
  refine ⟨pre, hsince, hplace, fun key hkey => ?_⟩
  rw [hdeleted]
  have hthere := hagrees key
  cases hheld : held ops pre key with
  | none =>
    rw [hheld] at hthere
    rw [show (replay (calls ops) Tables.empty pre).bindings key = none from hthere]
    simp
  | some entry =>
    rw [hheld] at hthere
    obtain ⟨reference, _, hbound, _⟩ := hthere
    rw [hbound]
    simp [hkey]

/-- A call that is done without its backend asked for nothing. -/
theorem done_answered {order : List T} {result : CacheResult D}
    (hplan : cachePlan (ops t) = .ok (.done result)) :
    Answered ops since order t (ops t) result := by
  cases hop : ops t with
  | get key schema =>
    rw [hop] at hplan
    cases readPlan_ok hplan
  | getMany keys schema =>
    rw [hop] at hplan
    cases readPlan_ok hplan
  | put key schema record =>
    rw [hop] at hplan
    obtain ⟨p, hput, hplan⟩ := bind_ok hplan
    obtain ⟨rows, _, rfl⟩ := putMany_ok hput
    cases pure_ok hplan
  | putMany entries =>
    rw [hop] at hplan
    obtain ⟨p, hput, hplan⟩ := bind_ok hplan
    obtain ⟨rows, _, rfl⟩ := putMany_ok hput
    cases pure_ok hplan
  | evictBindings keys =>
    rw [hop] at hplan
    obtain ⟨p, hevict, hplan⟩ := bind_ok hplan
    obtain ⟨hnone, rfl⟩ | ⟨_, rfl⟩ := evictBindings_ok hevict
    · cases pure_ok hplan
      intro hnonempty
      obtain ⟨key, hkey⟩ := List.exists_mem_of_ne_nil keys hnonempty
      exact absurd hkey (hnone key)
    · cases pure_ok hplan

/-- **A call whose backend call has its place returns what the keys hold there.** -/
theorem returns_placed (hD : D.Lawful) (h : History (Ran (calls ops)) Tables.empty tables log)
    {call : Call} {finish : Nat → Reply → Nat × Except StoreError (CacheResult D)}
    (hplan : cachePlan (ops t) = .ok (.ask call finish))
    (hplaced : Placed (calls ops) Tables.empty since (log.map Prod.fst) t (.ok reply)) :
    ∃ result, finish 0 reply = (0, .ok result) ∧
      Answered ops since (log.map Prod.fst) t (ops t) result := by
  have hcall : calls ops t = call := by rw [calls, backendCall, hplan]
  cases hop : ops t with
  | get key schema =>
    rw [hop] at hplan
    cases readPlan_ok hplan
    obtain ⟨place, hits, hplace, _, hreply, hhits⟩ :=
      read_returns hD h schema _ hcall hplaced
    have hhit : hits.get? key = some (hitFor schema (held ops (place key) key)) := by
      rw [hhits, if_pos List.mem_cons_self]
    refine ⟨.get (hitFor schema (held ops (place key) key)), ?_, place key, hplace key, rfl⟩
    rw [hreply, subscript, hhit]
    rfl
  | getMany keys schema =>
    rw [hop] at hplan
    cases readPlan_ok hplan
    obtain ⟨place, hits, hplace, hone, hreply, hhits⟩ :=
      read_returns hD h schema _ hcall hplaced
    rw [eraseDups_eraseDups] at hone
    have hhit : ∀ key ∈ keys, hits.get? key = some (hitFor schema (held ops (place key) key)) := by
      intro key hkey
      rw [hhits, if_pos (List.mem_eraseDups.mpr hkey)]
    refine ⟨.getMany hits, hreply, ?_, fun key hkey => ⟨place key, hplace key, hhit key hkey⟩, ?_⟩
    · intro key
      rw [← Dict.contains_iff, Dict.contains, hhits, ← @List.mem_eraseDups _ _ _ key keys]
      by_cases hmem : key ∈ keys.eraseDups <;> simp [hmem]
    · intro hshort
      obtain ⟨pre, rfl⟩ := hone hshort
      obtain rfl | hnonempty := eq_or_ne keys []
      · exact ⟨pre, hplace "", fun key hkey => by cases hkey⟩
      · obtain ⟨key, _⟩ := List.exists_mem_of_ne_nil keys hnonempty
        exact ⟨pre, hplace key, hhit⟩
  | put key schema record =>
    rw [hop] at hplan
    obtain ⟨p, hput, hplan⟩ := bind_ok hplan
    obtain ⟨rows, hrows, rfl⟩ := putMany_ok hput
    cases pure_ok hplan
    have hmem : key ∈
        (Dict.empty.set key (schema, record) : Dict String (String × D.Jsonable)).keys := by
      rw [← Dict.contains_iff, Dict.contains, Dict.get?_set, if_pos rfl]
      rfl
    obtain ⟨outcomes, winners, rfl, hwinners, hplace⟩ := putMany_returns h hrows hcall hplaced
    obtain ⟨pre, hsince, hplace, hrefs⟩ := hplace (List.ne_nil_of_mem hmem)
    obtain ⟨entry, reference, hentry, hrefers, hget⟩ := hrefs key hmem
    refine ⟨.put reference, ?_, pre, hsince, hplace, entry, hentry, hrefers⟩
    simp only [hwinners, ok_bind]
    show (0, (do return CacheResult.put (← subscript winners key))) = _
    rw [subscript, hget]
    rfl
  | putMany entries =>
    rw [hop] at hplan
    obtain ⟨p, hput, hplan⟩ := bind_ok hplan
    obtain ⟨rows, hrows, rfl⟩ := putMany_ok hput
    cases pure_ok hplan
    obtain ⟨outcomes, winners, rfl, hwinners, hplace⟩ := putMany_returns h hrows hcall hplaced
    refine ⟨.putMany winners, ?_, hplace⟩
    simp only [hwinners, ok_bind]
    rfl
  | evictBindings keys =>
    rw [hop] at hplan
    obtain ⟨p, hevict, hplan⟩ := bind_ok hplan
    obtain ⟨_, rfl⟩ | ⟨_, rfl⟩ := evictBindings_ok hevict
    · cases pure_ok hplan
    · cases pure_ok hplan
      obtain ⟨deleted, rfl, hplace⟩ := evictBindings_returns h hcall hplaced
      refine ⟨.evictBindings _, rfl, fun hnonempty => ?_⟩
      obtain ⟨pre, hsince, hplace, hdeleted⟩ := hplace hnonempty
      refine ⟨pre, hsince, hplace, fun key hkey => ?_⟩
      rw [Dict.get?_collect, if_pos (List.mem_eraseDups.mpr hkey)]
      by_cases hheld : (held ops pre key).isSome = true
      · rw [if_pos hheld, if_pos ((hdeleted key hkey).mpr hheld)]
      · rw [if_neg hheld, if_neg (fun hmem => hheld ((hdeleted key hkey).mp hmem))]

end Tables

/-! ## Any number of calls -/

section Clients

variable {T : Type} [DecidableEq T] {ops : T → CacheOp D} {t : T}

omit [DecidableEq T] in
theorem ended_stable {since : List T} {out : Except (Option StoreError) (CacheResult D × Nat)} :
    Stable (histories (Ran (calls ops)) Tables.empty) t
      (fun s => Ended ops since (s.log.map Prod.fst) t out) := by
  refine log_stable (P := fun log => Ended ops since (log.map Prod.fst) t out) ?_
  intro u tables log hu h
  rcases out with (_ | e) | ⟨result, counted⟩
  · trivial
  · show t ∉ u :: log.map Prod.fst
    rw [List.mem_cons, not_or]
    exact ⟨Ne.symm hu, h⟩
  · obtain ⟨hcounted, hanswered⟩ := h
    exact ⟨hcounted, hanswered.grow (List.suffix_cons ..)⟩

/-- A call that has ended stays so. -/
theorem wp_ended {since : List T} {s : Shared T Tables}
    (out : Except (Option StoreError) (CacheResult D × Nat))
    (h : Ended ops since (s.log.map Prod.fst) t out) :
    wp (system Query.Does) (histories (Ran (calls ops)) Tables.empty) t
      (.ofExcept out : Script (CacheResult D × Nat))
      (fun out' s' => Ended ops since (order s') t out') s := by
  refine wp_mono ?_ (just_ofExcept out
    (fun log => Ended ops since (log.map Prod.fst) t out) s ended_stable h)
  rintro _ s' _ ⟨rfl, hended⟩
  exact hended

theorem wp_program (hD : D.Lawful) {s : Shared T Tables}
    (hhistory : History (Ran (calls ops)) Tables.empty s.committed s.log) (hs : Free t s)
    (hnew : t ∉ s.log.map Prod.fst) :
    wp (system Query.Does) (histories (Ran (calls ops)) Tables.empty) t (program (ops t))
      (fun out s' => Ended ops (order s) (order s') t out) s := by
  cases hplan : cachePlan (ops t) with
  | error e =>
    have hprogram : program (ops t) = .ofExcept (.error (some e)) := by
      rw [program, hplan]
      rfl
    rw [hprogram]
    exact wp_ended (.error (some e)) hnew
  | ok p =>
    cases p with
    | done result =>
      have hprogram : program (ops t) = .ofExcept (.ok (result, 0)) := by
        rw [program, hplan]
        rfl
      rw [hprogram]
      exact wp_ended (.ok (result, 0)) ⟨rfl, done_answered hplan⟩
    | ask call finish =>
      have hcall : calls ops t = call := by rw [calls, backendCall, hplan]
      have hprogram : program (ops t) =
          (Processes.SqliteBackend.program (calls ops t) >>= fun reply => .ofExcept
            (((finish 0 reply).2.map fun result =>
              (result, (finish 0 reply).1)).mapError some)) := by
        rw [program, hplan, hcall]
      rw [hprogram]
      refine wp_settle hhistory (wp_mono ?_ (Processes.wp_program hs hnew))
      intro out s' hhistory' hplaced
      rcases out with (_ | e) | reply
      · exact wp_ended (.error none) trivial
      · exact wp_ended (.error (some e)) hplaced.1
      · obtain ⟨result, hfinish, hanswered⟩ := returns_placed hD hhistory' hplan hplaced
        show wp _ _ t (.ofExcept _) _ s'
        rw [hfinish]
        exact wp_ended (.ok (result, 0)) ⟨rfl, hanswered⟩

/-- Any number of calls in some state. -/
abbrev Calls (T : Type) (D : DrSerialize) : Type :=
  Config T (Shared T Tables) (Base.Exclusive.Op Query) (OpReply QueryReply) (Option StoreError)
    (CacheResult D × Nat)

variable {c₁ c : Calls T D}

theorem run_history (hD : D.Lawful)
    (h₁ : Reachable (system Query.Does) ⟨Tables.empty, none, []⟩ (fun t => program (ops t)) c₁)
    (h : Relation.ReflTransGen (Step (system Query.Does)) c₁ c) :
    History (Ran (calls ops)) Tables.empty c.state.committed c.state.log ∧
      order c₁.state <:+ order c.state ∧
      ∀ t out, c₁.prog t = some (program (ops t)) → c.prog t = some (.ofExcept out) →
        Ended ops (order c₁.state) (order c.state) t out := by
  obtain ⟨hhistory, hlog, hended⟩ := later_history
    (Q := fun t since out log => Ended ops (since.map Prod.fst) (log.map Prod.fst) t out)
    (fun t s hhistory hs hnew => wp_program hD hhistory hs hnew) h₁ h
  exact ⟨hhistory, hlog.map _, hended⟩

/-- **Record caches of any number of processes on one file are one first-writer-wins map.** However
many calls there are, in whatever order their statements run, whichever raise and whoever dies: the
calls that have committed are in one order, each once; the tables hold what this order makes the
keys hold; every call that returned did so with what the keys hold at its place, and found nothing
corrupt; one that raised an error of its own left no trace; and what begins after `c₁` comes after
all that had committed by then. -/
theorem cache_processes_first_writer (hD : D.Lawful)
    (h₁ : Reachable (system Query.Does) ⟨Tables.empty, none, []⟩ (fun t => program (ops t)) c₁)
    (h : Relation.ReflTransGen (Step (system Query.Does)) c₁ c) :
    (order c.state).Nodup ∧ order c₁.state <:+ order c.state ∧
    Agrees D c.state.committed (held ops (order c.state)) ∧
    ∀ t out, c₁.prog t = some (program (ops t)) → c.prog t = some (.ofExcept out) →
      Ended ops (order c₁.state) (order c.state) t out := by
  obtain ⟨hhistory, horder, hended⟩ := run_history hD h₁ h
  refine ⟨hhistory.once, horder, ?_, hended⟩
  rw [hhistory.committed, latest_replay hhistory List.suffix_rfl]
  exact agrees_replay hhistory List.suffix_rfl

/-! ## Without evictions -/

omit [DecidableEq T] in
/-- A key that is not evicted holds its first entry for good. -/
theorem held_keeps {key : String} (hkept : ∀ t keys, ops t = .evictBindings keys → key ∉ keys)
    {pre order : List T} (h : pre <:+ order) {entry : String × D.Jsonable}
    (hheld : held ops pre key = some entry) : held ops order key = some entry := by
  induction order with
  | nil =>
    rw [List.suffix_nil.mp h] at hheld
    exact hheld
  | cons t order ih =>
    rcases List.suffix_cons_iff.mp h with rfl | h
    · exact hheld
    · rw [held_cons, ih h]
      cases hop : ops t with
      | evictBindings keys => exact if_neg (hkept t keys hop)
      | get | getMany | put | putMany => rfl

theorem refersTo_unique {reference reference' : ObjectReference} {entry : String × D.Jsonable}
    (h : RefersTo D reference entry) (h' : RefersTo D reference' entry) :
    reference = reference' := by
  obtain ⟨hschema, canonical, hcanonical, hhash⟩ := h
  obtain ⟨hschema', canonical', hcanonical', hhash'⟩ := h'
  rw [hcanonical] at hcanonical'
  cases hcanonical'
  obtain ⟨schema, contentHash, _, _⟩ := reference
  obtain ⟨schema', contentHash', _, _⟩ := reference'
  cases hschema.trans hschema'.symm
  cases hhash.trans hhash'.symm
  rfl

/-- **Processes agree on what a key is bound to.** Once a `put` of a key has returned that nobody
evicts, every `put` of the key that returns, before or after, returns the same reference, and every
`get` that begins later returns the entry of that reference, if it asks for its schema. -/
theorem cache_processes_agree (hD : D.Lawful)
    (h₁ : Reachable (system Query.Does) ⟨Tables.empty, none, []⟩ (fun t => program (ops t)) c₁)
    (h : Relation.ReflTransGen (Step (system Query.Does)) c₁ c) {key : String}
    (hkept : ∀ t keys, ops t = .evictBindings keys → key ∉ keys) {t : T} {schema : String}
    {record : D.Jsonable} {reference : ObjectReference} {n : Nat}
    (ht : ops t = .put key schema record)
    (hreturned : c₁.prog t = some (.pure (.put reference, n))) :
    ∃ entry, RefersTo D reference entry ∧
      (∀ u schema' record' reference' n', ops u = .put key schema' record' →
        c.prog u = some (.pure (.put reference', n')) → reference' = reference) ∧
      ∀ u schema' hit n', ops u = .get key schema' → c₁.prog u = some (program (ops u)) →
        c.prog u = some (.pure (.get hit, n')) → hit = hitFor schema' (some entry) := by
  have hplace : ∀ {c : Calls T D} {u schema record reference n},
      Reachable (system Query.Does) ⟨Tables.empty, none, []⟩ (fun t => program (ops t)) c →
      ops u = .put key schema record → c.prog u = some (.pure (.put reference, n)) →
      ∃ entry, held ops (order c.state) key = some entry ∧ RefersTo D reference entry := by
    intro c u schema record reference n hc hu hput
    obtain ⟨_, _, hended⟩ := run_history hD .refl hc
    obtain ⟨_, hanswered⟩ := hended u (.ok (.put reference, n)) rfl hput
    rw [hu] at hanswered
    obtain ⟨pre, _, hplace, entry, hheld, hrefers⟩ := hanswered
    exact ⟨entry, held_keeps hkept hplace hheld, hrefers⟩
  obtain ⟨entry, hheld, hrefers⟩ := hplace h₁ ht hreturned
  obtain ⟨_, horder, hended⟩ := run_history hD h₁ h
  refine ⟨entry, hrefers, ?_, ?_⟩
  · intro u schema' record' reference' n' hu hput
    obtain ⟨entry', hheld', hrefers'⟩ := hplace (h₁.trans h) hu hput
    rw [held_keeps hkept horder hheld] at hheld'
    cases hheld'
    exact refersTo_unique hrefers' hrefers
  · intro u schema' hit n' hu hbegun hget
    obtain ⟨_, hanswered⟩ := hended u (.ok (.get hit, n')) hbegun hget
    rw [hu] at hanswered
    obtain ⟨pre, hpre, rfl⟩ := hanswered
    rw [held_keeps hkept hpre.1 hheld]

end Clients

/-! ### One process after another -/

/-- One process caches a `null`, the other looks it up. -/
def sampleOps (first : Bool) : CacheOp sampleSerializer :=
  if first then .put "a" "result" none else .get "a" "result"

def sampleRow : RowKey := (sampleReference.schema, sampleReference.contentHash)

/-- The tables with the record under its key. -/
def sampleTables : Tables :=
  ⟨fill Tables.empty.objects [(sampleRow, "null")], putAbsent Tables.empty.bindings "a" sampleRow⟩

/-- A `put` has returned. -/
def SampleReturned (c : Calls Bool sampleSerializer) : Prop :=
  Reachable (system Query.Does) ⟨Tables.empty, none, []⟩ (fun t => program (sampleOps t)) c ∧
    c.prog true = some (.pure (.put sampleReference, 0)) ∧
    c.prog false = some (program (sampleOps false)) ∧
    c.state = ⟨sampleTables, none, [(true, sampleTables)]⟩

theorem sample_returned : ∃ c, SampleReturned c := by
  have h0 : Reachable (system Query.Does) ⟨Tables.empty, none, []⟩
      (fun t => program (sampleOps t)) (start _ _) := .refl
  have h1 := h0.exec (t := true) (r := true) rfl (.inl ⟨rfl, rfl, rfl⟩)
  have h2 := h1.exec (t := true) (r := some ()) rfl (.inl ⟨_, _, rfl, .inl ⟨(), rfl, rfl⟩, rfl⟩)
  have h3 := h2.exec (t := true) (r := some (some "null")) rfl
    (.inl ⟨_, _, rfl, .inl ⟨some "null", rfl, rfl, rfl⟩, rfl⟩)
  have h4 := h3.exec (t := true) (r := some true) rfl
    (.inl ⟨_, _, rfl, .inl ⟨true, rfl, rfl, rfl⟩, rfl⟩)
  have h5 := h4.exec (t := true) (r := some (some sampleRow)) rfl
    (.inl ⟨_, _, rfl, .inl ⟨some sampleRow, rfl, rfl, rfl⟩, rfl⟩)
  have h6 := h5.exec (t := true) (r := true) rfl (.inl ⟨_, rfl, .inl rfl⟩)
  exact ⟨_, h6, rfl, rfl, rfl⟩

/-- A later lookup finds it. -/
theorem sample_got {c : Calls Bool sampleSerializer} (h : SampleReturned c) :
    ∃ c', Relation.ReflTransGen (Step (system Query.Does)) c c' ∧
      c'.prog false = some (.pure (.get (some none), 0)) ∧ c'.state = c.state := by
  obtain ⟨_, _, hbegun, hstate⟩ := h
  have hread : program (sampleOps false) = .exec (.run (.selectBound ["a"])) _ := rfl
  have hdoes : (Query.selectBound ["a"]).Does sampleTables [("a", sampleRow, some "null")]
      sampleTables := by
    refine ⟨rfl, fun key reference canonical => ?_⟩
    simp only [List.mem_singleton, Prod.mk.injEq]
    constructor
    · rintro ⟨rfl, rfl, rfl⟩
      exact ⟨rfl, rfl, rfl⟩
    · rintro ⟨rfl, hbound, rfl⟩
      cases hbound
      exact ⟨rfl, rfl, rfl⟩
  have hfree : ∀ tables, c.state.holder ≠ some (false, tables) := by
    rw [hstate]
    exact fun _ h => by cases h
  refine ⟨_, .single (.exec c false _ _ (some [("a", sampleRow, some "null")]) c.state
    (hbegun.trans (congrArg some hread)) (.inr ⟨hfree, .inl ⟨_, rfl, ?_⟩, rfl⟩)), ?_, rfl⟩
  · rw [hstate]
    exact hdoes
  · rfl

theorem sample_first_writer : ∃ c : Calls Bool sampleSerializer,
    c.prog false = some (.pure (.get (some none), 0)) ∧
      Agrees sampleSerializer c.state.committed (held sampleOps [true]) ∧
      Ended sampleOps [true] [true] false (.ok (.get (some none), 0)) := by
  obtain ⟨c₁, h₁⟩ := sample_returned
  obtain ⟨c, h, hgot, hstate⟩ := sample_got h₁
  obtain ⟨_, _, hagrees, hended⟩ := cache_processes_first_writer sampleSerializer_lawful h₁.1 h
  have hlookup := hended false (.ok (.get (some none), 0)) h₁.2.2.1 hgot
  rw [hstate, h₁.2.2.2] at hagrees hlookup
  refine ⟨c, hgot, ?_, hlookup⟩
  rw [hstate, h₁.2.2.2]
  exact hagrees

theorem sample_agree : ∃ c : Calls Bool sampleSerializer,
    c.prog false = some (.pure (.get (some none), 0)) ∧
      ∃ entry, RefersTo sampleSerializer sampleReference entry ∧
        some none = hitFor "result" (some entry) := by
  obtain ⟨c₁, h₁⟩ := sample_returned
  obtain ⟨c, h, hgot, _⟩ := sample_got h₁
  obtain ⟨entry, hrefers, _, hget⟩ := cache_processes_agree sampleSerializer_lawful h₁.1 h
    (fun t keys hop => by cases t <;> cases hop) (t := true) rfl h₁.2.1
  exact ⟨c, hgot, entry, hrefers, hget false "result" (some none) 0 rfl h₁.2.2.1 hgot⟩

end DrStore.Store.SharedCache
