import DrStore.Store.Statements

/-! # The PostgreSQL backend (storage_backends/postgresql.py)

Key lists lose their duplicates and go out in chunks of a configured size. A batch clashes with
itself before it sends any statement; then it inserts its distinct objects, reads them back and
compares, inserts its distinct bindings and reads those back. The awaited calls run on a fresh
connection, the writing ones in a transaction. Opening and installing are left out. -/
namespace DrStore.Store.Postgres
open DrStore.Base.Collections DrStore.Base.Programs DrStore.Store.ContentAddressing
open DrStore.Store.Contract DrStore.Store.Statements

/-- `open` refuses a chunk size that is not positive. -/
structure PostgresBackend where
  batchChunkSize : Nat
  positive : 0 < batchChunkSize

namespace PostgresBackend

def putObjectOnConnection (schema contentHash canonical : String) : Program PutOutcome := do
  let inserted ← query (.insertObject (schema, contentHash) canonical)
  match inserted with
  | some insertedCanonical => return ⟨true, insertedCanonical⟩
  | none =>
    let stored ← query (.selectObject (schema, contentHash))
    match stored with
    | none => .fail .assertionError
    | some storedCanonical => return ⟨false, storedCanonical⟩

def getObjectOnConnection (schema contentHash : String) : Program (Option (String × String)) :=
  query (.selectByHash schema contentHash)

def bindOnConnection (key schema contentHash : String) : Program BindOutcome :=
  insertThenRead key (schema, contentHash)

def getBindingOnConnection (key : String) : Program (Option RowKey) := query (.selectBinding key)

def getBoundObjectsOnConnection (n : Nat) (keys : List String) :
    Program (Dict String BoundObjectRow) := do
  let bindings ← fetchAll (fun chunk => query (.selectBindings chunk)) (chunks n keys) Dict.empty
  let references := bindings.values.eraseDups
  let objects ← fetchAll (fun chunk => query (.selectObjects chunk)) (chunks n references) Dict.empty
  return Dict.collect bindings.keys fun key =>
    (bindings.get? key).map fun reference => ⟨reference.1, reference.2, objects.get? reference⟩

def deleteBindingsOnConnection (n : Nat) (keys : List String) : Program (List String) :=
  gather (fun chunk => query (.deleteBindings chunk)) (chunks n keys) []

/-- The distinct objects and the first entry of each key, or a clash within the batch. -/
def distinctWrites : List BoundObjectWrite → Dict RowKey String → Dict String BoundObjectWrite →
    Except StoreError (Dict RowKey String × Dict String BoundObjectWrite)
  | [], objects, writes => .ok (objects, writes)
  | e :: entries, objects, writes =>
    let objects := objects.setdefault e.reference e.canonical
    if objects.get? e.reference ≠ some e.canonical then
      .error (.objectConflict e.schema e.contentHash)
    else distinctWrites entries objects (writes.setdefault e.key e)

def insertObjects : List (List (RowKey × String)) → Program Unit
  | [] => return ()
  | chunk :: rest => do
    let _ ← query (.insertObjects chunk)
    insertObjects rest

/-- Every proposed object is stored, with the proposed text. -/
def compareObjects (stored : Dict RowKey String) : List (RowKey × String) → Except StoreError Unit
  | [] => .ok ()
  | (reference, canonical) :: rest => match stored.get? reference with
    | none => .error .assertionError
    | some text => if text ≠ canonical then .error (.objectConflict reference.1 reference.2)
      else compareObjects stored rest

def sameKeys (stored : Dict String RowKey) (writes : Dict String BoundObjectWrite) : Bool :=
  stored.keys.all writes.contains && writes.keys.all stored.contains

def storeObjects (n : Nat) (objects : Dict RowKey String) : Program Unit := do
  insertObjects (chunks n objects.items)
  let storedObjects ← fetchAll (fun chunk => query (.selectObjects chunk))
    (chunks n objects.keys) Dict.empty
  Prog.ofExcept (compareObjects storedObjects objects.items)

def storeBindings (n : Nat) (writes : Dict String BoundObjectWrite) :
    Program (Dict String BindOutcome) := do
  let insertedKeys ← gather (fun chunk => query (.insertBindings (bindingPairs chunk)))
    (chunks n writes.values) []
  let storedBindings ← fetchAll (fun chunk => query (.selectBindings chunk))
    (chunks n writes.keys) Dict.empty
  if sameKeys storedBindings writes then
    return Dict.collect writes.keys fun key => (storedBindings.get? key).map fun existing =>
      ⟨insertedKeys.contains key, existing.1, existing.2⟩
  else .fail .assertionError

def putBoundObjectsOnConnection (n : Nat) (entries : List BoundObjectWrite) :
    Program (Dict String BindOutcome) := do
  let (objects, writes) ← Prog.ofExcept (distinctWrites entries Dict.empty Dict.empty)
  storeObjects n objects
  storeBindings n writes

/-- The statements of a call whose arguments are valid. -/
def program (b : PostgresBackend) : Call → Prog Stmt StmtReply StoreError Reply
  | .putObject schema contentHash canonical =>
    transaction (do return .put (← putObjectOnConnection schema contentHash canonical))
  | .getObject schema contentHash =>
    onConnection (do return .object (← getObjectOnConnection schema contentHash))
  | .bind key schema contentHash =>
    transaction (do return .bind (← bindOnConnection key schema contentHash))
  | .getBinding key => onConnection (do return .binding (← getBindingOnConnection key))
  | .getBoundObjects keys =>
    let distinctKeys := keys.eraseDups
    if distinctKeys = [] then .pure (.rows Dict.empty)
    else onConnection (do
      return .rows (← getBoundObjectsOnConnection b.batchChunkSize distinctKeys))
  | .putBoundObjects entries =>
    if entries = [] then .pure (.outcomes Dict.empty)
    else transaction (do
      return .outcomes (← putBoundObjectsOnConnection b.batchChunkSize entries))
  | .deleteBindings keys =>
    let distinctKeys := keys.eraseDups
    if distinctKeys = [] then .pure (.deleted [])
    else transaction (do
      return .deleted (← deleteBindingsOnConnection b.batchChunkSize distinctKeys))

theorem putObject_fulfils (schema contentHash canonical : String) :
    Fulfils (.putObject schema contentHash canonical)
      (do return .put (← putObjectOnConnection schema contentHash canonical)) := by
  intro t
  refine Prog.ensures_after (fun o t' => o = ⟨(t.objects (schema, contentHash)).isNone,
    (t.objects (schema, contentHash)).getD canonical⟩ ∧
    t' = t.after (.putObject schema contentHash canonical)) ?_ ?_
  · refine ensures_query ?_
    rintro inserted _ ⟨rfl, rfl⟩
    cases hstored : t.objects (schema, contentHash) with
    | none => exact ⟨_, rfl, rfl, rfl⟩
    | some stored =>
      refine ensures_query ?_
      rintro row _ ⟨rfl, rfl⟩
      simp only [putAbsent_present hstored, hstored]
      exact ⟨_, rfl, rfl, by simp [Tables.after, putAbsent_present hstored]⟩
  · rintro _ _ ⟨rfl, rfl⟩
    exact ⟨rfl, rfl⟩

/-! ## Key lists -/

theorem bindings_fetched (t : Tables) (chunk : List String) :
    Ensures (query (.selectBindings chunk)) (fun out t' => ∃ rows, out = .ok rows ∧ t' = t ∧
      ∀ k v, (k, v) ∈ rows ↔ k ∈ chunk ∧ t.bindings k = some v) t :=
  fun rows _ h => ⟨rows, rfl, h⟩

theorem objects_fetched (t : Tables) (chunk : List RowKey) :
    Ensures (query (.selectObjects chunk)) (fun out t' => ∃ rows, out = .ok rows ∧ t' = t ∧
      ∀ r c, (r, c) ∈ rows ↔ r ∈ chunk ∧ t.objects r = some c) t :=
  fun rows _ h => ⟨rows, rfl, h⟩

theorem getBoundObjects_reports {n : Nat} (hn : 0 < n) (keys : List String) :
    Reports (.getBoundObjects keys)
      (do return .rows (← getBoundObjectsOnConnection n keys.eraseDups)) := by
  intro t
  refine Prog.ensures_after (fun rows t' => t' = t ∧ ∀ k, rows.get? k = if k ∈ keys then
    (t.bindings k).map (fun r => (⟨r.1, r.2, t.objects r⟩ : BoundObjectRow)) else none) ?_ ?_
  · refine Prog.ensures_after _ (fetchAll_ensures (bindings_fetched t) _ _) ?_
    rintro bindings t ⟨rfl, hb⟩
    refine Prog.ensures_after _ (fetchAll_ensures (objects_fetched t) _ _) ?_
    rintro objects t ⟨rfl, ho⟩
    rw [chunks_flatten hn] at hb ho
    refine ⟨_, rfl, rfl, ?_⟩
    intro k
    have hk : bindings.get? k = if k ∈ keys then t.bindings k else none := by
      rw [hb]
      by_cases h : k ∈ keys <;> cases hs : t.bindings k <;> simp [List.mem_eraseDups, h]
    rw [Dict.get?_collect]
    cases hbound : bindings.get? k with
    | none =>
      rw [hbound] at hk
      split at hk
      · rename_i hmem
        simp [hmem, ← hk]
      · rename_i hmem
        simp [hmem]
    | some r =>
      rw [hbound] at hk
      split at hk
      · rename_i hmem
        -- the reference was asked for, so its object was read if it exists
        have href : r ∈ bindings.values.eraseDups := List.mem_eraseDups.mpr
          (List.mem_map.mpr ⟨(k, r), Dict.get?_eq_some.mp hbound, rfl⟩)
        have hobj : objects.get? r = t.objects r := by
          rw [ho]
          cases hs : t.objects r <;> simp [href]
        have hkeys : k ∈ bindings.keys := by
          rw [← Dict.contains_iff, Dict.contains, hbound]
          rfl
        rw [if_pos hkeys, if_pos hmem, ← hk, Option.map_some, Option.map_some, hobj]
      · cases hk
  · rintro rows t ⟨rfl, hrows⟩
    exact ⟨⟨rows, rfl, hrows⟩, rfl⟩

theorem deleteBindings_fulfils {n : Nat} (hn : 0 < n) (keys : List String) :
    Fulfils (.deleteBindings keys)
      (do return .deleted (← deleteBindingsOnConnection n keys.eraseDups)) := by
  intro t
  have h := delete_ensures (chunks n keys.eraseDups) [] t
  rw [chunks_flatten hn] at h
  refine Prog.ensures_after _ h ?_
  rintro deleted _ ⟨hdeleted, rfl⟩
  refine ⟨⟨deleted, rfl, ?_⟩, ?_⟩
  · intro k
    rw [hdeleted]
    simp [List.mem_eraseDups]
  · simp [leaves, Tables.after, List.mem_eraseDups]

/-! ## Batches -/

def writePairs (entries : List BoundObjectWrite) : List (String × BoundObjectWrite) :=
  entries.map fun e => (e.key, e)

theorem distinctWrites_spec (entries : List BoundObjectWrite) (objects : Dict RowKey String)
    (writes : Dict String BoundObjectWrite) :
    match distinctWrites entries objects writes with
    | .ok (o, w) => o.get? = fill objects.get? (objectPairs entries) ∧
        w.get? = fill writes.get? (writePairs entries) ∧
        ∀ e ∈ entries, fill objects.get? (objectPairs entries) e.reference = some e.canonical
    | .error err => (∃ schema contentHash, err = .objectConflict schema contentHash) ∧
        ¬ ∀ e ∈ entries,
          fill objects.get? (objectPairs entries) e.reference = some e.canonical := by
  induction entries generalizing objects writes with
  | nil => exact ⟨rfl, rfl, by simp⟩
  | cons e entries ih =>
    have hfill : fill objects.get? (objectPairs (e :: entries)) =
        fill (objects.setdefault e.reference e.canonical).get? (objectPairs entries) :=
      Dict.fill_setdefault ..
    have hrow : fill objects.get? (objectPairs (e :: entries)) e.reference =
        (objects.setdefault e.reference e.canonical).get? e.reference :=
      Dict.fill_setdefault_self ..
    have hwrites : fill writes.get? (writePairs (e :: entries)) =
        fill (writes.setdefault e.key e).get? (writePairs entries) := Dict.fill_setdefault ..
    rw [distinctWrites]
    by_cases hc : (objects.setdefault e.reference e.canonical).get? e.reference ≠ some e.canonical
    · simp only [if_pos hc]
      refine ⟨⟨_, _, rfl⟩, ?_⟩
      intro h
      exact hc (hrow ▸ h e List.mem_cons_self)
    · simp only [if_neg hc]
      have h := ih (objects.setdefault e.reference e.canonical) (writes.setdefault e.key e)
      rw [← hfill, ← hwrites] at h
      revert h
      split
      · rintro ⟨ho, hw, hall⟩
        refine ⟨ho, hw, ?_⟩
        intro e' he'
        rcases List.mem_cons.mp he' with rfl | he'
        · exact hrow.trans (not_not.mp hc)
        · exact hall e' he'
      · rintro ⟨herr, hall⟩
        refine ⟨herr, ?_⟩
        intro h
        exact hall fun e' he' => h e' (List.mem_cons_of_mem _ he')

theorem insertObjects_ensures (chunks : List (List (RowKey × String))) (t : Tables) :
    Ensures (insertObjects chunks) (fun out t' => out = .ok () ∧
      t' = { t with objects := fill t.objects chunks.flatten }) t := by
  induction chunks generalizing t with
  | nil => exact ⟨rfl, rfl⟩
  | cons chunk rest ih =>
    refine ensures_query ?_
    rintro _ _ rfl
    refine Prog.ensures_mono (ih _) ?_
    rintro _ _ ⟨rfl, rfl⟩
    refine ⟨rfl, ?_⟩
    rw [List.flatten_cons, fill_append]

theorem compareObjects_spec (stored : Dict RowKey String) (rows : List (RowKey × String))
    (hstored : ∀ p ∈ rows, (stored.get? p.1).isSome = true) :
    (compareObjects stored rows = .ok () ∧ ∀ p ∈ rows, stored.get? p.1 = some p.2) ∨
      (∃ schema contentHash, compareObjects stored rows =
        .error (.objectConflict schema contentHash)) ∧
        ¬ ∀ p ∈ rows, stored.get? p.1 = some p.2 := by
  induction rows with
  | nil => exact .inl ⟨rfl, by simp⟩
  | cons p rows ih =>
    obtain ⟨text, ht⟩ := Option.isSome_iff_exists.mp (hstored p List.mem_cons_self)
    rw [compareObjects, ht, List.forall_mem_cons]
    by_cases hne : text = p.2
    · simp only [hne, ne_eq, not_true_eq_false, if_false, ht, true_and]
      exact ih fun q hq => hstored q (List.mem_cons_of_mem _ hq)
    · right
      simp only [ne_eq, hne, not_false_eq_true, if_true]
      refine ⟨⟨_, _, rfl⟩, ?_⟩
      rintro ⟨hp, _⟩
      rw [ht, Option.some.injEq] at hp
      exact hne hp

theorem insertBindings_ensures (chunks : List (List BoundObjectWrite)) (found : List String)
    (t : Tables) :
    Ensures (gather (fun chunk => query (.insertBindings (bindingPairs chunk))) chunks found)
      (fun out t' => ∃ inserted, out = .ok inserted ∧
        (∀ k, k ∈ inserted ↔
          k ∈ found ∨ k ∈ chunks.flatten.map BoundObjectWrite.key ∧ t.bindings k = none) ∧
        t' = { t with bindings := t.bindingsAfter chunks.flatten }) t := by
  induction chunks generalizing found t with
  | nil => exact ⟨found, rfl, by simp, rfl⟩
  | cons chunk rest ih =>
    refine ensures_query ?_
    rintro keys _ ⟨hkeys, rfl⟩
    refine Prog.ensures_mono (ih (found ++ keys) _) ?_
    rintro _ _ ⟨inserted, rfl, hins, rfl⟩
    refine ⟨inserted, rfl, ?_, ?_⟩
    · intro k
      have hfst : (bindingPairs chunk).map Prod.fst = chunk.map BoundObjectWrite.key := by
        rw [bindingPairs, List.map_map]
        rfl
      have hnone : fill t.bindings (bindingPairs chunk) k = none ↔
          t.bindings k = none ∧ k ∉ chunk.map BoundObjectWrite.key := by
        rw [fill_apply, Option.or_eq_none_iff, ← hfst, ← firstOf_isSome]
        simp
      rw [hins, List.mem_append, hkeys, hfst, hnone, List.flatten_cons, List.map_append,
        List.mem_append]
      by_cases h : k ∈ chunk.map BoundObjectWrite.key <;> simp [h]
    · simp only [Tables.bindingsAfter, List.flatten_cons, bindingPairs, List.map_append,
        fill_append]

theorem storeObjects_ensures {n : Nat} (hn : 0 < n) (objects : Dict RowKey String) (t : Tables) :
    Ensures (storeObjects n objects) (fun out t' =>
      t' = { t with objects := fill t.objects objects.items } ∧
      ((out = .ok () ∧ ∀ p ∈ objects.items, fill t.objects objects.items p.1 = some p.2) ∨
        (∃ schema contentHash, out = .error (.objectConflict schema contentHash)) ∧
          ¬ ∀ p ∈ objects.items, fill t.objects objects.items p.1 = some p.2)) t := by
  have hinsert := insertObjects_ensures (chunks n objects.items) t
  rw [chunks_flatten hn] at hinsert
  refine Prog.ensures_after (fun _ t' => t' = { t with objects := fill t.objects objects.items })
    (Prog.ensures_mono hinsert ?_) ?_
  · rintro _ _ ⟨rfl, rfl⟩
    exact ⟨(), rfl, rfl⟩
  rintro _ _ rfl
  refine Prog.ensures_after _ (fetchAll_ensures (objects_fetched _) _ _) ?_
  rintro stored _ ⟨rfl, hget⟩
  rw [chunks_flatten hn] at hget
  -- every inserted row was read back
  have hfilled : ∀ p ∈ objects.items, (fill t.objects objects.items p.1).isSome = true := by
    intro p hp
    rw [fill_apply, Option.isSome_or, firstOf_isSome.mpr (List.mem_map_of_mem hp), Bool.or_true]
  have hstored : ∀ p ∈ objects.items, stored.get? p.1 = fill t.objects objects.items p.1 := by
    intro p hp
    rw [hget]
    exact if_pos ⟨List.mem_map_of_mem hp, hfilled p hp⟩
  have hsome : ∀ p ∈ objects.items, (stored.get? p.1).isSome = true := by
    intro p hp
    rw [hstored p hp]
    exact hfilled p hp
  have hiff : (∀ p ∈ objects.items, stored.get? p.1 = some p.2) ↔
      ∀ p ∈ objects.items, fill t.objects objects.items p.1 = some p.2 :=
    forall₂_congr fun p hp => by rw [hstored p hp]
  have hcompare := compareObjects_spec stored objects.items hsome
  rw [hiff] at hcompare
  rcases hcompare with ⟨heq, hall⟩ | ⟨⟨schema, contentHash, heq⟩, hall⟩
  · rw [heq]
    exact ⟨rfl, .inl ⟨rfl, hall⟩⟩
  · rw [heq]
    exact ⟨rfl, .inr ⟨⟨schema, contentHash, rfl⟩, hall⟩⟩

/-- The rows and writes a batch has come down to offer what the batch offers. -/
structure Distinct (entries : List BoundObjectWrite) (objects : Dict RowKey String)
    (writes : Dict String BoundObjectWrite) : Prop where
  objects_eq : objects.get? = firstOf (objectPairs entries)
  writes_eq : writes.get? = firstOf (writePairs entries)
  agree : ∀ e ∈ entries, objects.get? e.reference = some e.canonical

namespace Distinct

variable {entries : List BoundObjectWrite} {objects : Dict RowKey String}
variable {writes : Dict String BoundObjectWrite}

theorem objectsAfter_eq (h : Distinct entries objects writes) (t : Tables) :
    fill t.objects objects.items = t.objectsAfter entries :=
  fill_congr fun k => congrFun h.objects_eq k

theorem key_eq (h : Distinct entries objects writes) {k : String} {e : BoundObjectWrite}
    (hmem : (k, e) ∈ writes.items) : e.key = k := by
  have hget : writes.get? k = some e := Dict.get?_eq_some.mpr hmem
  rw [h.writes_eq] at hget
  obtain ⟨e', _, heq⟩ := List.mem_map.mp (firstOf_mem hget)
  simp only [Prod.mk.injEq] at heq
  rw [← heq.1, ← heq.2]

theorem keys_eq (h : Distinct entries objects writes) :
    writes.values.map BoundObjectWrite.key = writes.keys := by
  rw [Dict.values, Dict.keys, List.map_map]
  apply List.map_congr_left
  intro p hp
  exact h.key_eq hp

theorem mem_keys (h : Distinct entries objects writes) {k : String} :
    k ∈ writes.keys ↔ k ∈ entries.map BoundObjectWrite.key := by
  rw [← Dict.contains_iff, Dict.contains, h.writes_eq, firstOf_isSome, writePairs, List.map_map]
  rfl

theorem bindingsAfter_eq (h : Distinct entries objects writes) (t : Tables) :
    t.bindingsAfter writes.values = t.bindingsAfter entries := by
  have hpairs : bindingPairs writes.values =
      writes.items.map fun p => (p.1, p.2.reference) := by
    rw [bindingPairs, Dict.values, List.map_map]
    apply List.map_congr_left
    intro p hp
    simp [h.key_eq hp]
  have hentries : bindingPairs entries =
      (writePairs entries).map fun p => (p.1, p.2.reference) := by
    rw [bindingPairs, writePairs, List.map_map]
    rfl
  refine fill_congr fun k => ?_
  rw [hpairs, hentries, firstOf_map, firstOf_map]
  exact congrArg _ (congrFun h.writes_eq k)

/-- Comparing the distinct rows compares every entry. -/
theorem compatible_iff (h : Distinct entries objects writes) (t : Tables) :
    (∀ p ∈ objects.items, t.objectsAfter entries p.1 = some p.2) ↔
      t.compatible entries = true := by
  simp only [Tables.compatible, List.all_eq_true, decide_eq_true_eq]
  constructor
  · intro hall e he
    exact hall (e.reference, e.canonical) (Dict.get?_eq_some.mp (h.agree e he))
  · intro hall p hp
    have hget : objects.get? p.1 = some p.2 := Dict.get?_eq_some.mpr hp
    rw [h.objects_eq] at hget
    obtain ⟨e, he, heq⟩ := List.mem_map.mp (firstOf_mem hget)
    simp only [Prod.mk.injEq] at heq
    rw [← heq.1, ← heq.2]
    exact hall e he

end Distinct

theorem storeBindings_ensures {n : Nat} (hn : 0 < n) {entries : List BoundObjectWrite}
    {objects : Dict RowKey String} {writes : Dict String BoundObjectWrite}
    (h : Distinct entries objects writes) (t : Tables) :
    Ensures (storeBindings n writes) (fun out t' => ∃ outcomes : Dict String BindOutcome,
      out = .ok outcomes ∧ t' = { t with bindings := t.bindingsAfter entries } ∧
      ∀ k, outcomes.get? k = if k ∈ entries.map BoundObjectWrite.key then
        Tables.boundOutcome (t.bindings k) (t.bindingsAfter entries k) else none) t := by
  have hinsert := insertBindings_ensures (chunks n writes.values) [] t
  rw [chunks_flatten hn, h.bindingsAfter_eq, h.keys_eq] at hinsert
  refine Prog.ensures_after _ hinsert ?_
  rintro inserted _ ⟨hinserted, rfl⟩
  refine Prog.ensures_after _ (fetchAll_ensures (bindings_fetched _) _ _) ?_
  rintro stored _ ⟨rfl, hget⟩
  rw [chunks_flatten hn] at hget
  have hbound : ∀ k ∈ writes.keys, ∃ r, t.bindingsAfter entries k = some r := by
    intro k hk
    rw [← Option.isSome_iff_exists, Tables.bindingsAfter, fill_apply, Option.isSome_or,
      Bool.or_eq_true, firstOf_isSome, bindingPairs, List.map_map]
    exact .inr (h.mem_keys.mp hk)
  have hstored : ∀ k, stored.get? k =
      if k ∈ writes.keys then t.bindingsAfter entries k else none := by
    intro k
    rw [hget]
    by_cases hk : k ∈ writes.keys
    · obtain ⟨r, hr⟩ := hbound k hk
      simp [hk, hr]
    · simp [hk]
  have hsame : sameKeys stored writes = true := by
    rw [sameKeys, Bool.and_eq_true, List.all_eq_true, List.all_eq_true]
    refine ⟨?_, ?_⟩
    · intro k hk
      rw [← Dict.contains_iff, Dict.contains, hstored] at hk
      rw [Dict.contains_iff]
      by_contra hn
      simp [hn] at hk
    · intro k hk
      obtain ⟨r, hr⟩ := hbound k hk
      rw [Dict.contains, hstored, if_pos hk, hr]
      rfl
  rw [if_pos hsame]
  refine ⟨_, rfl, rfl, ?_⟩
  intro k
  simp only [Dict.get?_collect, hstored, h.mem_keys]
  by_cases hk : k ∈ entries.map BoundObjectWrite.key
  · obtain ⟨r, hr⟩ := hbound k (h.mem_keys.mpr hk)
    have hcontains : inserted.contains k = (t.bindings k).isNone := by
      have hmem : k ∈ inserted ↔ t.bindings k = none := by
        rw [hinserted, h.mem_keys]
        simp [hk]
      rw [Bool.eq_iff_iff, List.contains_iff_mem, hmem, Option.isNone_iff_eq_none]
    simp only [if_pos hk, hr, Option.map_some, Tables.boundOutcome, hcontains]
  · rw [if_neg hk, if_neg hk]

theorem distinctWrites_ok {entries : List BoundObjectWrite} {objects : Dict RowKey String}
    {writes : Dict String BoundObjectWrite}
    (hd : distinctWrites entries Dict.empty Dict.empty = .ok (objects, writes)) :
    Distinct entries objects writes := by
  have hspec := distinctWrites_spec entries Dict.empty Dict.empty
  rw [hd] at hspec
  obtain ⟨ho, hw, hagree⟩ := hspec
  refine ⟨?_, ?_, ?_⟩
  · funext k
    rw [ho, fill_apply]
    rfl
  · funext k
    rw [hw, fill_apply]
    rfl
  · intro e he
    rw [ho]
    exact hagree e he

theorem distinctWrites_error {entries : List BoundObjectWrite} {err : StoreError}
    (hd : distinctWrites entries Dict.empty Dict.empty = .error err) :
    (∃ schema contentHash, err = .objectConflict schema contentHash) ∧
      ∀ t : Tables, ¬ t.compatible entries = true := by
  have hspec := distinctWrites_spec entries Dict.empty Dict.empty
  rw [hd] at hspec
  obtain ⟨herr, hclash⟩ := hspec
  refine ⟨herr, ?_⟩
  intro t
  rw [Tables.compatible_iff]
  intro h
  refine hclash fun e he => ?_
  rw [fill_apply]
  exact (h e he).1

theorem putBoundObjects_ensures {n : Nat} (hn : 0 < n) (entries : List BoundObjectWrite)
    (t : Tables) : Ensures (putBoundObjectsOnConnection n entries) (Batch entries t) t := by
  unfold putBoundObjectsOnConnection
  cases hd : distinctWrites entries Dict.empty Dict.empty with
  | error err =>
    obtain ⟨⟨schema, contentHash, rfl⟩, hclash⟩ := distinctWrites_error hd
    show Batch entries t _ t
    rw [Batch, if_neg (hclash t)]
    exact ⟨schema, contentHash, rfl⟩
  | ok p =>
    obtain ⟨objects, writes⟩ := p
    have h := distinctWrites_ok hd
    have hobjects := storeObjects_ensures hn objects t
    rw [h.objectsAfter_eq, h.compatible_iff] at hobjects
    rw [Prog.ofExcept_ok, Prog.pure_bind]
    refine Prog.ensures_bind _ hobjects ?_ ?_
    · rintro _ _ ⟨rfl, ⟨_, hc⟩ | ⟨⟨_, _, heq⟩, _⟩⟩
      · refine Prog.ensures_mono (storeBindings_ensures hn h _) ?_
        rintro _ _ ⟨outcomes, rfl, rfl, ho⟩
        rw [Batch, if_pos hc]
        exact ⟨outcomes, rfl, rfl, ho⟩
      · cases heq
    · rintro e _ ⟨rfl, ⟨heq, _⟩ | ⟨⟨schema, contentHash, heq⟩, hc⟩⟩
      · cases heq
      · cases heq
        rw [Batch, if_neg hc]
        exact ⟨schema, contentHash, rfl⟩

/-! ## The backend -/

theorem eraseDups_eq_nil {keys : List String} (h : keys.eraseDups = []) : keys = [] := by
  cases keys with
  | nil => rfl
  | cons k keys =>
    have hk : k ∈ (k :: keys).eraseDups := List.mem_eraseDups.mpr List.mem_cons_self
    rw [h] at hk
    cases hk

theorem meets (b : PostgresBackend) : ∀ call, Meets call (b.program call)
  | .putObject schema contentHash canonical =>
    transaction_meets (putObject_fulfils schema contentHash canonical)
  | .getObject schema contentHash => onConnection_meets (selectByHash_reports schema contentHash)
  | .bind key schema contentHash =>
    transaction_meets (insertThenRead_fulfils key schema contentHash)
  | .getBinding key => onConnection_meets (selectBinding_reports key)
  | .getBoundObjects keys => by
    by_cases h : keys.eraseDups = []
    · rw [program, if_pos h, eraseDups_eq_nil h]
      exact pure_meets fun t => ⟨⟨_, rfl, by simp⟩, rfl⟩
    · rw [program, if_neg h]
      exact onConnection_meets (getBoundObjects_reports b.positive keys)
  | .putBoundObjects entries => by
    by_cases h : entries = []
    · subst h
      exact pure_meets fun t => ⟨⟨_, rfl, by simp⟩, rfl⟩
    · rw [program, if_neg h]
      exact transaction_meets (batch_fulfils (putBoundObjects_ensures b.positive entries))
  | .deleteBindings keys => by
    by_cases h : keys.eraseDups = []
    · rw [program, if_pos h, eraseDups_eq_nil h]
      exact pure_meets fun t => ⟨⟨_, rfl, by simp⟩, by simp [Tables.after]⟩
    · rw [program, if_neg h]
      exact transaction_meets (deleteBindings_fulfils b.positive keys)

/-- The PostgreSQL backend over any engine. -/
def backend (b : PostgresBackend) (E : Engine) : Backend := E.backend b.program b.meets

end PostgresBackend

end DrStore.Store.Postgres
