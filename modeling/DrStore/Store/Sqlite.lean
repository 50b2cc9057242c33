import DrStore.Store.Statements

/-! # The SQLite backend (storage_backends/sqlite.py)

Every write runs in `BEGIN IMMEDIATE`: insert what is absent, then read back. A batch inserts
all its objects, compares each entry with the stored row, and then binds key by key. Key lists
go out in chunks of 999. The worker thread, the lifecycle and the loop check are left out. -/
namespace DrStore.Store.Sqlite
open DrStore.Base.Collections DrStore.Base.Programs DrStore.Store.ContentAddressing
open DrStore.Store.Contract DrStore.Store.Statements

def keyQueryChunkSize : Nat := 999

namespace SqliteBackend

def putObject (schema contentHash canonical : String) : Program PutOutcome := do
  let inserted ← query (.insertObject (schema, contentHash) canonical)
  let row ← query (.selectObject (schema, contentHash))
  match row with
  | none => .fail .assertionError
  | some storedCanonical => return ⟨inserted.isSome, storedCanonical⟩

def getObject (schema contentHash : String) : Program (Option (String × String)) :=
  query (.selectByHash schema contentHash)

def bind (key schema contentHash : String) : Program BindOutcome :=
  insertThenRead key (schema, contentHash)

def getBinding (key : String) : Program (Option RowKey) := query (.selectBinding key)

/-- The rows of one chunk, by key. -/
def fetchBound (chunk : List String) : Program (List (String × BoundObjectRow)) := do
  let rows ← query (.selectBound chunk)
  return rows.map fun (key, reference, canonical) =>
    (key, ⟨reference.1, reference.2, canonical⟩)

def getBoundObjects (keys : List String) : Program (Dict String BoundObjectRow) :=
  fetchAll fetchBound (chunks keyQueryChunkSize keys) Dict.empty

def deleteBindings (keys : List String) : Program (List String) :=
  gather (fun chunk => query (.deleteBindings chunk)) (chunks keyQueryChunkSize keys) []

/-- Compare each entry with the row stored for it. -/
def compareObjects : List BoundObjectWrite → Program Unit
  | [] => return ()
  | e :: entries => do
    let row ← query (.selectObject e.reference)
    match row with
    | none => .fail .assertionError
    | some stored =>
      if stored ≠ e.canonical then .fail (.objectConflict e.schema e.contentHash)
      else compareObjects entries

/-- Bind each key once, in the order of the batch. -/
def bindEntries : List BoundObjectWrite → Dict String BindOutcome → Program (Dict String BindOutcome)
  | [], outcomes => return outcomes
  | e :: entries, outcomes =>
    if outcomes.contains e.key then bindEntries entries outcomes
    else do
      let bound ← query (.insertBinding e.key e.reference)
      let row ← query (.selectBinding e.key)
      match row with
      | none => .fail .assertionError
      | some existing =>
        bindEntries entries (outcomes.set e.key ⟨bound, existing.1, existing.2⟩)

def putBoundObjects (entries : List BoundObjectWrite) : Program (Dict String BindOutcome) := do
  let _ ← query (.insertObjects (objectPairs entries))
  compareObjects entries
  bindEntries entries Dict.empty

/-- The statements of a call whose arguments are valid; empty key lists reach no statement. -/
def program : Call → Prog Stmt StmtReply StoreError Reply
  | .putObject schema contentHash canonical =>
    transaction (do return .put (← putObject schema contentHash canonical))
  | .getObject schema contentHash =>
    onConnection (do return .object (← getObject schema contentHash))
  | .bind key schema contentHash =>
    transaction (do return .bind (← bind key schema contentHash))
  | .getBinding key => onConnection (do return .binding (← getBinding key))
  | .getBoundObjects keys =>
    if keys = [] then .pure (.rows Dict.empty)
    else onConnection (do return .rows (← getBoundObjects keys))
  | .putBoundObjects entries =>
    if entries = [] then .pure (.outcomes Dict.empty)
    else transaction (do return .outcomes (← putBoundObjects entries))
  | .deleteBindings keys =>
    if keys = [] then .pure (.deleted [])
    else transaction (do return .deleted (← deleteBindings keys))

theorem putObject_fulfils (schema contentHash canonical : String) :
    Fulfils (.putObject schema contentHash canonical)
      (do return .put (← putObject schema contentHash canonical)) := by
  intro t
  refine Prog.ensures_after (fun o t' => o = ⟨(t.objects (schema, contentHash)).isNone,
    (t.objects (schema, contentHash)).getD canonical⟩ ∧
    t' = t.after (.putObject schema contentHash canonical)) ?_ ?_
  · rintro inserted _ ⟨rfl, rfl⟩ row _ ⟨rfl, rfl⟩
    simp only [putAbsent_self]
    refine ⟨_, rfl, ?_, rfl⟩
    cases t.objects (schema, contentHash) <;> rfl
  · rintro _ _ ⟨rfl, rfl⟩
    exact ⟨rfl, rfl⟩

/-! ## Key lists -/

theorem keyQueryChunkSize_pos : 0 < keyQueryChunkSize := by decide

theorem getBoundObjects_reports (keys : List String) :
    Reports (.getBoundObjects keys) (do return .rows (← getBoundObjects keys)) := by
  intro t
  have hfetch : ∀ chunk, Ensures (fetchBound chunk) (fun out t' => ∃ rows, out = .ok rows ∧
      t' = t ∧ ∀ k v, (k, v) ∈ rows ↔ k ∈ chunk ∧
        (t.bindings k).map (fun r => (⟨r.1, r.2, t.objects r⟩ : BoundObjectRow)) = some v) t := by
    rintro chunk rows t ⟨rfl, hrows⟩
    refine ⟨_, rfl, rfl, ?_⟩
    intro k v
    simp only [List.mem_map, Option.map_eq_some_iff]
    constructor
    · rintro ⟨⟨key, r, canonical⟩, hmem, heq⟩
      simp only [Prod.mk.injEq] at heq
      obtain ⟨rfl, rfl⟩ := heq
      obtain ⟨hk, hb, ho⟩ := (hrows _ _ _).mp hmem
      exact ⟨hk, r, hb, by rw [ho]⟩
    · rintro ⟨hk, r, hb, rfl⟩
      exact ⟨(k, r, t.objects r), (hrows _ _ _).mpr ⟨hk, hb, rfl⟩, rfl⟩
  refine Prog.ensures_after _ (fetchAll_ensures hfetch _ _) ?_
  rintro rows t ⟨rfl, hrows⟩
  refine ⟨⟨rows, rfl, ?_⟩, rfl⟩
  intro k
  rw [hrows, chunks_flatten keyQueryChunkSize_pos]
  cases t.bindings k <;> simp

theorem deleteBindings_fulfils (keys : List String) :
    Fulfils (.deleteBindings keys) (do return .deleted (← deleteBindings keys)) := by
  intro t
  have h := delete_ensures (chunks keyQueryChunkSize keys) [] t
  rw [chunks_flatten keyQueryChunkSize_pos] at h
  refine Prog.ensures_after _ h ?_
  rintro deleted _ ⟨hdeleted, rfl⟩
  refine ⟨⟨deleted, rfl, ?_⟩, rfl⟩
  intro k
  rw [hdeleted]
  simp

/-! ## Batches -/

theorem compareObjects_ensures (entries : List BoundObjectWrite) (t : Tables)
    (hstored : ∀ e ∈ entries, (t.objects e.reference).isSome = true) :
    Ensures (compareObjects entries) (fun out t' => t' = t ∧
      if entries.all (fun e => decide (t.objects e.reference = some e.canonical)) = true then
        out = .ok ()
      else ∃ schema contentHash, out = .error (.objectConflict schema contentHash)) t := by
  induction entries with
  | nil => exact ⟨rfl, rfl⟩
  | cons e entries ih =>
    refine ensures_query ?_
    rintro row t ⟨rfl, rfl⟩
    obtain ⟨stored, hs⟩ := Option.isSome_iff_exists.mp (hstored e List.mem_cons_self)
    simp only [hs]
    by_cases hne : stored = e.canonical
    · rw [if_neg (not_not.mpr hne)]
      refine Prog.ensures_mono (ih fun e' he' => hstored e' (List.mem_cons_of_mem _ he')) ?_
      intro out t' h
      simpa only [List.all_cons, hs, hne, decide_true, Bool.true_and] using h
    · rw [if_pos hne]
      refine ⟨rfl, ?_⟩
      simp only [List.all_cons, hs, Option.some.injEq, hne, decide_false, Bool.false_and,
        Bool.false_eq_true, if_false]
      exact ⟨_, _, rfl⟩

theorem bindEntries_ensures (entries : List BoundObjectWrite) (outcomes : Dict String BindOutcome)
    (t : Tables) (hbound : ∀ k, outcomes.contains k = true → ∃ r, t.bindings k = some r) :
    Ensures (bindEntries entries outcomes) (fun out t' => ∃ o : Dict String BindOutcome,
      out = .ok o ∧ t' = { t with bindings := t.bindingsAfter entries } ∧
      ∀ k, o.get? k = (outcomes.get? k).or (if k ∈ entries.map BoundObjectWrite.key then
        Tables.boundOutcome (t.bindings k) (t.bindingsAfter entries k) else none)) t := by
  induction entries generalizing outcomes t with
  | nil => exact ⟨outcomes, rfl, rfl, by simp⟩
  | cons e entries ih =>
    have hcons : t.bindingsAfter (e :: entries) = Tables.bindingsAfter
        { t with bindings := putAbsent t.bindings e.key e.reference } entries := rfl
    rw [bindEntries]
    by_cases hc : outcomes.contains e.key = true
    · rw [if_pos hc]
      obtain ⟨r, hr⟩ := hbound e.key hc
      rw [hcons, putAbsent_present hr]
      refine Prog.ensures_mono (ih outcomes t hbound) ?_
      rintro _ _ ⟨o, rfl, rfl, ho⟩
      refine ⟨o, rfl, rfl, ?_⟩
      intro k
      rw [ho]
      by_cases hk : k = e.key
      · subst hk
        obtain ⟨v, hv⟩ := Option.isSome_iff_exists.mp hc
        simp [hv]
      · simp [hk]
    · rw [if_neg hc]
      have hnone : outcomes.get? e.key = none := by
        cases hg : outcomes.get? e.key with
        | none => rfl
        | some o => simp [Dict.contains, hg] at hc
      refine ensures_query ?_
      rintro bound _ ⟨rfl, rfl⟩
      refine ensures_query ?_
      rintro row _ ⟨rfl, rfl⟩
      simp only [putAbsent_self]
      refine Prog.ensures_mono (ih _ _ ?_) ?_
      · intro k hk
        rw [Dict.contains, Dict.get?_set] at hk
        by_cases hke : k = e.key
        · exact ⟨_, by rw [hke]; exact putAbsent_self ..⟩
        · rw [if_neg hke] at hk
          obtain ⟨r, hr⟩ := hbound k hk
          exact ⟨r, by simp [putAbsent, hr]⟩
      · rintro _ _ ⟨o, rfl, rfl, ho⟩
        refine ⟨o, rfl, rfl, ?_⟩
        intro k
        rw [ho, Dict.get?_set, hcons]
        by_cases hk : k = e.key
        · -- later entries for this key find it bound
          subst hk
          simp [hnone, Tables.bindingsAfter, fill_apply, putAbsent_self, Tables.boundOutcome]
        · simp [hk, putAbsent, Ne.symm hk]

theorem putBoundObjects_ensures (entries : List BoundObjectWrite) (t : Tables) :
    Ensures (putBoundObjects entries) (Batch entries t) t := by
  have hstored : ∀ e ∈ entries, (t.objectsAfter entries e.reference).isSome = true := by
    intro e he
    rw [Tables.objectsAfter, fill_apply, Option.isSome_or, Bool.or_eq_true, firstOf_isSome]
    exact .inr (List.mem_map.mpr ⟨_, List.mem_map_of_mem he, rfl⟩)
  refine ensures_query ?_
  rintro _ _ rfl
  refine Prog.ensures_bind _ (compareObjects_ensures entries _ hstored) ?_ ?_
  · rintro _ _ ⟨rfl, h⟩
    split at h
    · rename_i hc
      refine Prog.ensures_mono (bindEntries_ensures entries Dict.empty _ (by
        intro k hk
        simp [Dict.contains] at hk)) ?_
      rintro _ _ ⟨outcomes, rfl, rfl, ho⟩
      rw [Batch, if_pos (show t.compatible entries = true from hc)]
      exact ⟨outcomes, rfl, rfl, ho⟩
    · obtain ⟨_, _, heq⟩ := h
      cases heq
  · rintro e _ ⟨rfl, h⟩
    split at h
    · cases h
    · rename_i hc
      rw [Batch, if_neg (show ¬ t.compatible entries = true from hc)]
      obtain ⟨schema, contentHash, heq⟩ := h
      cases heq
      exact ⟨schema, contentHash, rfl⟩

theorem meets : ∀ call, Meets call (program call)
  | .putObject schema contentHash canonical =>
    transaction_meets (putObject_fulfils schema contentHash canonical)
  | .getObject schema contentHash => onConnection_meets (selectByHash_reports schema contentHash)
  | .bind key schema contentHash => transaction_meets (insertThenRead_fulfils key schema contentHash)
  | .getBinding key => onConnection_meets (selectBinding_reports key)
  | .getBoundObjects keys => by
    by_cases h : keys = []
    · subst h
      exact pure_meets fun t => ⟨⟨_, rfl, by simp⟩, rfl⟩
    · rw [program, if_neg h]
      exact onConnection_meets (getBoundObjects_reports keys)
  | .putBoundObjects entries => by
    by_cases h : entries = []
    · subst h
      exact pure_meets fun t => ⟨⟨_, rfl, by simp⟩, rfl⟩
    · rw [program, if_neg h]
      exact transaction_meets (batch_fulfils (putBoundObjects_ensures entries))
  | .deleteBindings keys => by
    by_cases h : keys = []
    · subst h
      exact pure_meets fun t => ⟨⟨_, rfl, by simp⟩, by simp [Tables.after]⟩
    · rw [program, if_neg h]
      exact transaction_meets (deleteBindings_fulfils keys)

/-- The SQLite backend over any engine. -/
def backend (E : Engine) : Backend := E.backend program meets

end SqliteBackend

end DrStore.Store.Sqlite
