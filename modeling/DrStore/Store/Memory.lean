import DrStore.Store.Contract

/-! # The in-memory backend (storage_backends/memory.py)

Two dicts under one lock: every call is atomic. A batch first checks all its entries against
the batch itself and the stored rows, then writes; a call that raises has written nothing. -/
namespace DrStore.Store.Memory
open DrStore.Base.Collections DrStore.Store.ContentAddressing DrStore.Store.Contract

structure MemoryBackend where
  objects : Dict RowKey String
  bindings : Dict String RowKey

namespace MemoryBackend

def empty : MemoryBackend := ⟨Dict.empty, Dict.empty⟩

def putObject (m : MemoryBackend) (schema contentHash canonical : String) :
    MemoryBackend × PutOutcome :=
  match m.objects.get? (schema, contentHash) with
  | none => ({ m with objects := m.objects.set (schema, contentHash) canonical }, ⟨true, canonical⟩)
  | some existing => (m, ⟨false, existing⟩)

/-- The exact row, else the oldest row with the hash. -/
def getObject (m : MemoryBackend) (schema contentHash : String) : Option (String × String) :=
  match m.objects.get? (schema, contentHash) with
  | some exact => some (schema, exact)
  | none => (m.objects.items.find? fun p => decide (p.1.2 = contentHash)).map fun p => (p.1.1, p.2)

def bind (m : MemoryBackend) (key schema contentHash : String) : MemoryBackend × BindOutcome :=
  match m.bindings.get? key with
  | none => ({ m with bindings := m.bindings.set key (schema, contentHash) },
      ⟨true, schema, contentHash⟩)
  | some existing => (m, ⟨false, existing.1, existing.2⟩)

def getBoundObjects (m : MemoryBackend) : List String → Dict String BoundObjectRow →
    Dict String BoundObjectRow
  | [], rows => rows
  | key :: keys, rows => match m.bindings.get? key with
    | none => m.getBoundObjects keys rows
    | some r => m.getBoundObjects keys (rows.set key ⟨r.1, r.2, m.objects.get? r⟩)

/-- Pop each key; the deleted keys in the order of their deletion. -/
def deleteBindings : List String → Dict String RowKey → List String →
    Dict String RowKey × List String
  | [], bindings, deleted => (bindings, deleted)
  | key :: keys, bindings, deleted =>
    if bindings.contains key then deleteBindings keys (bindings.erase key) (deleted ++ [key])
    else deleteBindings keys bindings deleted

/-- The first loop of a batch: the proposed rows, or a conflict. -/
def proposeObjects (stored : Dict RowKey String) : List BoundObjectWrite → Dict RowKey String →
    Except StoreError (Dict RowKey String)
  | [], proposed => .ok proposed
  | e :: entries, proposed =>
    let proposed := proposed.setdefault e.reference e.canonical
    if proposed.get? e.reference ≠ some e.canonical ∨
        (stored.get? e.reference).any (fun s => s != e.canonical) = true then
      .error (.objectConflict e.schema e.contentHash)
    else proposeObjects stored entries proposed

/-- The second loop of a batch: bind each key once. -/
def bindEntries : List BoundObjectWrite → Dict String RowKey → Dict String BindOutcome →
    Dict String RowKey × Dict String BindOutcome
  | [], bindings, outcomes => (bindings, outcomes)
  | e :: entries, bindings, outcomes =>
    if outcomes.contains e.key then bindEntries entries bindings outcomes
    else match bindings.get? e.key with
    | none => bindEntries entries (bindings.set e.key e.reference)
        (outcomes.set e.key ⟨true, e.schema, e.contentHash⟩)
    | some r => bindEntries entries bindings (outcomes.set e.key ⟨false, r.1, r.2⟩)

def putBoundObjects (m : MemoryBackend) (entries : List BoundObjectWrite) :
    MemoryBackend × Except StoreError (Dict String BindOutcome) :=
  match proposeObjects m.objects entries Dict.empty with
  | .error e => (m, .error e)
  | .ok proposed =>
    let (bindings, outcomes) := bindEntries entries m.bindings Dict.empty
    (⟨proposed.items.foldl (fun d p => d.set p.1 p.2) m.objects, bindings⟩, .ok outcomes)

def step (m : MemoryBackend) (call : Call) : MemoryBackend × Except StoreError Reply :=
  match call.validate with
  | .error e => (m, .error e)
  | .ok _ => match call with
    | .putObject schema contentHash canonical =>
      let (m, outcome) := m.putObject schema contentHash canonical
      (m, .ok (.put outcome))
    | .getObject schema contentHash => (m, .ok (.object (m.getObject schema contentHash)))
    | .bind key schema contentHash =>
      let (m, outcome) := m.bind key schema contentHash
      (m, .ok (.bind outcome))
    | .getBinding key => (m, .ok (.binding (m.bindings.get? key)))
    | .getBoundObjects keys => (m, .ok (.rows (m.getBoundObjects keys Dict.empty)))
    | .putBoundObjects entries =>
      let (m, out) := m.putBoundObjects entries
      (m, out.map .outcomes)
    | .deleteBindings keys =>
      let (bindings, deleted) := deleteBindings keys m.bindings []
      ({ m with bindings := bindings }, .ok (.deleted deleted))

def tables (m : MemoryBackend) : Tables := ⟨m.objects.get?, m.bindings.get?⟩

/-! ## Single rows -/

theorem putObject_spec (m : MemoryBackend) (schema contentHash canonical : String) :
    (m.putObject schema contentHash canonical).1.tables =
        m.tables.after (.putObject schema contentHash canonical) ∧
      (m.putObject schema contentHash canonical).2 =
        ⟨(m.objects.get? (schema, contentHash)).isNone,
          (m.objects.get? (schema, contentHash)).getD canonical⟩ := by
  unfold putObject
  split
  · rename_i h
    simp [tables, Tables.after, Dict.get?_set_absent h, h]
  · rename_i existing h
    simp [tables, Tables.after, putAbsent_present h, h]

theorem bind_spec (m : MemoryBackend) (key schema contentHash : String) :
    (m.bind key schema contentHash).1.tables =
        m.tables.after (.bind key schema contentHash) ∧
      (m.bind key schema contentHash).2 = ⟨(m.bindings.get? key).isNone,
        ((m.bindings.get? key).getD (schema, contentHash)).1,
        ((m.bindings.get? key).getD (schema, contentHash)).2⟩ := by
  unfold bind
  split
  · rename_i h
    simp [tables, Tables.after, Dict.get?_set_absent h, h]
  · rename_i existing h
    simp [tables, Tables.after, putAbsent_present h, h]

theorem getObject_spec (m : MemoryBackend) (schema contentHash : String) :
    m.tables.Answers (.getObject schema contentHash)
      (.ok (.object (m.getObject schema contentHash))) := by
  simp only [Tables.Answers, tables, getObject]
  cases hexact : m.objects.get? (schema, contentHash) with
  | some exact => rfl
  | none =>
    simp only
    cases hfind : m.objects.items.find? fun p => decide (p.1.2 = contentHash) with
    | some p =>
      left
      have hp := List.find?_some hfind
      simp only [decide_eq_true_eq] at hp
      refine ⟨p.1.1, p.2, ?_, rfl⟩
      rw [Dict.get?_eq_some, ← hp]
      exact List.mem_of_find?_eq_some hfind
    | none =>
      right
      refine ⟨?_, rfl⟩
      intro other
      rw [List.find?_eq_none] at hfind
      cases hother : m.objects.get? (other, contentHash) with
      | none => rfl
      | some c =>
        have h := hfind _ (Dict.get?_eq_some.mp hother)
        simp at h

theorem getBoundObjects_spec (m : MemoryBackend) (keys : List String)
    (rows : Dict String BoundObjectRow) (k : String) :
    (m.getBoundObjects keys rows).get? k =
      if k ∈ keys ∧ (m.bindings.get? k).isSome = true then
        (m.bindings.get? k).map fun r => ⟨r.1, r.2, m.objects.get? r⟩
      else rows.get? k := by
  induction keys generalizing rows with
  | nil => simp [getBoundObjects]
  | cons key keys ih =>
    rw [getBoundObjects]
    split
    · rename_i hnone
      rw [ih]
      by_cases hk : k = key
      · subst hk
        simp [hnone]
      · simp [hk]
    · rename_i r hsome
      rw [ih, Dict.get?_set]
      by_cases hk : k = key
      · subst hk
        simp [hsome]
      · simp [hk]

/-! ## Deleting -/

theorem deleteBindings_spec (keys : List String) (bindings : Dict String RowKey)
    (deleted : List String) :
    (∀ k, (deleteBindings keys bindings deleted).1.get? k =
        if k ∈ keys then none else bindings.get? k) ∧
      ∀ k, k ∈ (deleteBindings keys bindings deleted).2 ↔
        k ∈ deleted ∨ (k ∈ keys ∧ (bindings.get? k).isSome = true) := by
  induction keys generalizing bindings deleted with
  | nil => simp [deleteBindings]
  | cons key keys ih =>
    rw [deleteBindings]
    by_cases hc : bindings.contains key = true
    · rw [if_pos hc]
      obtain ⟨h1, h2⟩ := ih (bindings.erase key) (deleted ++ [key])
      refine ⟨?_, ?_⟩
      · intro k
        rw [h1, Dict.get?_erase]
        by_cases hk : k = key <;> simp [hk]
      · intro k
        rw [h2, Dict.get?_erase]
        by_cases hk : k = key
        · subst hk
          simp [show (bindings.get? k).isSome = true from hc]
        · simp [hk]
    · rw [if_neg hc]
      obtain ⟨h1, h2⟩ := ih bindings deleted
      have hnone : bindings.get? key = none := by
        rw [Dict.contains] at hc
        cases hg : bindings.get? key with
        | none => rfl
        | some r => simp [hg] at hc
      refine ⟨?_, ?_⟩
      · intro k
        rw [h1]
        by_cases hk : k = key
        · subst hk
          simp [hnone]
        · simp [hk]
      · intro k
        rw [h2]
        by_cases hk : k = key
        · subst hk
          simp [hnone]
        · simp [hk]

/-! ## Batches -/

/-- The entry's text is the one proposed for its row, and the one stored there if any. -/
def Fits (proposed stored : RowKey → Option String) (e : BoundObjectWrite) : Prop :=
  proposed e.reference = some e.canonical ∧
    ∀ s, stored e.reference = some s → s = e.canonical

theorem proposeObjects_spec (stored : Dict RowKey String) (entries : List BoundObjectWrite)
    (proposed : Dict RowKey String) :
    match proposeObjects stored entries proposed with
    | .ok p => p.get? = fill proposed.get? (objectPairs entries) ∧
        ∀ e ∈ entries, Fits (fill proposed.get? (objectPairs entries)) stored.get? e
    | .error err => (∃ schema contentHash, err = .objectConflict schema contentHash) ∧
        ¬ ∀ e ∈ entries, Fits (fill proposed.get? (objectPairs entries)) stored.get? e := by
  induction entries generalizing proposed with
  | nil => exact ⟨rfl, by simp⟩
  | cons e entries ih =>
    have hfill : fill proposed.get? (objectPairs (e :: entries)) =
        fill (proposed.setdefault e.reference e.canonical).get? (objectPairs entries) :=
      Dict.fill_setdefault ..
    -- what the batch proposes for this entry's row is settled here
    have hrow : fill proposed.get? (objectPairs (e :: entries)) e.reference =
        (proposed.setdefault e.reference e.canonical).get? e.reference :=
      Dict.fill_setdefault_self ..
    rw [proposeObjects]
    by_cases hc : (proposed.setdefault e.reference e.canonical).get? e.reference ≠
        some e.canonical ∨ (stored.get? e.reference).any (fun s => s != e.canonical) = true
    · simp only [if_pos hc]
      refine ⟨⟨_, _, rfl⟩, ?_⟩
      intro h
      obtain ⟨hprop, hstored⟩ := h e List.mem_cons_self
      rw [hrow] at hprop
      rcases hc with hc | hc
      · exact hc hprop
      · cases hs : stored.get? e.reference with
        | none => simp [hs] at hc
        | some s => simp [hs, hstored s hs] at hc
    · simp only [if_neg hc]
      have hfits : Fits (fill proposed.get? (objectPairs (e :: entries))) stored.get? e := by
        push Not at hc
        refine ⟨hrow.trans hc.1, ?_⟩
        intro s hs
        have h := hc.2
        rw [hs] at h
        simpa using h
      have h := ih (proposed.setdefault e.reference e.canonical)
      rw [← hfill] at h
      revert h
      split
      · intro h
        refine ⟨h.1, ?_⟩
        intro e' he'
        rcases List.mem_cons.mp he' with rfl | he'
        · exact hfits
        · exact h.2 e' he'
      · intro h
        refine ⟨h.1, ?_⟩
        intro hall
        exact h.2 fun e' he' => hall e' (List.mem_cons_of_mem _ he')

theorem fits_iff_compatible (m : MemoryBackend) (entries : List BoundObjectWrite) :
    (∀ e ∈ entries, Fits (fill (Dict.empty : Dict RowKey String).get? (objectPairs entries))
      m.objects.get? e) ↔ m.tables.compatible entries = true := by
  rw [Tables.compatible_iff]
  simp only [Fits, fill_apply, Dict.get?_empty, Option.none_or, tables]

/-- Writing the proposed rows over the stored ones fills in the missing ones, since a batch
that got here proposes no other text for a stored row. -/
theorem update_objects (m : MemoryBackend) {entries : List BoundObjectWrite}
    {proposed : Dict RowKey String}
    (hget : proposed.get? = fill (Dict.empty : Dict RowKey String).get? (objectPairs entries))
    (hc : m.tables.compatible entries = true) :
    (proposed.items.foldl (fun d p => d.set p.1 p.2) m.objects).get? =
      m.tables.objectsAfter entries := by
  funext j
  rw [@Dict.get?_foldl_set _ _ _ proposed.get? _ _ (fun p hp => Dict.get?_eq_some.mpr hp),
    Tables.objectsAfter, fill_apply]
  have hj : proposed.get? j = firstOf (objectPairs entries) j := by
    rw [hget, fill_apply]
    rfl
  by_cases hmem : j ∈ proposed.items.map Prod.fst
  · rw [if_pos hmem, hj]
    cases hstored : m.tables.objects j with
    | none => rfl
    | some s =>
      obtain ⟨c, hfirst⟩ := Option.isSome_iff_exists.mp
        (Dict.contains_iff.mpr hmem : (proposed.get? j).isSome = true)
      rw [hj] at hfirst
      obtain ⟨e, he, heq⟩ := List.mem_map.mp (firstOf_mem hfirst)
      simp only [Prod.mk.injEq] at heq
      obtain ⟨rfl, rfl⟩ := heq
      rw [hfirst, ((Tables.compatible_iff.mp hc) e he).2 s hstored]
      rfl
  · have hnone : proposed.get? j = none := Dict.get?_eq_none.mpr hmem
    rw [if_neg hmem, ← hj, hnone, Option.or_none]
    rfl

theorem bindEntries_spec (entries : List BoundObjectWrite) (bindings : Dict String RowKey)
    (outcomes : Dict String BindOutcome)
    (hbound : ∀ k, outcomes.contains k = true → ∃ r, bindings.get? k = some r) :
    (bindEntries entries bindings outcomes).1.get? =
        fill bindings.get? (bindingPairs entries) ∧
      ∀ k, (bindEntries entries bindings outcomes).2.get? k = (outcomes.get? k).or
        (if k ∈ entries.map BoundObjectWrite.key then
          Tables.boundOutcome (bindings.get? k) (fill bindings.get? (bindingPairs entries) k)
        else none) := by
  induction entries generalizing bindings outcomes with
  | nil => simp [bindEntries, bindingPairs, fill]
  | cons e entries ih =>
    have hcons : fill bindings.get? (bindingPairs (e :: entries)) =
        fill (putAbsent bindings.get? e.key e.reference) (bindingPairs entries) := rfl
    rw [bindEntries]
    by_cases hc : outcomes.contains e.key = true
    · rw [if_pos hc]
      obtain ⟨r, hr⟩ := hbound e.key hc
      rw [hcons, putAbsent_present hr]
      obtain ⟨h1, h2⟩ := ih bindings outcomes hbound
      refine ⟨h1, ?_⟩
      intro k
      rw [h2]
      by_cases hk : k = e.key
      · subst hk
        obtain ⟨o, ho⟩ := Option.isSome_iff_exists.mp hc
        simp [ho]
      · simp [hk]
    · rw [if_neg hc]
      have hnone : outcomes.get? e.key = none := by
        cases hg : outcomes.get? e.key with
        | none => rfl
        | some o => simp [Dict.contains, hg] at hc
      -- this entry decides the outcome of its key, the later ones do not touch it
      cases hb : bindings.get? e.key with
      | none =>
        have hset := Dict.get?_set_absent hb e.reference
        obtain ⟨h1, h2⟩ := ih (bindings.set e.key e.reference)
          (outcomes.set e.key ⟨true, e.schema, e.contentHash⟩) (by
            intro k hk
            rw [Dict.contains, Dict.get?_set] at hk
            rw [Dict.get?_set]
            by_cases hke : k = e.key
            · exact ⟨_, if_pos hke⟩
            · rw [if_neg hke] at hk ⊢
              exact hbound k hk)
        rw [hset] at h1 h2
        rw [hcons]
        refine ⟨h1, ?_⟩
        intro k
        rw [h2, Dict.get?_set]
        by_cases hk : k = e.key
        · subst hk
          simp [hnone, hb, fill_apply, putAbsent, Tables.boundOutcome, BoundObjectWrite.reference]
        · simp [hk, putAbsent, Ne.symm hk]
      | some r =>
        rw [hcons, putAbsent_present hb]
        obtain ⟨h1, h2⟩ := ih bindings (outcomes.set e.key ⟨false, r.1, r.2⟩) (by
            intro k hk
            rw [Dict.contains, Dict.get?_set] at hk
            by_cases hke : k = e.key
            · exact ⟨r, hke ▸ hb⟩
            · rw [if_neg hke] at hk
              exact hbound k hk)
        refine ⟨h1, ?_⟩
        intro k
        rw [h2, Dict.get?_set]
        by_cases hk : k = e.key
        · subst hk
          simp [hnone, hb, fill_apply, Tables.boundOutcome]
        · simp [hk]

theorem putBoundObjects_spec (m : MemoryBackend) (entries : List BoundObjectWrite) :
    m.tables.Answers (.putBoundObjects entries)
        ((m.putBoundObjects entries).2.map .outcomes) ∧
      (m.putBoundObjects entries).1.tables = m.tables.after (.putBoundObjects entries) := by
  have hspec := proposeObjects_spec m.objects entries Dict.empty
  rw [fits_iff_compatible] at hspec
  simp only [Tables.Answers, Tables.after, putBoundObjects]
  cases hp : proposeObjects m.objects entries Dict.empty with
  | ok proposed =>
    rw [hp] at hspec
    obtain ⟨hget, hc⟩ := hspec
    obtain ⟨h1, h2⟩ := bindEntries_spec entries m.bindings Dict.empty
      (by intro k hk; simp [Dict.contains] at hk)
    rw [if_pos hc, if_pos hc]
    refine ⟨⟨_, rfl, ?_⟩, ?_⟩
    · intro k
      rw [h2]
      rfl
    · rw [tables, update_objects m hget hc, h1]
      rfl
  | error err =>
    rw [hp] at hspec
    obtain ⟨⟨schema, contentHash, rfl⟩, hc⟩ := hspec
    rw [if_neg hc, if_neg hc]
    exact ⟨⟨schema, contentHash, rfl⟩, rfl⟩

/-! ## The backend -/

/-- **The in-memory backend meets the contract.** -/
theorem serves (m : MemoryBackend) (call : Call) :
    m.tables.Serves call (m.step call).2 (m.step call).1.tables := by
  unfold Tables.Serves step
  cases hv : call.validate with
  | error e => exact ⟨rfl, rfl⟩
  | ok _ =>
    cases call with
    | putObject schema contentHash canonical =>
      obtain ⟨h1, h2⟩ := m.putObject_spec schema contentHash canonical
      exact ⟨by simp only [Tables.Answers, h2]; rfl, h1⟩
    | getObject schema contentHash => exact ⟨m.getObject_spec schema contentHash, rfl⟩
    | bind key schema contentHash =>
      obtain ⟨h1, h2⟩ := m.bind_spec key schema contentHash
      exact ⟨by simp only [Tables.Answers, h2]; rfl, h1⟩
    | getBinding key => exact ⟨rfl, rfl⟩
    | getBoundObjects keys =>
      refine ⟨⟨_, rfl, ?_⟩, rfl⟩
      intro k
      rw [getBoundObjects_spec]
      cases hb : m.bindings.get? k <;> simp [tables, hb]
    | putBoundObjects entries => exact m.putBoundObjects_spec entries
    | deleteBindings keys =>
      obtain ⟨h1, h2⟩ := deleteBindings_spec keys m.bindings []
      refine ⟨⟨_, rfl, ?_⟩, ?_⟩
      · intro k
        rw [h2]
        simp [tables]
      · simp only [tables, Tables.after, Tables.mk.injEq, true_and]
        funext k
        exact h1 k

def backend : Backend := ⟨MemoryBackend, step, tables, serves⟩

end MemoryBackend

end DrStore.Store.Memory
