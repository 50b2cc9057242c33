import DrStore.Base.Collections
import DrStore.Base.Fallible
import DrStore.Base.Runs
import DrStore.Store.ContentAddressing

/-! # The backend contract (storage_backends/contract.py)

The calls and outcomes of a storage backend, the argument checks that all backends make in the
same order, and what a call does to two tables: objects by (schema, hash), bindings by key.
`Tables.Serves` is this contract; a `Backend` is any implementation that meets it. It fixes the
outcome of every call up to the order of dicts and sets, the entry a conflict names, and the
row that `get_object` picks when only other schemas have the hash. -/
namespace DrStore.Store.Contract
open DrStore.Base.Collections DrStore.Base.Fallible DrStore.Base.Runs
open DrStore.Store.ContentAddressing

/-- `(schema, content_hash)`, the key of an object row. -/
abbrev RowKey := String × String

structure PutOutcome where
  inserted : Bool
  storedCanonical : String
deriving DecidableEq

structure BindOutcome where
  bound : Bool
  existingSchema : String
  existingContentHash : String
deriving DecidableEq

structure BoundObjectRow where
  bindingSchema : String
  bindingContentHash : String
  canonical : Option String
deriving DecidableEq

structure BoundObjectWrite where
  key : String
  schema : String
  contentHash : String
  canonical : String
deriving DecidableEq

def BoundObjectWrite.reference (e : BoundObjectWrite) : RowKey := (e.schema, e.contentHash)

inductive Call where
  | putObject (schema contentHash canonical : String)
  | getObject (schema contentHash : String)
  | bind (key schema contentHash : String)
  | getBinding (key : String)
  | getBoundObjects (keys : List String)
  | putBoundObjects (entries : List BoundObjectWrite)
  | deleteBindings (keys : List String)

inductive Reply where
  | put (outcome : PutOutcome)
  | object (row : Option (String × String))
  | bind (outcome : BindOutcome)
  | binding (reference : Option RowKey)
  | rows (rows : Dict String BoundObjectRow)
  | outcomes (outcomes : Dict String BindOutcome)
  | deleted (keys : List String)

/-! ## Argument checks -/

def validateReference (schema contentHash : String) : Except StoreError Unit := do
  let _ ← validateReferenceSchema schema
  let _ ← validateContentHash contentHash
  return ()

theorem validateReference_ok {schema contentHash : String}
    (hs : isReferenceSchema schema = true) (hh : isContentHash contentHash = true) :
    validateReference schema contentHash = .ok () := by
  rw [validateReference, validateReferenceSchema, if_pos hs, validateContentHash, if_pos hh]
  rfl

def validateKeys : List String → Except StoreError Unit
  | [] => return ()
  | key :: keys => do
    let _ ← validateBindingKey key
    validateKeys keys

def validateEntries : List BoundObjectWrite → Except StoreError Unit
  | [] => return ()
  | e :: entries => do
    let _ ← validateBindingKey e.key
    validateReference e.schema e.contentHash
    validateEntries entries

theorem validateReference_valid {schema contentHash : String}
    (h : validateReference schema contentHash = .ok ()) :
    isReferenceSchema schema = true ∧ isContentHash contentHash = true := by
  obtain ⟨_, hs, h⟩ := bind_ok h
  obtain ⟨_, hh, _⟩ := bind_ok h
  refine ⟨?_, ?_⟩
  · by_contra hn
    rw [validateReferenceSchema, if_neg hn] at hs
    cases hs
  · by_contra hn
    rw [validateContentHash, if_neg hn] at hh
    cases hh

theorem validateKeys_mem {keys : List String} (h : validateKeys keys = .ok ()) {key : String}
    (hmem : key ∈ keys) : ∃ k, validateBindingKey key = .ok k := by
  induction keys with
  | nil => cases hmem
  | cons key' keys ih =>
    obtain ⟨k, hk, h⟩ := bind_ok h
    rcases List.mem_cons.mp hmem with rfl | hmem
    · exact ⟨k, hk⟩
    · exact ih h hmem

theorem validateEntries_mem {entries : List BoundObjectWrite}
    (h : validateEntries entries = .ok ()) {e : BoundObjectWrite} (hmem : e ∈ entries) :
    (∃ k, validateBindingKey e.key = .ok k) ∧ isReferenceSchema e.schema = true ∧
      isContentHash e.contentHash = true := by
  induction entries with
  | nil => cases hmem
  | cons e' entries ih =>
    obtain ⟨k, hk, h⟩ := bind_ok h
    obtain ⟨_, hr, h⟩ := bind_ok h
    rcases List.mem_cons.mp hmem with rfl | hmem
    · exact ⟨⟨k, hk⟩, validateReference_valid hr⟩
    · exact ih h hmem

def Call.validate : Call → Except StoreError Unit
  | .putObject schema contentHash _ => validateReference schema contentHash
  | .getObject schema contentHash => validateReference schema contentHash
  | .bind key schema contentHash => do
    let _ ← validateBindingKey key
    validateReference schema contentHash
  | .getBinding key => validateKeys [key]
  | .getBoundObjects keys => validateKeys keys
  | .putBoundObjects entries => validateEntries entries
  | .deleteBindings keys => validateKeys keys

/-! ## What a call does to the tables -/

def objectPairs (entries : List BoundObjectWrite) : List (RowKey × String) :=
  entries.map fun e => (e.reference, e.canonical)

def bindingPairs (entries : List BoundObjectWrite) : List (String × RowKey) :=
  entries.map fun e => (e.key, e.reference)

/-- The object rows a call offers. -/
def Call.objectWrites : Call → List (RowKey × String)
  | .putObject schema contentHash canonical => [((schema, contentHash), canonical)]
  | .putBoundObjects entries => objectPairs entries
  | _ => []

structure Tables where
  objects : RowKey → Option String
  bindings : String → Option RowKey

namespace Tables

def empty : Tables := ⟨fun _ => none, fun _ => none⟩

/-- The objects after a batch: of several texts for one row the first is stored. -/
def objectsAfter (t : Tables) (entries : List BoundObjectWrite) : RowKey → Option String :=
  fill t.objects (objectPairs entries)

/-- The bindings after a batch: an unbound key gets its first entry. -/
def bindingsAfter (t : Tables) (entries : List BoundObjectWrite) : String → Option RowKey :=
  fill t.bindings (bindingPairs entries)

/-- No entry's text differs from the row it would share. -/
def compatible (t : Tables) (entries : List BoundObjectWrite) : Bool :=
  entries.all fun e => decide (t.objectsAfter entries e.reference = some e.canonical)

/-- Batches clash within themselves or with a stored row. -/
theorem compatible_iff {t : Tables} {entries : List BoundObjectWrite} :
    t.compatible entries = true ↔ ∀ e ∈ entries,
      firstOf (objectPairs entries) e.reference = some e.canonical ∧
        ∀ s, t.objects e.reference = some s → s = e.canonical := by
  simp only [compatible, List.all_eq_true, decide_eq_true_eq, objectsAfter, fill_apply]
  constructor
  · intro h e he
    have hmem : (e.reference, e.canonical) ∈ objectPairs entries := List.mem_map_of_mem he
    refine ⟨?_, ?_⟩
    · obtain ⟨c, hc⟩ := Option.isSome_iff_exists.mp
        (firstOf_isSome.mpr (List.mem_map.mpr ⟨_, hmem, rfl⟩))
      obtain ⟨e', he', heq⟩ := List.mem_map.mp (firstOf_mem hc)
      simp only [Prod.mk.injEq] at heq
      -- the first entry for this row is itself compatible with the row
      have h' := h e' he'
      rw [heq.1, heq.2, h e he, Option.some.injEq] at h'
      rw [hc, h']
    · intro s hs
      have h' := h e he
      rw [hs] at h'
      exact Option.some.inj h'
  · intro h e he
    obtain ⟨hfirst, hstored⟩ := h e he
    cases hs : t.objects e.reference with
    | none => simpa using hfirst
    | some s => simp [hstored s hs]

def after (t : Tables) : Call → Tables
  | .putObject schema contentHash canonical =>
    { t with objects := putAbsent t.objects (schema, contentHash) canonical }
  | .bind key schema contentHash =>
    { t with bindings := putAbsent t.bindings key (schema, contentHash) }
  | .putBoundObjects entries =>
    if t.compatible entries then ⟨t.objectsAfter entries, t.bindingsAfter entries⟩ else t
  | .deleteBindings keys =>
    { t with bindings := fun k => if k ∈ keys then none else t.bindings k }
  | .getObject _ _ | .getBinding _ | .getBoundObjects _ => t

/-- Objects only ever get inserted. -/
theorem after_objects (t : Tables) (call : Call) :
    (t.after call).objects = t.objects ∨
      (t.after call).objects = fill t.objects call.objectWrites := by
  cases call with
  | putObject schema contentHash canonical => exact .inr rfl
  | putBoundObjects entries =>
    rw [after]
    split
    · exact .inr rfl
    · exact .inl rfl
  | getObject schema contentHash => exact .inl rfl
  | bind key schema contentHash => exact .inl rfl
  | getBinding key => exact .inl rfl
  | getBoundObjects keys => exact .inl rfl
  | deleteBindings keys => exact .inl rfl

def boundOutcome (before after : Option RowKey) : Option BindOutcome :=
  after.map fun r => ⟨before.isNone, r.1, r.2⟩

/-- The replies the contract allows to a call with valid arguments. -/
def Answers (t : Tables) : Call → Except StoreError Reply → Prop
  | .putObject schema contentHash canonical, out =>
    out = .ok (.put ⟨(t.objects (schema, contentHash)).isNone,
      (t.objects (schema, contentHash)).getD canonical⟩)
  | .getObject schema contentHash, out => match t.objects (schema, contentHash) with
    | some canonical => out = .ok (.object (some (schema, canonical)))
    | none => (∃ other canonical, t.objects (other, contentHash) = some canonical ∧
          out = .ok (.object (some (other, canonical)))) ∨
        ((∀ other, t.objects (other, contentHash) = none) ∧ out = .ok (.object none))
  | .bind key schema contentHash, out =>
    out = .ok (.bind ⟨(t.bindings key).isNone, ((t.bindings key).getD (schema, contentHash)).1,
      ((t.bindings key).getD (schema, contentHash)).2⟩)
  | .getBinding key, out => out = .ok (.binding (t.bindings key))
  | .getBoundObjects keys, out => ∃ rows, out = .ok (.rows rows) ∧ ∀ k, rows.get? k =
      if k ∈ keys then (t.bindings k).map fun r => ⟨r.1, r.2, t.objects r⟩ else none
  | .putBoundObjects entries, out =>
    if t.compatible entries then ∃ outcomes, out = .ok (.outcomes outcomes) ∧
      ∀ k, outcomes.get? k = if k ∈ entries.map BoundObjectWrite.key then
        boundOutcome (t.bindings k) (t.bindingsAfter entries k) else none
    else ∃ schema contentHash, out = .error (.objectConflict schema contentHash)
  | .deleteBindings keys, out => ∃ deleted, out = .ok (.deleted deleted) ∧
      ∀ k, k ∈ deleted ↔ k ∈ keys ∧ (t.bindings k).isSome = true

/-- **The contract**: a call with invalid arguments raises and changes nothing; any other
replies as allowed and leaves the tables as it should. -/
def Serves (t : Tables) (call : Call) (out : Except StoreError Reply) (t' : Tables) : Prop :=
  match call.validate with
  | .error e => out = .error e ∧ t' = t
  | .ok _ => t.Answers call out ∧ t' = t.after call

end Tables

/-! ## Implementations -/

structure Backend where
  State : Type
  step : State → Call → State × Except StoreError Reply
  tables : State → Tables
  serves : ∀ s call, (tables s).Serves call (step s call).2 (tables (step s call).1)

/-- A call either changes nothing or does what the contract says. -/
theorem Backend.tables_step (B : Backend) (s : B.State) (call : Call) :
    B.tables (B.step s call).1 = B.tables s ∨
      B.tables (B.step s call).1 = (B.tables s).after call := by
  have h := B.serves s call
  unfold Tables.Serves at h
  split at h
  · exact .inl h.2
  · exact .inr h.2

/-- A call with valid arguments. -/
theorem Backend.serves_valid (B : Backend) (s : B.State) {call : Call}
    (hv : call.validate = .ok ()) : (B.tables s).Answers call (B.step s call).2 ∧
      B.tables (B.step s call).1 = (B.tables s).after call := by
  have h := B.serves s call
  rw [Tables.Serves, hv] at h
  exact h

/-- A call that returns had valid arguments. -/
theorem Backend.validate_ok (B : Backend) {s : B.State} {call : Call} {reply : Reply}
    (hout : (B.step s call).2 = .ok reply) : call.validate = .ok () := by
  have h := B.serves s call
  unfold Tables.Serves at h
  split at h
  · rw [h.1] at hout
    cases hout
  · assumption

theorem Backend.serves_ok (B : Backend) (s : B.State) {call : Call} {reply : Reply}
    (hout : (B.step s call).2 = .ok reply) : (B.tables s).Answers call (.ok reply) ∧
      B.tables (B.step s call).1 = (B.tables s).after call :=
  hout ▸ B.serves_valid s (B.validate_ok hout)

def Backend.machine (B : Backend) : Machine B.State Call (Except StoreError Reply) := ⟨B.step⟩

/-- Two outcomes of one call that differ only where the contract leaves it open. -/
def Same (t : Tables) : Call → Except StoreError Reply → Except StoreError Reply → Prop
  | .getObject schema contentHash, .ok (.object row), .ok (.object row') =>
    if (t.objects (schema, contentHash)).isSome then row = row' else row.isSome = row'.isSome
  | _, .ok (.rows rows), .ok (.rows rows') => ∀ k, rows.get? k = rows'.get? k
  | _, .ok (.outcomes o), .ok (.outcomes o') => ∀ k, o.get? k = o'.get? k
  | _, .ok (.deleted keys), .ok (.deleted keys') => ∀ k, k ∈ keys ↔ k ∈ keys'
  | _, .error (.objectConflict _ _), .error (.objectConflict _ _) => True
  | _, out, out' => out = out'

theorem same_error (t : Tables) (call : Call) (e : StoreError) :
    Same t call (.error e) (.error e) := by
  cases call <;> cases e <;> simp [Same]

theorem same_conflict (t : Tables) (call : Call) (s h s' h' : String) :
    Same t call (.error (.objectConflict s h)) (.error (.objectConflict s' h')) := by
  cases call <;> simp [Same]

theorem answers_same {t : Tables} {call : Call} {out out' : Except StoreError Reply}
    (h : t.Answers call out) (h' : t.Answers call out') : Same t call out out' := by
  cases call with
  | putObject schema contentHash canonical => rw [h, h']; simp [Same]
  | bind key schema contentHash => rw [h, h']; simp [Same]
  | getBinding key => rw [h, h']; simp [Same]
  | getObject schema contentHash =>
    simp only [Tables.Answers] at h h'
    split at h
    · rename_i canonical heq
      rw [heq] at h'
      rw [h, h']
      simp [Same]
    · rename_i heq
      rw [heq] at h'
      rcases h with ⟨s, c, hs, rfl⟩ | ⟨hnone, rfl⟩ <;>
        rcases h' with ⟨s', c', hs', rfl⟩ | ⟨hnone', rfl⟩
      · simp [Same, heq]
      · rw [hnone' s] at hs; cases hs
      · rw [hnone s'] at hs'; cases hs'
      · simp [Same, heq]
  | getBoundObjects keys =>
    obtain ⟨rows, rfl, hrows⟩ := h
    obtain ⟨rows', rfl, hrows'⟩ := h'
    intro k
    rw [hrows, hrows']
  | putBoundObjects entries =>
    simp only [Tables.Answers] at h h'
    split at h
    · rename_i hc
      rw [if_pos hc] at h'
      obtain ⟨o, rfl, ho⟩ := h
      obtain ⟨o', rfl, ho'⟩ := h'
      intro k
      rw [ho, ho']
    · rename_i hc
      rw [if_neg hc] at h'
      obtain ⟨s, hash, rfl⟩ := h
      obtain ⟨s', hash', rfl⟩ := h'
      exact same_conflict ..
  | deleteBindings keys =>
    obtain ⟨ks, rfl, hks⟩ := h
    obtain ⟨ks', rfl, hks'⟩ := h'
    intro k
    rw [hks, hks']

/-- The contract fixes the tables, and the outcome up to `Same`. -/
theorem serves_same {t t₁ t₂ : Tables} {call : Call} {out out' : Except StoreError Reply}
    (h : t.Serves call out t₁) (h' : t.Serves call out' t₂) : t₁ = t₂ ∧ Same t call out out' := by
  unfold Tables.Serves at h h'
  cases hv : call.validate with
  | error e =>
    rw [hv] at h h'
    obtain ⟨rfl, rfl⟩ := h
    obtain ⟨rfl, rfl⟩ := h'
    exact ⟨rfl, same_error ..⟩
  | ok _ =>
    rw [hv] at h h'
    obtain ⟨ha, rfl⟩ := h
    obtain ⟨ha', rfl⟩ := h'
    exact ⟨rfl, answers_same ha ha'⟩

end DrStore.Store.Contract
