import DrStore.Store.Agreement
import DrStore.Store.Bindings
import DrStore.Store.RecordCache

/-! # The record cache is a first-writer-wins map

What a key holds, by the calls that took effect: the first entry offered for it since it was last
evicted. A call took effect when it returned, and when it raised although its backend had carried
it out. `Holds` ties that to the tables: the key is bound to the reference of the entry's canonical
text, and the text is stored. Every call keeps this, so no read meets corruption. -/
namespace DrStore.Store.FirstWriter
open DrStore.Base.Collections DrStore.Base.Fallible DrStore.Base.Runs
open DrStore.Store.ContentAddressing DrStore.Store.Contract DrStore.Store.Immutability
open DrStore.Store.Agreement DrStore.Store.ObjectStore DrStore.Store.RecordCache
open DrStore.Store.Sqlite

variable {D : DrSerialize}

/-! ## The map -/

/-- The validated entry of a mapping for a key. -/
def offered (entries : Dict String (String × D.Jsonable)) (key : String) :
    Option (String × D.Jsonable) :=
  (entries.get? key).bind fun entry => (D.validateStrictJson entry.2).map (Prod.mk entry.1)

/-- What a key holds after a call that took effect. -/
def hold (key : String) (held : Option (String × D.Jsonable)) :
    CacheOp D → Option (String × D.Jsonable)
  | .put key' schema record => held.or (offered (Dict.empty.set key' (schema, record)) key)
  | .putMany entries => held.or (offered entries key)
  | .evictBindings keys => if key ∈ keys then none else held
  | .get _ _ | .getMany _ _ => held

/-- The first entry for the key since its last eviction. -/
def firstWriter (key : String) (ops : List (CacheOp D)) : Option (String × D.Jsonable) :=
  ops.foldl (hold key) none

def ifReturned (op : CacheOp D) : Except StoreError (CacheResult D) → List (CacheOp D)
  | .ok _ => [op]
  | .error _ => []

/-- The calls of a run that returned. -/
def returned (B : Backend) : Cache B → List (CacheEvent D) → List (CacheOp D)
  | _, [] => []
  | c, e :: evs =>
    let (c', out) := cacheStep B c e
    ifReturned e.op out ++ returned B c' evs

/-- The call, if it took effect: it returned, or it raised and would have returned otherwise, with
its backend call carried out. -/
def tookEffect (B : Backend) (c : Cache B) (e : CacheEvent D) : List (CacheOp D) :=
  match e.fault with
  | .raised => ifReturned e.op (cacheStep B c ⟨e.op, .none⟩).2
  | .none | .lost => ifReturned e.op (cacheStep B c e).2

/-- The calls of a run that took effect. -/
def carriedOut (B : Backend) : Cache B → List (CacheEvent D) → List (CacheOp D)
  | _, [] => []
  | c, e :: evs => tookEffect B c e ++ carriedOut B (cacheStep B c e).1 evs

theorem carriedOut_concat (B : Backend) (c : Cache B) (evs : List (CacheEvent D))
    (e : CacheEvent D) : carriedOut B c (evs ++ [e]) =
      carriedOut B c evs ++ tookEffect B ((cache D B).after c evs) e := by
  induction evs generalizing c with
  | nil => exact List.append_nil _
  | cons e' evs ih => rw [List.cons_append, carriedOut, ih, carriedOut, List.append_assoc]; rfl

/-- The reference of an entry: its schema, and the hash of its record's canonical text. -/
def RefersTo (D : DrSerialize) (reference : ObjectReference) (entry : String × D.Jsonable) : Prop :=
  reference.schema = entry.1 ∧ ∃ canonical, D.canonicalJson entry.2 = some canonical ∧
    reference.contentHash = (D.sha256 canonical).text

/-! ## The map in the tables -/

/-- The tables bind the key to the entry's reference and store its text. -/
def Stored (D : DrSerialize) (t : Tables) (key : String) (entry : String × D.Jsonable)
    (reference : ObjectReference) : Prop :=
  reference.schema = entry.1 ∧ t.bindings key = some (reference.schema, reference.contentHash) ∧
    ∃ record canonical, Encodes D record entry.2 canonical ∧
      reference.contentHash = (D.sha256 canonical).text ∧
      t.objects (reference.schema, reference.contentHash) = some canonical

def Holds (D : DrSerialize) (t : Tables) (key : String) : Option (String × D.Jsonable) → Prop
  | none => t.bindings key = none
  | some entry => ∃ reference, Stored D t key entry reference

theorem Stored.refersTo {t : Tables} {key : String} {entry : String × D.Jsonable}
    {reference : ObjectReference} (h : Stored D t key entry reference) :
    RefersTo D reference entry := by
  obtain ⟨hschema, _, record, canonical, henc, hhash, _⟩ := h
  exact ⟨hschema, canonical, henc.2, hhash⟩

/-- A bound key holds an entry, under the reference it is bound to. -/
theorem Holds.bound {t : Tables} {key : String} {held : Option (String × D.Jsonable)}
    (h : Holds D t key held) {row : RowKey} (hrow : t.bindings key = some row) :
    ∃ entry reference, held = some entry ∧ Stored D t key entry reference ∧
      row = (reference.schema, reference.contentHash) := by
  cases held with
  | none =>
    rw [Holds, hrow] at h
    cases h
  | some entry =>
    obtain ⟨reference, hstored⟩ := h
    have hbound := hstored.2.1
    rw [hrow, Option.some.injEq] at hbound
    exact ⟨entry, reference, rfl, hstored, hbound⟩

/-! ## Writes -/

theorem prepareWrites_first {entries : List (String × String × D.Jsonable)}
    {writes : List BoundObjectWrite} (h : prepareWrites entries = .ok writes) {key schema : String}
    {record : D.Jsonable} (hfirst : firstOf entries key = some (schema, record)) :
    ∃ w ∈ writes, firstOf (bindingPairs writes) key = some w.reference ∧ w.schema = schema ∧
      isReferenceSchema schema = true ∧ w.contentHash = (D.sha256 w.canonical).text ∧
      ∃ validated, Encodes D record validated w.canonical := by
  induction entries generalizing writes with
  | nil => cases hfirst
  | cons entry entries ih =>
    obtain ⟨key', schema', record'⟩ := entry
    obtain ⟨_, _, h⟩ := bind_ok h
    obtain ⟨prepared, hp, h⟩ := bind_ok h
    obtain ⟨reference, hr, h⟩ := bind_ok h
    obtain ⟨rest, hrest, h⟩ := bind_ok h
    cases pure_ok h
    obtain ⟨hschema, hhash⟩ := make_ok hr
    obtain ⟨hencodes, hdigest⟩ := prepareRecord_ok hp
    by_cases hkey : key' = key
    · rw [firstOf_cons, if_pos hkey] at hfirst
      cases hfirst
      refine ⟨_, List.mem_cons_self, ?_, hschema, hschema ▸ reference.schema_valid, ?_, hencodes⟩
      · rw [bindingPairs, List.map_cons, firstOf_cons, if_pos hkey]
      · rw [hhash, hdigest]
    · rw [firstOf_cons, if_neg hkey] at hfirst
      obtain ⟨w, hw, hpair, hrest⟩ := ih hrest hfirst
      refine ⟨w, List.mem_cons_of_mem _ hw, ?_, hrest⟩
      rw [bindingPairs, List.map_cons, firstOf_cons, if_neg hkey]
      exact hpair

theorem prepareWrites_absent {entries : List (String × String × D.Jsonable)}
    {writes : List BoundObjectWrite} (h : prepareWrites entries = .ok writes) {key : String}
    (hnone : firstOf entries key = none) : firstOf (bindingPairs writes) key = none := by
  have hkeys : (bindingPairs writes).map Prod.fst = entries.map Prod.fst := by
    rw [bindingPairs, List.map_map, ← prepareWrites_keys h]
    rfl
  by_contra hsome
  have hmem := firstOf_isSome.mp (Option.ne_none_iff_isSome.mp hsome)
  rw [hkeys, ← firstOf_isSome, hnone] at hmem
  cases hmem

theorem winners_total {items : List (String × BindOutcome)} (d : Dict String ObjectReference)
    (h : ∀ key o, (key, o) ∈ items → ∃ r : ObjectReference,
      o.existingSchema = r.schema ∧ o.existingContentHash = r.contentHash) :
    ∃ w, winners items d = .ok w := by
  induction items generalizing d with
  | nil => exact ⟨d, rfl⟩
  | cons item items ih =>
    obtain ⟨key, o⟩ := item
    obtain ⟨r, hs, hh⟩ := h key o List.mem_cons_self
    obtain ⟨w, hw⟩ := ih (d.set key r) fun key' o' hmem => h key' o' (List.mem_cons_of_mem _ hmem)
    refine ⟨w, ?_⟩
    rw [winners, hs, hh, ObjectReference.make_self, ok_bind]
    exact hw

/-- A batch without conflict: every key holds what it held, or else what the batch offers. -/
theorem holds_batch {t : Tables} {entries : Dict String (String × D.Jsonable)}
    {writes : List BoundObjectWrite} (hw : prepareWrites entries.items = .ok writes)
    (hc : t.compatible writes = true) {key : String} {held : Option (String × D.Jsonable)}
    (h : Holds D t key held) :
    Holds D ⟨t.objectsAfter writes, t.bindingsAfter writes⟩ key
      (held.or (offered entries key)) := by
  cases held with
  | some entry =>
    obtain ⟨reference, hschema, hbound, record, canonical, henc, hhash, hrow⟩ := h
    refine ⟨reference, hschema, ?_, record, canonical, henc, hhash, ?_⟩
    · show fill t.bindings _ key = _
      rw [fill_apply, hbound]
      rfl
    · show fill t.objects _ _ = _
      rw [fill_apply, hrow]
      rfl
  | none =>
    have hfree : t.bindingsAfter writes key = firstOf (bindingPairs writes) key := by
      rw [Tables.bindingsAfter, fill_apply, h]
      rfl
    cases hget : entries.get? key with
    | none =>
      have hoffered : offered entries key = none := by rw [offered, hget]; rfl
      rw [hoffered]
      exact hfree.trans (prepareWrites_absent hw hget)
    | some entry =>
      obtain ⟨schema, record⟩ := entry
      obtain ⟨w, hmem, hfirst, hschema, hvalid, hhash, validated, henc⟩ :=
        prepareWrites_first hw hget
      have hoffered : offered entries key = some (schema, validated) := by
        rw [offered, hget, Option.bind_some, henc.1]
        rfl
      rw [hoffered]
      simp only [Tables.compatible, List.all_eq_true, decide_eq_true_eq] at hc
      subst hschema
      exact ⟨⟨w.schema, w.contentHash, hvalid, hhash ▸ (D.sha256 w.canonical).valid⟩, rfl,
        hfree.trans hfirst, record, w.canonical, henc, hhash, hc w hmem⟩

/-- What the keys hold, all at once. -/
def Agrees (D : DrSerialize) (t : Tables) (held : String → Option (String × D.Jsonable)) : Prop :=
  ∀ key, Holds D t key (held key)

/-- The winners that a batch replies are the references of what its keys hold afterwards. -/
theorem batch_winners {before : String → Option RowKey} {t : Tables} {keys : List String}
    {outcomes : Dict String BindOutcome} {held : String → Option (String × D.Jsonable)}
    (h : Agrees D t held)
    (hout : ∀ k, outcomes.get? k =
      if k ∈ keys then Tables.boundOutcome (before k) (t.bindings k) else none)
    (hbound : ∀ k ∈ keys, (t.bindings k).isSome = true) :
    ∃ w, winners outcomes.items Dict.empty = .ok w ∧ ∀ key ∈ keys,
      ∃ entry reference, held key = some entry ∧ RefersTo D reference entry ∧
        w.get? key = some reference := by
  -- an outcome names the reference its key is bound to
  have houtcome : ∀ key o, (key, o) ∈ outcomes.items → ∃ entry reference,
      held key = some entry ∧ RefersTo D reference entry ∧
        o.existingSchema = reference.schema ∧ o.existingContentHash = reference.contentHash := by
    intro key o hmem
    have hget := hout key
    rw [Dict.get?_eq_some.mpr hmem] at hget
    split at hget
    · obtain ⟨row, hrow, heq⟩ := Option.map_eq_some_iff.mp hget.symm
      obtain ⟨entry, reference, hheld, hstored, rfl⟩ := (h key).bound hrow
      subst heq
      exact ⟨entry, reference, hheld, hstored.refersTo, rfl, rfl⟩
    · cases hget
  obtain ⟨w, hw⟩ := winners_total Dict.empty fun key o hmem =>
    let ⟨_, reference, _, _, hs⟩ := houtcome key o hmem
    ⟨reference, hs⟩
  refine ⟨w, hw, ?_⟩
  intro key hkey
  obtain ⟨row, hrow⟩ := Option.isSome_iff_exists.mp (hbound key hkey)
  have hmem : (key, (⟨(before key).isNone, row.1, row.2⟩ : BindOutcome)) ∈ outcomes.items := by
    rw [← Dict.get?_eq_some, hout, if_pos hkey, hrow]
    rfl
  obtain ⟨entry, reference, hheld, hrefers, hs, hh⟩ := houtcome _ _ hmem
  obtain ⟨r, hr, hget⟩ := (Bindings.winners_get outcomes.nodup hw).1 _ hmem
  rw [hs, hh, ObjectReference.make_self] at hr
  cases hr
  exact ⟨entry, reference, hheld, hrefers, hget⟩

/-! ## Evictions -/

theorem evictBindings_ok {keys : List String} {p : Plan D} (h : evictBindings keys = .ok p) :
    ((∀ key, key ∉ keys) ∧ p = .done (.evictBindings Dict.empty)) ∨
    (validateKeys keys.eraseDups = .ok () ∧ p = .ask (.deleteBindings keys.eraseDups) (fun
      | .deleted deleted => .ok (.evictBindings (Dict.collect keys.eraseDups fun key =>
          some (if key ∈ deleted then .evicted else .absent)))
      | _ => .error .assertionError)) := by
  obtain ⟨_, hv, h⟩ := bind_ok h
  split at h
  · rename_i hnil
    refine .inl ⟨?_, (pure_ok h).symm⟩
    intro key hkey
    have hmem := List.mem_eraseDups.mpr hkey
    rw [hnil] at hmem
    cases hmem
  · exact .inr ⟨hv, (pure_ok h).symm⟩

/-- Deleting bindings empties the keys and leaves the others what they hold. -/
theorem holds_evicted {t : Tables} {held : String → Option (String × D.Jsonable)}
    (h : Agrees D t held) (keys : List String) :
    Agrees D (t.after (.deleteBindings keys.eraseDups))
      (fun key => if key ∈ keys then none else held key) := by
  intro key
  by_cases hkey : key ∈ keys
  · simp only [if_pos hkey, Holds, Tables.after, if_pos (List.mem_eraseDups.mpr hkey)]
  · have hkept : (t.after (.deleteBindings keys.eraseDups)).bindings key = t.bindings key :=
      if_neg fun hmem => hkey (List.mem_eraseDups.mp hmem)
    have hold := h key
    simp only [if_neg hkey]
    cases hheld : held key with
    | none =>
      rw [hheld] at hold
      exact hkept.trans hold
    | some entry =>
      rw [hheld] at hold
      obtain ⟨reference, hschema, hbound, hstored⟩ := hold
      exact ⟨reference, hschema, hkept.trans hbound, hstored⟩

/-! ## Reads -/

/-- What a read of this schema finds: the record held, if it is of the schema. -/
def hitFor (schema : String) : Option (String × D.Jsonable) → Option D.Jsonable
  | none => none
  | some entry => if entry.1 = schema then some entry.2 else none

theorem hitFor_eq_some {schema : String} {held : Option (String × D.Jsonable)}
    {record : D.Jsonable} : hitFor schema held = some record ↔ held = some (schema, record) := by
  cases held with
  | none => simp [hitFor]
  | some entry =>
    obtain ⟨schema', record'⟩ := entry
    by_cases hschema : schema' = schema <;> simp [hitFor, hschema]

/-- The row of a stored entry reads as a hit, or as a miss when another schema is asked for. -/
theorem readRow_stored (hD : D.Lawful) {t : Tables} {key schema : String}
    {entry : String × D.Jsonable} {reference : ObjectReference}
    (h : Stored D t key entry reference) :
    readRow schema ⟨reference.schema, reference.contentHash,
        t.objects (reference.schema, reference.contentHash)⟩ =
      .ok (hitFor schema (some entry)) := by
  obtain ⟨hschema, _, record, canonical, henc, hhash, hrow⟩ := h
  simp only [readRow, ObjectReference.make_self, ok_bind, hrow,
    verifyStoredRecord_ok hD henc hhash, hitFor, ← hschema]
  by_cases heq : reference.schema = schema
  · rw [if_neg (not_not.mpr heq), if_pos heq]
    rfl
  · rw [if_pos heq, if_neg heq]
    rfl

/-- The loop finds what each key holds and counts nothing. -/
theorem readRows_ok (hD : D.Lawful) {t : Tables} {held : String → Option (String × D.Jsonable)}
    (h : Agrees D t held) {schema : String} {rows : Dict String BoundObjectRow}
    {keys : List String} (hrows : ∀ key ∈ keys, rows.get? key =
      (t.bindings key).map fun r => ⟨r.1, r.2, t.objects r⟩)
    (count : Nat) (results : Dict String (Option D.Jsonable)) :
    ∃ hits, readRows schema rows keys count results = (count, .ok hits) ∧
      ∀ key, hits.get? key =
        if key ∈ keys then some (hitFor schema (held key)) else results.get? key := by
  induction keys generalizing results with
  | nil => exact ⟨results, rfl, by simp⟩
  | cons key keys ih =>
    have hstep : readRows schema rows (key :: keys) count results =
        readRows schema rows keys count (results.set key (hitFor schema (held key))) := by
      have hrow := hrows key List.mem_cons_self
      cases hb : t.bindings key with
      | none =>
        have hheld : held key = none := by
          cases hk : held key with
          | none => rfl
          | some entry =>
            have hold := h key
            rw [hk] at hold
            obtain ⟨reference, _, hbound, _⟩ := hold
            rw [hb] at hbound
            cases hbound
        rw [hb] at hrow
        rw [readRows, hrow, hheld]
        rfl
      | some row =>
        obtain ⟨entry, reference, hheld, hstored, rfl⟩ := (h key).bound hb
        rw [hb] at hrow
        rw [readRows, hrow, hheld]
        simp only [Option.map_some, readRow_stored hD hstored]
    obtain ⟨hits, hrun, hget⟩ := ih (fun key' hmem => hrows key' (List.mem_cons_of_mem _ hmem))
      (results.set key (hitFor schema (held key)))
    refine ⟨hits, hstep.trans hrun, ?_⟩
    intro key'
    rw [hget, Dict.get?_set]
    by_cases hk : key' = key
    · subst hk
      simp
    · simp [hk]

theorem validateKeys_eq_ok {keys : List String} :
    validateKeys keys = .ok () ↔ ∀ key ∈ keys, isStorageText key = true := by
  induction keys with
  | nil => simp [validateKeys, pure, Except.pure]
  | cons key keys ih =>
    rw [validateKeys, validateBindingKey, List.forall_mem_cons, ← ih]
    by_cases hkey : isStorageText key = true
    · simp [hkey]
    · simp [hkey]

theorem getBoundObjects_tables (B : Backend) (s : B.State) (keys : List String) (fault : Fault) :
    B.tables (getBoundObjects B s keys fault).1 = B.tables s := by
  have hstep : B.tables (B.step s (.getBoundObjects keys.eraseDups)).1 = B.tables s := by
    obtain hsame | hsame := B.tables_step s (.getBoundObjects keys.eraseDups)
    · exact hsame
    · exact hsame
  simp only [getBoundObjects]
  cases validateKeys keys.eraseDups with
  | error e => rfl
  | ok _ =>
    cases fault with
    | none => exact hstep
    | lost => rfl
    | raised => exact hstep

theorem getBoundObjects_ok (B : Backend) (s : B.State) {keys : List String}
    (hkeys : ∀ key ∈ keys, isStorageText key = true) :
    ∃ rows, (getBoundObjects B s keys .none).2 = .ok rows ∧ ∀ key ∈ keys, rows.get? key =
      ((B.tables s).bindings key).map fun r => ⟨r.1, r.2, (B.tables s).objects r⟩ := by
  have hv : validateKeys keys.eraseDups = .ok () :=
    validateKeys_eq_ok.mpr fun key hmem => hkeys key (List.mem_eraseDups.mp hmem)
  obtain ⟨rows, hout, hget⟩ :=
    (B.serves_valid s (show (Call.getBoundObjects keys.eraseDups).validate = .ok () from hv)).1
  refine ⟨rows, ?_, ?_⟩
  · simp only [getBoundObjects, hv, ask, hout]
    rfl
  · intro key hmem
    rw [hget, if_pos (List.mem_eraseDups.mpr hmem)]

/-- The checks of a read before it asks the store. -/
theorem read_checks {keys : List String} {schema checked : String}
    (h : (do let validatedSchema ← validateReferenceSchema schema
             validateKeys keys
             return validatedSchema) = (.ok checked : Except StoreError String)) :
    checked = schema ∧ ∀ key ∈ keys, isStorageText key = true := by
  obtain ⟨validatedSchema, hs, h⟩ := bind_ok h
  obtain ⟨_, hk, h⟩ := bind_ok h
  cases pure_ok h
  rw [validateReferenceSchema] at hs
  split at hs
  · cases hs
    exact ⟨rfl, validateKeys_eq_ok.mp hk⟩
  · cases hs

/-- A read changes no table and counts no corruption; with valid arguments it finds what the
keys hold, unless its backend call raises. -/
theorem readMany_spec (hD : D.Lawful) {B : Backend} {c : Cache B}
    {held : String → Option (String × D.Jsonable)} (h : Agrees D (B.tables c.store) held)
    (keys : List String) (schema : String) (fault : Fault) :
    let out := @readMany D B c keys schema fault
    B.tables out.1.store = B.tables c.store ∧ out.1.corruptionCount = c.corruptionCount ∧
      (isReferenceSchema schema = true → (∀ key ∈ keys, isStorageText key = true) →
        fault = .none → ∃ hits, out.2 = .ok hits ∧ ∀ key, hits.get? key =
          if key ∈ keys then some (hitFor schema (held key)) else none) := by
  simp only [readMany]
  split
  · rename_i e hchecks
    refine ⟨rfl, rfl, ?_⟩
    intro hschema hkeys _
    simp only [validateReferenceSchema, if_pos hschema, validateKeys_eq_ok.mpr hkeys, ok_bind]
      at hchecks
    cases hchecks
  · rename_i checked hchecks
    obtain ⟨rfl, hkeys⟩ := read_checks hchecks
    have htables := getBoundObjects_tables B c.store keys fault
    split
    · rename_i s e hout
      rw [hout] at htables
      refine ⟨htables, rfl, ?_⟩
      intro _ _ hfault
      obtain ⟨rows, hrows, _⟩ := getBoundObjects_ok B c.store hkeys
      rw [hfault] at hout
      rw [hout] at hrows
      cases hrows
    · rename_i s rows hout
      rw [hout] at htables
      cases fault with
      | lost | raised =>
        simp only [getBoundObjects] at hout
        split at hout
        · cases hout
        · cases hout
      | none =>
        obtain ⟨rows', hrows, hget⟩ := getBoundObjects_ok B c.store hkeys
        rw [hout] at hrows
        cases hrows
        obtain ⟨hits, hrun, hhits⟩ := @readRows_ok D hD _ _ h checked rows keys hget
          c.corruptionCount Dict.empty
        rw [hrun]
        exact ⟨htables, rfl, fun _ _ _ => ⟨hits, rfl, hhits⟩⟩

/-! ## Faults -/

section Faults

variable (B : Backend) (c : Cache B)

theorem step_raised (s : B.State) (op : Op D) :
    (ObjectStore.step B s ⟨op, .raised⟩).1 = (ObjectStore.step B s ⟨op, .none⟩).1 := by
  simp only [ObjectStore.step]
  cases plan op with
  | error e => rfl
  | ok p => cases p <;> rfl

theorem step_lost (s : B.State) (op : Op D) : (ObjectStore.step B s ⟨op, .lost⟩).1 = s := by
  simp only [ObjectStore.step]
  cases plan op with
  | error e => rfl
  | ok p => cases p <;> rfl

theorem step_returned {s : B.State} {op : Op D} {fault : Fault} {result : Result D}
    (h : (ObjectStore.step B s ⟨op, fault⟩).2 = .ok result) :
    (ObjectStore.step B s ⟨op, .none⟩).2 = .ok result := by
  simp only [ObjectStore.step] at h ⊢
  cases hplan : plan op with
  | error e =>
    rw [hplan] at h
    exact h
  | ok p =>
    rw [hplan] at h
    cases p with
    | done result' => exact h
    | ask call finish =>
      cases fault with
      | none => exact h
      | lost | raised => cases h

theorem readMany_raised (keys : List String) (schema : String) :
    (@readMany D B c keys schema .raised).1.store = (@readMany D B c keys schema .none).1.store := by
  simp only [readMany, getBoundObjects, ask]
  split
  · rfl
  · cases validateKeys keys.eraseDups with
    | error e => rfl
    | ok _ =>
      cases B.step c.store (.getBoundObjects keys.eraseDups) with
      | mk s out =>
        cases out with
        | error e => rfl
        | ok reply => cases reply <;> rfl

theorem readMany_lost (keys : List String) (schema : String) :
    (@readMany D B c keys schema .lost).1 = c := by
  simp only [readMany, getBoundObjects, ask]
  split
  · rfl
  · cases validateKeys keys.eraseDups <;> rfl

theorem readMany_returned {keys : List String} {schema : String} {fault : Fault}
    {hits : Dict String (Option D.Jsonable)} (h : (readMany B c keys schema fault).2 = .ok hits) :
    (readMany B c keys schema .none).2 = .ok hits := by
  cases fault with
  | none => exact h
  | lost | raised =>
    simp only [readMany, getBoundObjects, ask] at h
    split at h
    · cases h
    · cases hkeys : validateKeys keys.eraseDups <;> rw [hkeys] at h <;> cases h

/-- A call that raised after its backend call has left what it leaves without a fault. -/
theorem cacheStep_raised (op : CacheOp D) :
    (cacheStep B c ⟨op, .raised⟩).1.store = (cacheStep B c ⟨op, .none⟩).1.store := by
  cases op with
  | get key schema => exact readMany_raised B c [key] schema
  | getMany keys schema => exact readMany_raised B c keys.eraseDups schema
  | put key schema record => exact step_raised B c.store _
  | putMany entries => exact step_raised B c.store _
  | evictBindings keys => exact step_raised B c.store _

/-- A lost call changes nothing, and it raises unless it has nothing to change. -/
theorem cacheStep_lost (op : CacheOp D) : (cacheStep B c ⟨op, .lost⟩).1 = c ∧
    ((∃ e, (cacheStep B c ⟨op, .lost⟩).2 = .error e) ∨
      ∀ (held : String → Option (String × D.Jsonable)) key, hold key (held key) op = held key) := by
  have hstore : ∀ op : Op D, ({ c with store := (ObjectStore.step B c.store ⟨op, .lost⟩).1 } :
      Cache B) = c := fun op => by rw [step_lost]
  have hputMany : ∀ (entries : Dict String (String × D.Jsonable)),
      ∃ e, (ObjectStore.step B c.store ⟨.putMany entries, .lost⟩).2 = .error e := by
    intro entries
    simp only [ObjectStore.step]
    cases hplan : plan (.putMany entries) with
    | error e => exact ⟨e, rfl⟩
    | ok p =>
      obtain ⟨_, _, rfl⟩ := putMany_ok hplan
      exact ⟨.backend, rfl⟩
  cases op with
  | get key schema => exact ⟨readMany_lost B c [key] schema, .inr fun _ _ => rfl⟩
  | getMany keys schema => exact ⟨readMany_lost B c keys.eraseDups schema, .inr fun _ _ => rfl⟩
  | put key schema record =>
    refine ⟨hstore _, .inl ?_⟩
    obtain ⟨e, he⟩ := hputMany (Dict.empty.set key (schema, record))
    exact ⟨e, by simp only [cacheStep, storeCall, he]; rfl⟩
  | putMany entries =>
    refine ⟨hstore _, .inl ?_⟩
    obtain ⟨e, he⟩ := hputMany entries
    exact ⟨e, by simp only [cacheStep, storeCall, he]; rfl⟩
  | evictBindings keys =>
    refine ⟨hstore _, ?_⟩
    simp only [cacheStep, storeCall, ObjectStore.step]
    cases hplan : plan (.evictBindings keys : Op D) with
    | error e => exact .inl ⟨e, rfl⟩
    | ok p =>
      obtain ⟨hnone, _⟩ | ⟨_, rfl⟩ := evictBindings_ok hplan
      · exact .inr fun _ key => if_neg (hnone key)
      · exact .inl ⟨.backend, rfl⟩

/-- A call that returns returns the same without a fault. -/
theorem cacheStep_returned {op : CacheOp D} {fault : Fault} {result : CacheResult D}
    (h : (cacheStep B c ⟨op, fault⟩).2 = .ok result) :
    (cacheStep B c ⟨op, .none⟩).2 = .ok result := by
  have hstored : ∀ {op : Op D} {finish : Result D → Except StoreError (CacheResult D)},
      (storeCall B c op fault finish).2 = .ok result →
      (storeCall B c op .none finish).2 = .ok result := by
    intro op finish h
    obtain ⟨r, hr, hfinish⟩ := bind_ok h
    simp only [storeCall, step_returned B hr]
    exact hfinish
  cases op with
  | get key schema =>
    obtain ⟨hits, hhits, hfinish⟩ := bind_ok h
    simp only [cacheStep, readMany_returned B c hhits]
    exact hfinish
  | getMany keys schema =>
    obtain ⟨hits, hhits, hfinish⟩ := bind_ok h
    simp only [cacheStep, readMany_returned B c hhits]
    exact hfinish
  | put key schema record => exact hstored h
  | putMany entries => exact hstored h
  | evictBindings keys => exact hstored h

end Faults

/-! ## One call -/

section Steps

variable (B : Backend) {s : B.State} {held : String → Option (String × D.Jsonable)}
  (h : Agrees D (B.tables s) held)

include h

/-- `put_many` takes the entry of every key that holds none, or raises without effect. -/
theorem putMany_step (entries : Dict String (String × D.Jsonable)) :
    let out := ObjectStore.step B s ⟨.putMany entries, .none⟩
    (∃ winners, out.2 = .ok (.putMany winners) ∧
      Agrees D (B.tables out.1) (fun key => (held key).or (offered entries key)) ∧
      ∀ key ∈ entries.keys, ∃ entry reference, (held key).or (offered entries key) = some entry ∧
        RefersTo D reference entry ∧ winners.get? key = some reference) ∨
    (∃ e, out.2 = .error e) ∧ B.tables out.1 = B.tables s := by
  simp only [ObjectStore.step]
  cases hplan : plan (.putMany entries) with
  | error e => exact .inr ⟨⟨e, rfl⟩, rfl⟩
  | ok p =>
    obtain ⟨writes, hw, rfl⟩ := putMany_ok hplan
    have hv : (Call.putBoundObjects writes).validate = .ok () := prepareWrites_valid hw
    obtain ⟨hanswer, htables⟩ := B.serves_valid s hv
    simp only [Tables.Answers, Tables.after] at hanswer htables
    simp only [ask]
    by_cases hc : (B.tables s).compatible writes = true
    · rw [if_pos hc] at hanswer htables
      obtain ⟨outcomes, hout, hget⟩ := hanswer
      have hafter : Agrees D (B.tables (B.step s (.putBoundObjects writes)).1)
          (fun key => (held key).or (offered entries key)) := by
        rw [htables]
        exact fun key => holds_batch hw hc (h key)
      obtain ⟨w, hwin, hrefs⟩ := batch_winners hafter
        (by rw [htables]; exact hget) (by
          intro k hk
          rw [htables]
          refine fill_isSome.mpr (.inr ?_)
          rw [bindingPairs, List.map_map]
          exact hk)
      rw [prepareWrites_keys hw] at hrefs
      refine .inl ⟨w, ?_, hafter, hrefs⟩
      rw [hout]
      show (winners outcomes.items Dict.empty >>= fun w => pure (Result.putMany w)) = _
      rw [hwin]
      rfl
    · rw [if_neg hc] at hanswer htables
      obtain ⟨schema, contentHash, hout⟩ := hanswer
      exact .inr ⟨⟨_, by rw [hout]; rfl⟩, htables⟩

/-- `evict_bindings` empties its keys, or raises without effect. -/
theorem evictBindings_step (keys : List String) :
    let out := ObjectStore.step B s ⟨.evictBindings keys, .none⟩
    (∃ statuses, out.2 = .ok (.evictBindings statuses : Result D) ∧
      Agrees D (B.tables out.1) (fun key => if key ∈ keys then none else held key)) ∨
    (∃ e, out.2 = .error e) ∧ B.tables out.1 = B.tables s := by
  simp only [ObjectStore.step]
  cases hplan : plan (.evictBindings keys : Op D) with
  | error e => exact .inr ⟨⟨e, rfl⟩, rfl⟩
  | ok p =>
    obtain ⟨hnone, rfl⟩ | ⟨hv, rfl⟩ := evictBindings_ok hplan
    · refine .inl ⟨Dict.empty, rfl, ?_⟩
      intro key
      simp only [if_neg (hnone key)]
      exact h key
    · obtain ⟨⟨deleted, hout, _⟩, htables⟩ :=
        B.serves_valid s (show (Call.deleteBindings keys.eraseDups).validate = .ok () from hv)
      simp only [ask, hout, htables]
      exact .inl ⟨_, rfl, holds_evicted h keys⟩

/-- `put` is `put_many` of one entry. -/
theorem put_step {count : Nat} (key schema : String) (record : D.Jsonable) :
    let op := CacheOp.put key schema record
    let out := cacheStep B ⟨s, count⟩ ⟨op, .none⟩
    (∃ entry reference, out.2 = .ok (.put reference) ∧
      Agrees D (B.tables out.1.store) (fun key' => hold key' (held key') op) ∧
      hold key (held key) op = some entry ∧ RefersTo D reference entry) ∨
    (∃ e, out.2 = .error e) ∧ B.tables out.1.store = B.tables s := by
  simp only [cacheStep, storeCall, hold]
  obtain ⟨winners, hout, hafter, hrefs⟩ | ⟨⟨e, hout⟩, htables⟩ :=
    putMany_step B h (Dict.empty.set key (schema, record))
  · obtain ⟨entry, reference, hheld, hrefers, hget⟩ := hrefs key (by
      rw [← Dict.contains_iff, Dict.contains, Dict.get?_set, if_pos rfl]
      rfl)
    refine .inl ⟨entry, reference, ?_, hafter, hheld, hrefers⟩
    rw [hout]
    show (do return CacheResult.put (← subscript winners key)) = _
    rw [subscript, hget]
    rfl
  · rw [hout, htables]
    exact .inr ⟨⟨e, rfl⟩, rfl⟩

end Steps

/-- A call that leaves the keys what they hold does so whether it returns or raises. -/
theorem agrees_unchanged {t : Tables} {held : String → Option (String × D.Jsonable)}
    (h : Agrees D t held) {op : CacheOp D} (hop : ∀ key, hold key (held key) op = held key)
    (out : Except StoreError (CacheResult D)) :
    Agrees D t (fun key => (ifReturned op out).foldl (hold key) (held key)) := by
  cases out with
  | ok _ =>
    intro key
    show Holds D t key (hold key (held key) op)
    rw [hop]
    exact h key
  | error _ => exact h

/-- A call without a fault changes what the keys hold if it returns. -/
theorem cacheStep_faultless (hD : D.Lawful) {B : Backend} {c : Cache B}
    {held : String → Option (String × D.Jsonable)} (h : Agrees D (B.tables c.store) held)
    (op : CacheOp D) :
    Agrees D (B.tables (cacheStep B c ⟨op, .none⟩).1.store) fun key =>
      (ifReturned op (cacheStep B c ⟨op, .none⟩).2).foldl (hold key) (held key) := by
  cases op with
  | get key schema =>
    obtain ⟨htables, _, _⟩ := readMany_spec hD h [key] schema .none
    exact agrees_unchanged (htables ▸ h) (fun _ => rfl) _
  | getMany keys schema =>
    obtain ⟨htables, _, _⟩ := readMany_spec hD h keys.eraseDups schema .none
    exact agrees_unchanged (htables ▸ h) (fun _ => rfl) _
  | put key schema record =>
    obtain ⟨_, _, hout, hafter, _, _⟩ | ⟨⟨e, hout⟩, htables⟩ :=
      @put_step D B c.store held h c.corruptionCount key schema record
    · rw [hout]
      exact hafter
    · rw [hout, htables]
      exact h
  | putMany entries =>
    simp only [cacheStep, storeCall]
    obtain ⟨winners, hout, hafter, _⟩ | ⟨⟨e, hout⟩, htables⟩ := putMany_step B h entries
    · rw [hout]
      exact hafter
    · rw [hout, htables]
      exact h
  | evictBindings keys =>
    simp only [cacheStep, storeCall]
    obtain ⟨winners, hout, hafter⟩ | ⟨⟨e, hout⟩, htables⟩ := evictBindings_step B h keys
    · rw [hout]
      exact hafter
    · rw [hout, htables]
      exact h

/-- **One call keeps the map**: the keys hold what they held, changed by the call if it took
effect, and nothing was counted. -/
theorem cacheStep_agrees (hD : D.Lawful) {B : Backend} {c : Cache B}
    {held : String → Option (String × D.Jsonable)} (h : Agrees D (B.tables c.store) held)
    (e : CacheEvent D) :
    Agrees D (B.tables (cacheStep B c e).1.store)
        (fun key => (tookEffect B c e).foldl (hold key) (held key)) ∧
      (cacheStep B c e).1.corruptionCount = c.corruptionCount := by
  obtain ⟨op, fault⟩ := e
  refine ⟨?_, ?_⟩
  · cases fault with
    | none => exact cacheStep_faultless hD h op
    | raised =>
      rw [cacheStep_raised]
      exact cacheStep_faultless hD h op
    | lost =>
      obtain ⟨hsame, herror | hnothing⟩ := cacheStep_lost B c op
      · obtain ⟨e, herror⟩ := herror
        rw [tookEffect, herror, hsame]
        exact h
      · rw [hsame]
        exact agrees_unchanged h (hnothing held) _
  · cases op with
    | get key schema => exact (readMany_spec hD h [key] schema fault).2.1
    | getMany keys schema => exact (readMany_spec hD h keys.eraseDups schema fault).2.1
    | put | putMany | evictBindings => rfl

/-! ## Runs -/

theorem run_agrees (hD : D.Lawful) {B : Backend} (evs : List (CacheEvent D)) {c : Cache B}
    {held : String → Option (String × D.Jsonable)} (h : Agrees D (B.tables c.store) held) :
    Agrees D (B.tables ((cache D B).after c evs).store)
        (fun key => (carriedOut B c evs).foldl (hold key) (held key)) ∧
      ((cache D B).after c evs).corruptionCount = c.corruptionCount := by
  induction evs generalizing c held with
  | nil => exact ⟨h, rfl⟩
  | cons e evs ih =>
    obtain ⟨hstep, hcount⟩ := cacheStep_agrees hD h e
    obtain ⟨hrun, hcounts⟩ := ih hstep
    refine ⟨?_, hcounts.trans hcount⟩
    intro key
    have hkey := hrun key
    simp only [← List.foldl_append] at hkey
    exact hkey

/-- The cache over an empty store. -/
def fresh (B : Backend) (s : B.State) : Cache B := ⟨s, 0⟩

/-- What the run so far makes a key hold. -/
def heldAfter (B : Backend) (s : B.State) (evs : List (CacheEvent D)) (key : String) :
    Option (String × D.Jsonable) :=
  firstWriter key (carriedOut B (fresh B s) evs)

theorem heldAfter_concat {B : Backend} {s : B.State} {evs : List (CacheEvent D)}
    {e : CacheEvent D} {result : CacheResult D}
    (h : (cache D B).reply (fresh B s) evs e = .ok result) (key : String) :
    heldAfter B s (evs ++ [e]) key = hold key (heldAfter B s evs key) e.op := by
  have htook : tookEffect B ((cache D B).after (fresh B s) evs) e = [e.op] := by
    obtain ⟨op, fault⟩ := e
    have h : (cacheStep B ((cache D B).after (fresh B s) evs) ⟨op, fault⟩).2 = .ok result := h
    unfold tookEffect
    cases fault with
    | none | lost =>
      simp only [h]
      rfl
    | raised =>
      simp only [cacheStep_returned B _ h]
      rfl
  rw [heldAfter, firstWriter, carriedOut_concat, htook, List.foldl_append]
  rfl

/-- A first-writer-wins map, after the run `evs` from an empty store. -/
structure FirstWriterWins (D : DrSerialize) (B : Backend) (s : B.State)
    (evs : List (CacheEvent D)) : Prop where
  /-- a hit is the record held, of the schema asked for -/
  get_hit : ∀ key schema record, isReferenceSchema schema = true → isStorageText key = true →
    ((cache D B).reply (fresh B s) evs ⟨.get key schema, .none⟩ = .ok (.get (some record)) ↔
      heldAfter B s evs key = some (schema, record))
  /-- anything else is a miss -/
  get_miss : ∀ key schema, isReferenceSchema schema = true → isStorageText key = true →
    (∀ record, heldAfter B s evs key ≠ some (schema, record)) →
    (cache D B).reply (fresh B s) evs ⟨.get key schema, .none⟩ = .ok (.get none)
  /-- what is no binding key is refused -/
  get_invalid : ∀ key schema, isReferenceSchema schema = true → isStorageText key = false →
    (cache D B).reply (fresh B s) evs ⟨.get key schema, .none⟩ =
      .error (storageTextError "binding key")
  /-- `put` returns the reference of the entry its key then holds -/
  put : ∀ key schema record fault reference,
    (cache D B).reply (fresh B s) evs ⟨.put key schema record, fault⟩ = .ok (.put reference) →
    ∃ entry, heldAfter B s (evs ++ [⟨.put key schema record, fault⟩]) key = some entry ∧
      RefersTo D reference entry
  /-- and so does `put_many`, for every key of the mapping -/
  put_many : ∀ entries fault winners,
    (cache D B).reply (fresh B s) evs ⟨.putMany entries, fault⟩ = .ok (.putMany winners) →
    ∀ key ∈ entries.keys, ∃ entry reference,
      heldAfter B s (evs ++ [⟨.putMany entries, fault⟩]) key = some entry ∧
      RefersTo D reference entry ∧ winners.get? key = some reference
  /-- `get_many` has one result for each key: what `get` returns for it -/
  get_many : ∀ keys schema, isReferenceSchema schema = true →
    (∀ key ∈ keys, isStorageText key = true) →
    ∃ hits, (cache D B).reply (fresh B s) evs ⟨.getMany keys schema, .none⟩ =
        .ok (.getMany hits) ∧ (∀ key, key ∈ hits.keys ↔ key ∈ keys) ∧
      ∀ key ∈ keys, ∃ hit, hits.get? key = some hit ∧
        (cache D B).reply (fresh B s) evs ⟨.get key schema, .none⟩ = .ok (.get hit)
  /-- no read ever found corruption -/
  uncorrupted : ((cache D B).after (fresh B s) evs).corruptionCount = 0

/-- **The record cache is a first-writer-wins map**, over any backend and after any run of calls
from an empty store, where the first writer is the first that took effect. -/
theorem record_cache_first_writer_wins {D : DrSerialize} (hD : D.Lawful) (B : Backend)
    {s : B.State} (hempty : B.tables s = Tables.empty) (evs : List (CacheEvent D)) :
    FirstWriterWins D B s evs := by
  have hstart : Agrees D (B.tables (fresh B s).store) (fun _ => none) := by
    intro key
    exact congrArg (fun t => t.bindings key) hempty
  obtain ⟨hrun, hcount⟩ := run_agrees hD evs hstart
  have hagrees : Agrees D (B.tables ((cache D B).after (fresh B s) evs).store)
      (heldAfter B s evs) := hrun
  have hget : ∀ key schema, isReferenceSchema schema = true → isStorageText key = true →
      (cache D B).reply (fresh B s) evs ⟨.get key schema, .none⟩ =
        .ok (.get (hitFor schema (heldAfter B s evs key))) := by
    intro key schema hschema hkey
    obtain ⟨hits, hout, hhits⟩ := (readMany_spec hD hagrees [key] schema .none).2.2 hschema
      (by simpa using hkey) rfl
    show (do return CacheResult.get (← subscript (← (readMany B _ [key] schema .none).2) key)) = _
    rw [hout, ok_bind, subscript, hhits, if_pos List.mem_cons_self]
    rfl
  refine ⟨?_, ?_, ?_, ?_, ?_, ?_, hcount⟩
  · intro key schema record hschema hkey
    rw [hget key schema hschema hkey]
    simp [hitFor_eq_some]
  · intro key schema hschema hkey hother
    rw [hget key schema hschema hkey]
    cases hhit : hitFor schema (heldAfter B s evs key) with
    | none => rfl
    | some record => exact absurd (hitFor_eq_some.mp hhit) (hother record)
  · intro key schema hschema hkey
    simp only [Machine.reply, cache, cacheStep, readMany, validateReferenceSchema, if_pos hschema,
      validateKeys, validateBindingKey, hkey, Bool.false_eq_true, if_false, ok_bind, error_bind]
  · intro key schema record fault reference hreply
    rw [heldAfter_concat hreply]
    have hreply := cacheStep_returned B _ hreply
    obtain ⟨entry, reference', hout, _, hheld, hrefers⟩ | ⟨⟨e, hout⟩, _⟩ :=
      put_step B hagrees key schema record
    · cases hreply.symm.trans hout
      exact ⟨entry, hheld, hrefers⟩
    · cases hreply.symm.trans hout
  · intro entries fault winners hreply key hkey
    rw [heldAfter_concat hreply]
    have hreply := cacheStep_returned B _ hreply
    obtain ⟨winners', hout, _, hrefs⟩ | ⟨⟨e, hout⟩, _⟩ := putMany_step B hagrees entries
    · have hreply' : (ObjectStore.step B _ ⟨.putMany entries, .none⟩).2.bind _ = _ :=
        hreply
      rw [hout] at hreply'
      cases hreply'
      exact hrefs key hkey
    · have hreply' : (ObjectStore.step B _ ⟨.putMany entries, .none⟩).2.bind _ = _ :=
        hreply
      rw [hout] at hreply'
      cases hreply'
  · intro keys schema hschema hkeys
    obtain ⟨hits, hout, hhits⟩ := (readMany_spec hD hagrees keys.eraseDups schema .none).2.2
      hschema (fun key hmem => hkeys key (List.mem_eraseDups.mp hmem)) rfl
    refine ⟨hits, ?_, ?_, ?_⟩
    · show (do return CacheResult.getMany (← (readMany B _ keys.eraseDups schema .none).2)) = _
      rw [hout]
      rfl
    · intro key
      rw [← Dict.contains_iff, Dict.contains, hhits, ← @List.mem_eraseDups _ _ _ key keys]
      by_cases hmem : key ∈ keys.eraseDups <;> simp [hmem]
    · intro key hmem
      refine ⟨hitFor schema (heldAfter B s evs key), ?_, hget key schema hschema (hkeys key hmem)⟩
      rw [hhits, if_pos (List.mem_eraseDups.mpr hmem)]

/-- The SQLite backend over dicts. -/
abbrev sampleBackend : Backend := SqliteBackend.backend DictEngine.engine

/-- Cancelled after its commit. -/
def sampleRaised : List (CacheEvent sampleSerializer) := [⟨.put "a" "result" none, .raised⟩]

/-- A `put` that raised has bound its key all the same, and its record is read back. -/
theorem raised_put_binds :
    (cache sampleSerializer sampleBackend).reply (fresh sampleBackend DictEngine.start) []
        ⟨.put "a" "result" none, .raised⟩ = .error .backend ∧
      firstWriter "a" (returned sampleBackend (fresh sampleBackend DictEngine.start)
        sampleRaised) = none ∧
      (cache sampleSerializer sampleBackend).reply (fresh sampleBackend DictEngine.start)
        sampleRaised ⟨.get "a" "result", .none⟩ = .ok (.get (some none)) :=
  ⟨rfl, rfl, rfl⟩

/-- It is a hit under its own schema only, and a later `put` returns its reference. -/
theorem record_cache_raised_null :
    (cache sampleSerializer sampleBackend).reply (fresh sampleBackend DictEngine.start)
        sampleRaised ⟨.get "a" "result", .none⟩ = .ok (.get (some none)) ∧
      (cache sampleSerializer sampleBackend).reply (fresh sampleBackend DictEngine.start)
        sampleRaised ⟨.get "a" "report", .none⟩ = .ok (.get none) ∧
      ∃ reference, (cache sampleSerializer sampleBackend).reply
        (fresh sampleBackend DictEngine.start) sampleRaised ⟨.put "a" "report" (some true), .none⟩ =
          .ok (.put reference) ∧ RefersTo sampleSerializer reference ("result", none) := by
  have hwins := record_cache_first_writer_wins sampleSerializer_lawful sampleBackend
    (s := DictEngine.start) rfl sampleRaised
  have hheld : heldAfter sampleBackend DictEngine.start sampleRaised "a" =
      some ("result", none) := by rfl
  refine ⟨?_, ?_, ?_⟩
  · exact (hwins.get_hit "a" "result" none (by decide) (by decide)).mpr hheld
  · refine hwins.get_miss "a" "report" (by decide) (by decide) ?_
    intro record heq
    have hschema : some "result" = some "report" :=
      congrArg (Option.map Prod.fst) (hheld.symm.trans heq)
    exact absurd hschema (by decide)
  · obtain ⟨reference, hreply⟩ : ∃ reference, (cache sampleSerializer sampleBackend).reply
        (fresh sampleBackend DictEngine.start) sampleRaised ⟨.put "a" "report" (some true), .none⟩ =
          .ok (.put reference) := ⟨_, rfl⟩
    obtain ⟨entry, hentry, hrefers⟩ := hwins.put "a" "report" (some true) .none reference hreply
    obtain rfl : ("result", none) = entry := Option.some.inj hentry
    exact ⟨reference, hreply, hrefers⟩

end DrStore.Store.FirstWriter
