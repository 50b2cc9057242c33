import DrStore.Store.FirstWriter

/-! # The verified read paths agree

The cache's batch read, the store's batch read and the store's read of one reference classify the
same rows with different error policies. Whatever the tables hold, a hit of one is a hit of the
others; what the store raises is a miss of the cache; and the cache counts exactly the malformed
bindings and the rows that do not verify. -/
namespace DrStore.Store.VerifiedReads
open DrStore.Base.Collections DrStore.Base.Fallible DrStore.Store.ContentAddressing
open DrStore.Store.Contract DrStore.Store.ObjectStore DrStore.Store.RecordCache
open DrStore.Store.FirstWriter DrStore.Store.Immutability DrStore.Store.Memory

variable {D : DrSerialize} {t : Tables} {schema key : String}

/-! ## What is stored for a key -/

def boundRow (t : Tables) (key : String) : Option BoundObjectRow :=
  (t.bindings key).map fun r => ⟨r.1, r.2, t.objects r⟩

/-- The key is bound to a reference of the schema whose exact row verifies as the record. -/
def Hit (D : DrSerialize) (t : Tables) (schema key : String) (record : D.Jsonable) : Prop :=
  ∃ (reference : ObjectReference) (canonical : String), reference.schema = schema ∧
    t.bindings key = some (reference.schema, reference.contentHash) ∧
    t.objects (reference.schema, reference.contentHash) = some canonical ∧
    verifyStoredRecord reference reference.schema canonical = .ok record

/-- The key is bound, and not to a well-formed reference. -/
def Malformed (t : Tables) (key : String) : Prop :=
  ∃ r, t.bindings key = some r ∧
    ∀ reference : ObjectReference, r ≠ (reference.schema, reference.contentHash)

/-- The key is bound to a reference of the schema whose exact row is there and fails to verify. -/
def Unverifiable (D : DrSerialize) (t : Tables) (schema key : String) : Prop :=
  ∃ (reference : ObjectReference) (canonical : String), reference.schema = schema ∧
    t.bindings key = some (reference.schema, reference.contentHash) ∧
    t.objects (reference.schema, reference.contentHash) = some canonical ∧
    ∀ record : D.Jsonable, verifyStoredRecord reference reference.schema canonical ≠ .ok record

/-! ## One row -/

theorem make_error {schema contentHash : String} {e : StoreError}
    (h : ObjectReference.make schema contentHash = .error e) : isCorruption e = true ∧
      ∀ reference : ObjectReference,
        (schema, contentHash) ≠ (reference.schema, reference.contentHash) := by
  refine ⟨?_, ?_⟩
  · unfold ObjectReference.make at h
    split at h
    · split at h
      · cases h
      · cases h
        rfl
    · cases h
      unfold schemaError
      split <;> rfl
  · intro reference heq
    cases heq
    rw [ObjectReference.make_self] at h
    cases h

theorem verifyStoredRecord_error {reference : ObjectReference} {storedSchema canonical : String}
    {e : StoreError}
    (h : (verifyStoredRecord reference storedSchema canonical : Except _ D.Jsonable) = .error e) :
    isCorruption e = true := by
  unfold verifyStoredRecord at h
  split at h
  · cases h
    rfl
  split at h
  · cases h
    rfl
  split at h
  · cases h
    rfl
  simp only at h
  split at h
  · cases h
    rfl
  split at h
  · cases h
    rfl
  · cases h

/-- The stored text is the canonical text of the record, and its hash the reference's. -/
theorem verifyStoredRecord_canonical {reference : ObjectReference} {canonical : String}
    {record : D.Jsonable}
    (h : verifyStoredRecord reference reference.schema canonical = .ok record) :
    D.canonicalJson record = some canonical ∧ (D.sha256 canonical).text = reference.contentHash := by
  unfold verifyStoredRecord at h
  rw [if_neg (not_not.mpr rfl)] at h
  split at h
  · cases h
  split at h
  · cases h
  rename_i verified hverified
  simp only at h
  split at h
  · cases h
  rename_i hhash
  split at h
  · cases h
  rename_i hsame
  cases h
  cases not_not.mp hsame
  exact ⟨hverified, not_not.mp hhash⟩

/-- What the batch read of the store makes of a row. -/
def storeRead (D : DrSerialize) (schema : String) (row : BoundObjectRow) :
    Except StoreError D.Jsonable := do
  let reference ← ObjectReference.make row.bindingSchema row.bindingContentHash
  if reference.schema ≠ schema then throw (.schemaMismatch schema reference.schema)
  match row.canonical with
  | none => throw (.objectNotFound reference)
  | some canonical => verifyStoredRecord reference row.bindingSchema canonical

/-- **One row, all its cases**: malformed, of another schema, dangling, unverifiable, or a hit. -/
theorem row_cases (D : DrSerialize) {row : BoundObjectRow} (schema : String)
    (h : boundRow t key = some row) :
    (∃ e, readRow (D := D) schema row = .error e ∧ isCorruption e = true ∧
      storeRead D schema row = .error e ∧ Malformed t key) ∨
    (∃ e, readRow (D := D) schema row = .ok none ∧ storeRead D schema row = .error e ∧
      ∃ reference : ObjectReference,
        t.bindings key = some (reference.schema, reference.contentHash) ∧
        (reference.schema ≠ schema ∨
          t.objects (reference.schema, reference.contentHash) = none)) ∨
    (∃ e, readRow (D := D) schema row = .error e ∧ isCorruption e = true ∧
      storeRead D schema row = .error e ∧ Unverifiable D t schema key) ∨
    ∃ record, readRow (D := D) schema row = .ok (some record) ∧
      storeRead D schema row = .ok record ∧ Hit D t schema key record := by
  obtain ⟨r, hr, rfl⟩ := Option.map_eq_some_iff.mp h
  unfold readRow storeRead
  cases hmake : ObjectReference.make r.1 r.2 with
  | error e => exact .inl ⟨e, rfl, (make_error hmake).1, rfl, r, hr, (make_error hmake).2⟩
  | ok reference =>
    obtain rfl : r = (reference.schema, reference.contentHash) := make_row hmake
    by_cases hschema : reference.schema = schema
    · simp only [ok_bind, hschema, ne_eq, not_true_eq_false, if_false]
      rw [← hschema]
      cases hobject : t.objects (reference.schema, reference.contentHash) with
      | none => exact .inr (.inl ⟨_, rfl, rfl, reference, hr, .inr hobject⟩)
      | some canonical =>
        cases hverify : (verifyStoredRecord reference reference.schema canonical :
          Except _ D.Jsonable) with
        | error e =>
          refine .inr (.inr (.inl ⟨e, ?_, verifyStoredRecord_error hverify, ?_, reference, canonical,
            rfl, hr, hobject, ?_⟩))
          · simp only [hverify]
            rfl
          · exact hverify
          · intro record hok
            rw [hverify] at hok
            cases hok
        | ok record =>
          refine .inr (.inr (.inr ⟨record, ?_, hverify, reference, canonical, rfl, hr, hobject,
            hverify⟩))
          simp only [hverify]
          rfl
    · refine .inr (.inl ⟨.schemaMismatch schema reference.schema, ?_, ?_, reference, hr,
        .inl hschema⟩)
      · simp only [ok_bind, if_pos hschema]
        rfl
      · simp only [ok_bind, if_pos hschema]
        rfl

theorem reference_unique {a b : ObjectReference}
    (ha : t.bindings key = some (a.schema, a.contentHash))
    (hb : t.bindings key = some (b.schema, b.contentHash)) : a = b := by
  rw [ha] at hb
  obtain ⟨_, _, _, _⟩ := a
  obtain ⟨_, _, _, _⟩ := b
  cases hb
  rfl

/-! ## The cache -/

/-- Stored data that no read may serve. -/
def Corrupt (D : DrSerialize) (t : Tables) (schema key : String) : Prop :=
  Malformed t key ∨ Unverifiable D t schema key

/-- What the cache's loop finds for a key, and whether it counts it. -/
def lookup (D : DrSerialize) (t : Tables) (schema key : String) : Option D.Jsonable × Bool :=
  match boundRow t key with
  | none => (none, false)
  | some row => match readRow (D := D) schema row with
    | .ok hit => (hit, false)
    | .error _ => (none, true)

theorem lookup_hit {record : D.Jsonable} :
    (lookup D t schema key).1 = some record ↔ Hit D t schema key record := by
  unfold lookup
  cases hrow : boundRow t key with
  | none =>
    refine iff_of_false (by intro h; cases h) ?_
    intro h
    obtain ⟨reference, _, _, hbound, _⟩ := h
    rw [boundRow, hbound] at hrow
    cases hrow
  | some row =>
    rcases row_cases D schema hrow with ⟨e, hread, _, _, r, hr, hbad⟩ |
      ⟨e, hread, _, reference, hr, hother⟩ | ⟨e, hread, _, _, reference, canonical, _, hr, hc, hbad⟩ |
      ⟨found, hread, _, hhit⟩ <;> simp only [hread]
    · refine iff_of_false (by intro h; cases h) ?_
      intro h
      obtain ⟨reference, _, _, hbound, _⟩ := h
      rw [hr] at hbound
      exact hbad reference (Option.some.inj hbound)
    · refine iff_of_false (by intro h; cases h) ?_
      intro h
      obtain ⟨reference', canonical, hschema, hbound, hobject, _⟩ := h
      obtain rfl := reference_unique hr hbound
      rcases hother with hother | hmissing
      · exact hother hschema
      · rw [hmissing] at hobject
        cases hobject
    · refine iff_of_false (by intro h; cases h) ?_
      intro h
      obtain ⟨reference', canonical', _, hbound, hobject, hverify⟩ := h
      obtain rfl := reference_unique hr hbound
      rw [hc] at hobject
      cases hobject
      exact hbad record hverify
    · refine ⟨?_, ?_⟩
      · intro h
        cases h
        exact hhit
      · intro h
        obtain ⟨reference, canonical, _, hbound, hobject, hverify⟩ := hhit
        obtain ⟨reference', canonical', _, hbound', hobject', hverify'⟩ := h
        obtain rfl := reference_unique hbound hbound'
        rw [hobject] at hobject'
        cases hobject'
        rw [hverify] at hverify'
        cases hverify'
        rfl

theorem lookup_corrupt : (lookup D t schema key).2 = true ↔ Corrupt D t schema key := by
  unfold lookup
  cases hrow : boundRow t key with
  | none =>
    refine iff_of_false (by intro h; cases h) ?_
    have hunbound := Option.map_eq_none_iff.mp hrow
    intro h
    rcases h with ⟨r, hr, _⟩ | ⟨reference, _, _, hbound, _⟩
    · rw [hunbound] at hr
      cases hr
    · rw [hunbound] at hbound
      cases hbound
  | some row =>
    rcases row_cases D schema hrow with ⟨e, hread, _, _, hbad⟩ | ⟨e, hread, _, reference, hr, hother⟩ |
      ⟨e, hread, _, _, hbad⟩ | ⟨found, hread, _, reference, canonical, _, hr, hobject, hverify⟩ <;>
      simp only [hread]
    · exact iff_of_true trivial (.inl hbad)
    · refine iff_of_false (by intro h; cases h) ?_
      intro h
      rcases h with ⟨r, hr', hbad⟩ | ⟨reference', canonical, hschema, hbound, hobject, _⟩
      · rw [hr] at hr'
        exact hbad reference (Option.some.inj hr').symm
      · obtain rfl := reference_unique hr hbound
        rcases hother with hother | hmissing
        · exact hother hschema
        · rw [hmissing] at hobject
          cases hobject
    · exact iff_of_true trivial (.inr hbad)
    · refine iff_of_false (by intro h; cases h) ?_
      intro h
      rcases h with ⟨r, hr', hbad⟩ | ⟨reference', canonical', _, hbound, hobject', hbad⟩
      · rw [hr] at hr'
        exact hbad reference (Option.some.inj hr').symm
      · obtain rfl := reference_unique hr hbound
        rw [hobject] at hobject'
        cases hobject'
        exact hbad found hverify

instance (D : DrSerialize) (t : Tables) (schema : String) : DecidablePred (Corrupt D t schema) :=
  fun _ => decidable_of_iff _ lookup_corrupt

/-- How many of the keys are bound to stored data that no read may serve. -/
def corruptCount (D : DrSerialize) (t : Tables) (schema : String) (keys : List String) : Nat :=
  (keys.filter fun key => decide (Corrupt D t schema key)).length

theorem corruptCount_cons (keys : List String) : corruptCount D t schema (key :: keys) =
    (if (lookup D t schema key).2 then 1 else 0) + corruptCount D t schema keys := by
  unfold corruptCount
  by_cases h : Corrupt D t schema key
  · rw [List.filter_cons_of_pos (by simpa using h), if_pos (lookup_corrupt.mpr h), List.length_cons,
      Nat.add_comm]
  · rw [List.filter_cons_of_neg (by simpa using h), if_neg (mt lookup_corrupt.mp h), Nat.zero_add]

/-- **The loop**: each key is looked up on its own, whatever the others hold. -/
theorem readRows_spec {rows : Dict String BoundObjectRow} {keys : List String}
    (hrows : ∀ key ∈ keys, rows.get? key = boundRow t key) (count : Nat)
    (results : Dict String (Option D.Jsonable)) :
    ∃ hits, readRows schema rows keys count results =
        (count + corruptCount D t schema keys, .ok hits) ∧
      (∀ key, hits.get? key =
        if key ∈ keys then some (lookup D t schema key).1 else results.get? key) ∧
      (keys.Nodup → (∀ key ∈ keys, results.get? key = none) → hits.keys = results.keys ++ keys) := by
  induction keys generalizing count results with
  | nil => exact ⟨results, rfl, fun _ => rfl, fun _ _ => (List.append_nil _).symm⟩
  | cons key keys ih =>
    have hstep : readRows schema rows (key :: keys) count results =
        readRows schema rows keys (count + if (lookup D t schema key).2 then 1 else 0)
          (results.set key (lookup D t schema key).1) := by
      rw [readRows, hrows key List.mem_cons_self, lookup]
      cases hrow : boundRow t key with
      | none => rfl
      | some row =>
        rcases row_cases D schema hrow with ⟨e, hread, hcaught, _⟩ | ⟨e, hread, _⟩ |
          ⟨e, hread, hcaught, _⟩ | ⟨record, hread, _⟩ <;> simp only [hread]
        · rw [if_pos hcaught]
          rfl
        · rfl
        · rw [if_pos hcaught]
          rfl
        · rfl
    obtain ⟨hits, hrun, hget, hkeys⟩ := ih (fun k hk => hrows k (List.mem_cons_of_mem _ hk))
      (count + if (lookup D t schema key).2 then 1 else 0)
      (results.set key (lookup D t schema key).1)
    refine ⟨hits, ?_, ?_, ?_⟩
    · rw [hstep, hrun, corruptCount_cons, Nat.add_assoc]
    · intro k
      rw [hget, Dict.get?_set]
      by_cases hk : k = key
      · subst hk
        simp
      · simp [hk]
    · intro hnodup hfresh
      obtain ⟨hnew, hnodup⟩ := List.nodup_cons.mp hnodup
      rw [hkeys hnodup, Dict.keys_set_absent (hfresh key List.mem_cons_self), List.append_assoc]
      · rfl
      · intro k hk
        have hne : k ≠ key := fun heq => hnew (heq ▸ hk)
        rw [Dict.get?_set, if_neg hne]
        exact hfresh k (List.mem_cons_of_mem _ hk)

/-! ## The store -/

theorem getMany_single (B : Backend) (s : B.State) (hkey : isStorageText key = true)
    (hschema : isReferenceSchema schema = true) :
    (ObjectStore.step B s ⟨.getMany [key] schema, .none⟩).2 = match boundRow (B.tables s) key with
      | none => .ok (.getMany (Dict.empty.set key none))
      | some row => (storeRead D schema row).map fun record =>
          .getMany (Dict.empty.set key (some record)) := by
  have hvalid : validateKeys [key] = .ok () := validateKeys_eq_ok.mpr (by simpa using hkey)
  obtain ⟨rows, hout, hget⟩ :=
    (B.serves_valid s (show (Call.getBoundObjects [key]).validate = .ok () from hvalid)).1
  have hrow : rows.get? key = boundRow (B.tables s) key := (hget key).trans (if_pos (by simp))
  simp only [ObjectStore.step, plan, getMany, validateReferenceSchema, if_pos hschema, ok_bind]
  rw [show [key].eraseDups = [key] from rfl, hvalid]
  show (B.step s (.getBoundObjects [key])).2.bind _ = _
  rw [hout]
  show (do return Result.getMany (← verifiedHits schema rows [key] Dict.empty)) = _
  rw [verifiedHits, hrow]
  cases boundRow (B.tables s) key with
  | none => rfl
  | some row =>
    simp only [storeRead]
    cases ObjectReference.make row.bindingSchema row.bindingContentHash with
    | error e => rfl
    | ok reference =>
      simp only [ok_bind]
      by_cases hother : reference.schema ≠ schema
      · simp only [if_pos hother]
        rfl
      · simp only [if_neg hother]
        cases row.canonical with
        | none => rfl
        | some canonical =>
          simp only [verifiedHits]
          cases (verifyStoredRecord reference row.bindingSchema canonical : Except _ D.Jsonable) with
          | error e => rfl
          | ok record => rfl

theorem get_reference (B : Backend) (s : B.State) (reference : ObjectReference)
    (record : D.Jsonable) :
    (ObjectStore.step B s ⟨.get reference, .none⟩).2 = .ok (.get record) ↔
      ∃ canonical, (B.tables s).objects (reference.schema, reference.contentHash) = some canonical ∧
        verifyStoredRecord reference reference.schema canonical = .ok record := by
  have hanswer := (B.serves_valid s (show (Call.getObject reference.schema
    reference.contentHash).validate = .ok () from
      validateReference_ok reference.schema_valid reference.hash_valid)).1
  obtain ⟨k, hstep, hfound, hmissing⟩ : ∃ k : Reply → Except StoreError (Result D),
      (ObjectStore.step B s ⟨.get reference, .none⟩).2 =
        (B.step s (.getObject reference.schema reference.contentHash)).2.bind k ∧
      (∀ storedSchema canonical, k (.object (some (storedSchema, canonical))) = do
        return .get (← verifyStoredRecord reference storedSchema canonical)) ∧
      k (.object none) = .error (.objectNotFound reference) :=
    ⟨_, rfl, fun _ _ => rfl, rfl⟩
  rw [hstep]
  simp only [Tables.Answers] at hanswer
  cases hobject : (B.tables s).objects (reference.schema, reference.contentHash) with
  | some canonical =>
    rw [hobject] at hanswer
    rw [hanswer]
    show k (.object (some (reference.schema, canonical))) = _ ↔ _
    rw [hfound]
    cases hverify : (verifyStoredRecord reference reference.schema canonical :
      Except _ D.Jsonable) with
    | error e =>
      refine iff_of_false (by intro h; cases h) ?_
      intro h
      obtain ⟨canonical', hsame, hok⟩ := h
      cases hsame
      rw [hverify] at hok
      cases hok
    | ok found =>
      refine ⟨?_, ?_⟩
      · intro h
        cases h
        exact ⟨canonical, rfl, hverify⟩
      · intro h
        obtain ⟨canonical', hsame, hok⟩ := h
        cases hsame
        rw [hverify] at hok
        cases hok
        rfl
  | none =>
    rw [hobject] at hanswer
    refine iff_of_false ?_ (by intro h; obtain ⟨_, hsome, _⟩ := h; cases hsome)
    rcases hanswer with ⟨other, canonical, hrow, hout⟩ | ⟨_, hout⟩
    · have hother : other ≠ reference.schema := by
        intro heq
        rw [heq, hobject] at hrow
        cases hrow
      rw [hout]
      show k (.object (some (other, canonical))) ≠ _
      rw [hfound, verifyStoredRecord, if_pos hother]
      intro h
      cases h
    · rw [hout]
      show k (.object none) ≠ _
      rw [hmissing]
      intro h
      cases h

/-! ## All three -/

/-- The cache's batch read, with no backend failure. -/
theorem cache_getMany (D : DrSerialize) (B : Backend) (c : Cache B) {keys : List String}
    (hkeys : ∀ key ∈ keys, isStorageText key = true) (hschema : isReferenceSchema schema = true) :
    ∃ hits, (cacheStep (D := D) B c ⟨.getMany keys schema, .none⟩).2 = .ok (.getMany hits) ∧
      hits.keys = keys.eraseDups ∧
      (cacheStep (D := D) B c ⟨.getMany keys schema, .none⟩).1.corruptionCount =
        c.corruptionCount + corruptCount D (B.tables c.store) schema keys.eraseDups ∧
      ∀ key ∈ keys, hits.get? key = some (lookup D (B.tables c.store) schema key).1 := by
  have hdistinct : ∀ key ∈ keys.eraseDups, isStorageText key = true :=
    fun key hkey => hkeys key (List.mem_eraseDups.mp hkey)
  obtain ⟨rows, hrows, hget⟩ := getBoundObjects_ok B c.store hdistinct
  obtain ⟨hits, hrun, hhits, hordered⟩ := @readRows_spec D (B.tables c.store) schema rows
    keys.eraseDups hget c.corruptionCount Dict.empty
  have hread : readMany (D := D) B c keys.eraseDups schema .none =
      (⟨(getBoundObjects B c.store keys.eraseDups .none).1,
        c.corruptionCount + corruptCount D (B.tables c.store) schema keys.eraseDups⟩, .ok hits) := by
    simp only [readMany, validateReferenceSchema, if_pos hschema, ok_bind,
      validateKeys_eq_ok.mpr hdistinct]
    cases hfound : getBoundObjects B c.store keys.eraseDups .none with
    | mk s out =>
      rw [hfound] at hrows
      obtain rfl : out = .ok rows := hrows
      simp only [pure, Except.pure, hrun]
  have hstep : cacheStep (D := D) B c ⟨.getMany keys schema, .none⟩ =
      ((readMany (D := D) B c keys.eraseDups schema .none).1,
        do return .getMany (← (readMany (D := D) B c keys.eraseDups schema .none).2)) := rfl
  rw [hstep, hread]
  refine ⟨hits, rfl, ?_, rfl, ?_⟩
  · rw [hordered (nodup_eraseDups keys) fun _ _ => rfl]
    rfl
  · intro key hkey
    rw [hhits, if_pos (List.mem_eraseDups.mpr hkey)]

/-- What the store's batch read of one key returns. -/
def storeMany (D : DrSerialize) (B : Backend) (s : B.State) (key schema : String) :
    Except StoreError (Result D) :=
  (ObjectStore.step B s ⟨.getMany [key] schema, .none⟩).2

theorem storeMany_hit (B : Backend) (s : B.State) (hkey : isStorageText key = true)
    (hschema : isReferenceSchema schema = true) (record : D.Jsonable) :
    storeMany D B s key schema = .ok (.getMany (Dict.empty.set key (some record))) ↔
      Hit D (B.tables s) schema key record := by
  rw [storeMany, getMany_single B s hkey hschema, ← lookup_hit, lookup]
  have hinj : ∀ found found' : Option D.Jsonable,
      (Dict.empty.set key found : Dict String _) = Dict.empty.set key found' → found = found' := by
    intro found found' heq
    have hget := congrArg (fun d : Dict String _ => d.get? key) heq
    simpa only [Dict.get?_set, if_true, Option.some.injEq] using hget
  cases hrow : boundRow (B.tables s) key with
  | none =>
    refine iff_of_false ?_ (by intro h; cases h)
    intro h
    cases hinj _ _ (Result.getMany.inj (Except.ok.inj h))
  | some row =>
    rcases row_cases D schema hrow with ⟨e, hread, _, hstore, _⟩ | ⟨e, hread, hstore, _⟩ |
      ⟨e, hread, _, hstore, _⟩ | ⟨found, hread, hstore, _⟩ <;> simp only [hread, hstore]
    · exact iff_of_false (by intro h; cases h) (by intro h; cases h)
    · exact iff_of_false (by intro h; cases h) (by intro h; cases h)
    · exact iff_of_false (by intro h; cases h) (by intro h; cases h)
    · refine ⟨?_, ?_⟩
      · intro h
        exact hinj _ _ (Result.getMany.inj (Except.ok.inj h))
      · intro h
        cases h
        rfl

/-- What makes the store raise is a miss for the cache. -/
theorem storeMany_error (B : Backend) (s : B.State) (hkey : isStorageText key = true)
    (hschema : isReferenceSchema schema = true) {e : StoreError}
    (h : storeMany D B s key schema = .error e) :
    (lookup D (B.tables s) schema key).1 = none := by
  cases hfound : (lookup D (B.tables s) schema key).1 with
  | none => rfl
  | some record =>
    rw [(storeMany_hit B s hkey hschema record).mpr (lookup_hit.mp hfound)] at h
    cases h

/-- **The three verified read paths agree** on whatever the tables hold. -/
theorem verified_reads_agree (D : DrSerialize) (B : Backend) (c : Cache B) (keys : List String)
    (schema : String) (hkeys : ∀ key ∈ keys, isStorageText key = true)
    (hschema : isReferenceSchema schema = true) :
    ∃ hits, (cacheStep (D := D) B c ⟨.getMany keys schema, .none⟩).2 = .ok (.getMany hits) ∧
      hits.keys = keys.eraseDups ∧
      (cacheStep (D := D) B c ⟨.getMany keys schema, .none⟩).1.corruptionCount =
        c.corruptionCount + corruptCount D (B.tables c.store) schema keys.eraseDups ∧
      ∀ key ∈ keys,
        (∀ record, hits.get? key = some (some record) ↔ storeMany D B c.store key schema =
          .ok (.getMany (Dict.empty.set key (some record)))) ∧
        (∀ record, hits.get? key = some (some record) ↔ ∃ reference : ObjectReference,
          reference.schema = schema ∧
          (B.tables c.store).bindings key = some (reference.schema, reference.contentHash) ∧
          (ObjectStore.step B c.store ⟨.get reference, .none⟩).2 = .ok (.get record)) ∧
        (∀ record, hits.get? key = some (some record) →
          ∃ (reference : ObjectReference) (canonical : String),
            (B.tables c.store).bindings key = some (reference.schema, reference.contentHash) ∧
            (B.tables c.store).objects (reference.schema, reference.contentHash) = some canonical ∧
            D.canonicalJson record = some canonical ∧
            (D.sha256 canonical).text = reference.contentHash) ∧
        (∀ e, storeMany D B c.store key schema = .error e → hits.get? key = some none) := by
  obtain ⟨hits, hout, hordered, hcount, hget⟩ := cache_getMany D B c hkeys hschema
  refine ⟨hits, hout, hordered, hcount, ?_⟩
  intro key hkey
  have hhit : ∀ record, hits.get? key = some (some record) ↔
      Hit D (B.tables c.store) schema key record := by
    intro record
    rw [hget key hkey, Option.some.injEq, lookup_hit]
  refine ⟨?_, ?_, ?_, ?_⟩
  · intro record
    rw [hhit, storeMany_hit B c.store (hkeys key hkey) hschema]
  · intro record
    rw [hhit]
    refine ⟨?_, ?_⟩
    · intro h
      obtain ⟨reference, canonical, hsame, hbound, hobject, hverify⟩ := h
      exact ⟨reference, hsame, hbound,
        (get_reference B c.store reference record).mpr ⟨canonical, hobject, hverify⟩⟩
    · intro h
      obtain ⟨reference, hsame, hbound, hread⟩ := h
      obtain ⟨canonical, hobject, hverify⟩ := (get_reference B c.store reference record).mp hread
      exact ⟨reference, canonical, hsame, hbound, hobject, hverify⟩
  · intro record hfound
    obtain ⟨reference, canonical, _, hbound, hobject, hverify⟩ := (hhit record).mp hfound
    obtain ⟨hcanonical, hhash⟩ := verifyStoredRecord_canonical hverify
    exact ⟨reference, canonical, hbound, hobject, hcanonical, hhash⟩
  · intro e herror
    rw [hget key hkey, storeMany_error B c.store (hkeys key hkey) hschema herror]

/-- One key bound to a stored `null`, and one bound to no reference. -/
def mixedCache : Cache MemoryBackend.backend :=
  ⟨⟨Dict.empty.set ("result", sampleReference.contentHash) "null",
    (Dict.empty.set "a" ("result", sampleReference.contentHash)).set "b" ("", "?")⟩, 0⟩

theorem verified_reads_agree_mixed : ∃ hits,
    (cacheStep (D := sampleSerializer) MemoryBackend.backend mixedCache
      ⟨.getMany ["a", "b", "a"] "result", .none⟩).2 = .ok (.getMany hits) ∧
    hits.get? "a" = some (some none) ∧
    (cacheStep (D := sampleSerializer) MemoryBackend.backend mixedCache
      ⟨.getMany ["a", "b", "a"] "result", .none⟩).1.corruptionCount = 1 := by
  obtain ⟨hits, hout, _, hcount, hread⟩ := verified_reads_agree sampleSerializer
    MemoryBackend.backend mixedCache ["a", "b", "a"] "result" (by decide) (by decide)
  refine ⟨hits, hout, ((hread "a" (by decide)).1 none).mpr rfl, hcount.trans ?_⟩
  decide

end DrStore.Store.VerifiedReads
