import DrStore.Base.Fallible
import DrStore.Store.Memory
import DrStore.Store.ObjectStore

/-! # Content is immutable and stays retrievable

Rows are only ever inserted, and every row the store offers is a canonical text under its own
hash. So a stored text is found again, parses to the record it was made from, and passes the
checks of `verify_stored_record`, whatever happened in between. -/
namespace DrStore.Store.Immutability
open DrStore.Base.Collections DrStore.Base.Fallible DrStore.Base.Runs
open DrStore.Store.ContentAddressing DrStore.Store.Contract DrStore.Store.Memory
open DrStore.Store.ObjectStore

variable {D : DrSerialize}

/-! ## What the store offers -/

/-- The canonical text of a validated record. -/
def Encodes (D : DrSerialize) (record validated : D.Jsonable) (canonical : String) : Prop :=
  D.validateStrictJson record = some validated ∧ D.canonicalJson validated = some canonical

/-- A canonical text under its own hash. -/
def Digested (D : DrSerialize) (contentHash canonical : String) : Prop :=
  contentHash = (D.sha256 canonical).text ∧
    ∃ record validated, Encodes D record validated canonical

theorem prepareRecord_ok {record : D.Jsonable} {prepared : PreparedRecord}
    (h : prepareRecord D record = .ok prepared) :
    (∃ validated, Encodes D record validated prepared.canonical) ∧
      prepared.contentHash = D.sha256 prepared.canonical := by
  unfold prepareRecord at h
  split at h
  · cases h
  · rename_i validated hv
    split at h
    · cases h
    · rename_i canonical hc
      cases h
      exact ⟨⟨validated, hv, hc⟩, rfl⟩

theorem Encodes.prepareRecord {record validated : D.Jsonable} {canonical : String}
    (h : Encodes D record validated canonical) :
    prepareRecord D record = .ok ⟨canonical, D.sha256 canonical⟩ := by
  simp only [ObjectStore.prepareRecord, h.1, h.2]

/-- What `ObjectReference(...)` accepts it keeps. -/
theorem make_ok {schema contentHash : String} {reference : ObjectReference}
    (h : ObjectReference.make schema contentHash = .ok reference) :
    reference.schema = schema ∧ reference.contentHash = contentHash := by
  unfold ObjectReference.make at h
  split at h
  · split at h
    · cases h
      exact ⟨rfl, rfl⟩
    · cases h
  · cases h

theorem make_row {schema contentHash : String} {reference : ObjectReference}
    (h : ObjectReference.make schema contentHash = .ok reference) :
    (schema, contentHash) = (reference.schema, reference.contentHash) :=
  Prod.ext (make_ok h).1.symm (make_ok h).2.symm

theorem put_ok {schema : String} {record : D.Jsonable} {p : Plan D}
    (h : put schema record = .ok p) : ∃ prepared, prepareRecord D record = .ok prepared ∧
      p = .ask (.putObject schema prepared.contentHash.text prepared.canonical) (fun
        | .put outcome => putFromPrepared schema prepared outcome
        | _ => .error .assertionError) := by
  obtain ⟨_, _, h⟩ := bind_ok h
  obtain ⟨prepared, hp, h⟩ := bind_ok h
  exact ⟨prepared, hp, (pure_ok h).symm⟩

/-- Every prepared row comes from an entry. -/
theorem prepareWrites_ok {entries : List (String × String × D.Jsonable)}
    {writes : List BoundObjectWrite} (h : prepareWrites entries = .ok writes) :
    (∀ w ∈ writes, Digested D w.contentHash w.canonical) ∧
      ∀ key schema record, (key, schema, record) ∈ entries → ∃ w ∈ writes, w.schema = schema ∧
        w.contentHash = (D.sha256 w.canonical).text ∧ isReferenceSchema w.schema = true ∧
        ∃ validated, Encodes D record validated w.canonical := by
  induction entries generalizing writes with
  | nil =>
    cases pure_ok h
    exact ⟨by simp, by simp⟩
  | cons entry entries ih =>
    obtain ⟨key, schema, record⟩ := entry
    obtain ⟨_, _, h⟩ := bind_ok h
    obtain ⟨prepared, hp, h⟩ := bind_ok h
    obtain ⟨reference, hr, h⟩ := bind_ok h
    obtain ⟨rest, hrest, h⟩ := bind_ok h
    cases pure_ok h
    obtain ⟨hschema, hhash⟩ := make_ok hr
    obtain ⟨⟨validated, henc⟩, hdigest⟩ := prepareRecord_ok hp
    obtain ⟨hwrites, hentries⟩ := ih hrest
    refine ⟨?_, ?_⟩
    · intro w hw
      rcases List.mem_cons.mp hw with rfl | hw
      · exact ⟨by rw [hhash, hdigest], record, validated, henc⟩
      · exact hwrites w hw
    · intro key' schema' record' hmem
      rcases List.mem_cons.mp hmem with heq | hmem
      · cases heq
        exact ⟨_, List.mem_cons_self, hschema, by rw [hhash, hdigest], reference.schema_valid,
          validated, henc⟩
      · obtain ⟨w, hw, hrest⟩ := hentries key' schema' record' hmem
        exact ⟨w, List.mem_cons_of_mem _ hw, hrest⟩

theorem prepareWrites_keys {entries : List (String × String × D.Jsonable)}
    {writes : List BoundObjectWrite} (h : prepareWrites entries = .ok writes) :
    writes.map BoundObjectWrite.key = entries.map Prod.fst := by
  induction entries generalizing writes with
  | nil =>
    cases pure_ok h
    rfl
  | cons entry entries ih =>
    obtain ⟨key, schema, record⟩ := entry
    obtain ⟨_, _, h⟩ := bind_ok h
    obtain ⟨_, _, h⟩ := bind_ok h
    obtain ⟨_, _, h⟩ := bind_ok h
    obtain ⟨rest, hrest, h⟩ := bind_ok h
    cases pure_ok h
    rw [List.map_cons, List.map_cons, ih hrest]

/-- A method offers no row but canonical texts under their hashes. -/
theorem plan_digested {op : Op D} {call : Call} {finish : Reply → Except StoreError (Result D)}
    (h : plan op = .ok (.ask call finish)) :
    ∀ row ∈ call.objectWrites, Digested D row.1.2 row.2 := by
  cases op with
  | put schema record =>
    obtain ⟨prepared, hp, heq⟩ := put_ok h
    cases heq
    obtain ⟨⟨validated, henc⟩, hdigest⟩ := prepareRecord_ok hp
    intro row hrow
    cases List.mem_singleton.mp hrow
    exact ⟨by rw [hdigest], record, validated, henc⟩
  | putMany entries =>
    obtain ⟨writes, hw, h⟩ := bind_ok h
    cases pure_ok h
    intro row hrow
    obtain ⟨w, hmem, rfl⟩ := List.mem_map.mp hrow
    exact (prepareWrites_ok hw).1 w hmem
  | get reference =>
    cases pure_ok h
    intro row hrow
    cases hrow
  | getMany keys schema =>
    obtain ⟨_, _, h⟩ := bind_ok h
    obtain ⟨_, _, h⟩ := bind_ok h
    cases pure_ok h
    intro row hrow
    cases hrow
  | bind key reference =>
    obtain ⟨_, _, h⟩ := bind_ok h
    cases pure_ok h
    intro row hrow
    cases hrow
  | resolve key =>
    obtain ⟨_, _, h⟩ := bind_ok h
    cases pure_ok h
    intro row hrow
    cases hrow
  | evictBindings keys =>
    obtain ⟨_, _, h⟩ := bind_ok h
    split at h
    · cases h
    · cases pure_ok h
      intro row hrow
      cases hrow

/-! ## What a run keeps -/

def Kept (D : DrSerialize) (t : Tables) : Prop :=
  ∀ schema contentHash canonical, t.objects (schema, contentHash) = some canonical →
    Digested D contentHash canonical

/-- The rows of the first tables are rows of the second. -/
def Keeps (t t' : Tables) : Prop :=
  ∀ row canonical, t.objects row = some canonical → t'.objects row = some canonical

variable (B : Backend)

theorem ask_tables (s : B.State) (call : Call) (fault : Fault) :
    B.tables (ask B s call fault).1 = B.tables s ∨
      B.tables (ask B s call fault).1 = (B.tables s).after call := by
  cases fault with
  | none => exact B.tables_step s call
  | lost => exact .inl rfl
  | raised => exact B.tables_step s call

/-- An operation inserts canonical texts under their hashes, or no row. -/
theorem step_objects (s : B.State) (e : Event D) : ∃ rows : List (RowKey × String),
    (∀ row ∈ rows, Digested D row.1.2 row.2) ∧
      (B.tables (step B s e).1).objects = fill (B.tables s).objects rows := by
  unfold step
  split
  · exact ⟨[], by simp, rfl⟩
  · exact ⟨[], by simp, rfl⟩
  · rename_i call finish hplan
    rcases ask_tables B s call e.fault with h | h
    · exact ⟨[], by simp, congrArg Tables.objects h⟩
    · rcases (B.tables s).after_objects call with hobj | hobj
      · exact ⟨[], by simp, (congrArg Tables.objects h).trans hobj⟩
      · exact ⟨call.objectWrites, plan_digested hplan, (congrArg Tables.objects h).trans hobj⟩

theorem step_keeps (s : B.State) (e : Event D) : Keeps (B.tables s) (B.tables (step B s e).1) := by
  intro row canonical hrow
  obtain ⟨rows, _, heq⟩ := step_objects B s e
  rw [heq, fill_apply, hrow]
  rfl

theorem step_kept (s : B.State) (e : Event D) (h : Kept D (B.tables s)) :
    Kept D (B.tables (step B s e).1) := by
  intro schema contentHash canonical hrow
  obtain ⟨rows, hrows, heq⟩ := step_objects B s e
  rw [heq, fill_apply] at hrow
  cases hold : (B.tables s).objects (schema, contentHash) with
  | some c =>
    rw [hold] at hrow
    cases hrow
    exact h schema contentHash _ hold
  | none =>
    rw [hold] at hrow
    exact hrows _ (firstOf_mem hrow)

theorem run_keeps (s : B.State) (evs : List (Event D)) :
    Keeps (B.tables s) (B.tables ((machine D B).after s evs)) := by
  refine @Machine.climbs _ _ _ (machine D B) (fun _ => True)
    (fun s s' => Keeps (B.tables s) (B.tables s')) ?_ ?_ ?_ ?_ s evs trivial
  · exact fun _ _ _ h => h
  · exact fun h h' row canonical hrow => h' row canonical (h row canonical hrow)
  · exact fun _ _ _ => trivial
  · exact fun s e _ => step_keeps B s e

theorem run_kept {s : B.State} (evs : List (Event D)) (h : Kept D (B.tables s)) :
    Kept D (B.tables ((machine D B).after s evs)) :=
  @Machine.invariant _ _ _ (machine D B) (fun s => Kept D (B.tables s)) (step_kept B) s evs h

/-! ## Reading back -/

theorem verifyStoredRecord_ok (hD : D.Lawful) {record validated : D.Jsonable} {canonical : String}
    (henc : Encodes D record validated canonical) {reference : ObjectReference}
    (hhash : reference.contentHash = (D.sha256 canonical).text) :
    verifyStoredRecord reference reference.schema canonical = .ok validated := by
  simp [verifyStoredRecord, hD.parses henc.1 henc.2, henc.2, hhash]

/-- A stored text is read back as the record it encodes. -/
theorem get_stored (hD : D.Lawful) {s : B.State} {record validated : D.Jsonable}
    {canonical : String} (henc : Encodes D record validated canonical)
    {reference : ObjectReference} (hhash : reference.contentHash = (D.sha256 canonical).text)
    (hrow : (B.tables s).objects (reference.schema, reference.contentHash) = some canonical) :
    (step B s ⟨.get reference, .none⟩).2 = .ok (.get validated) := by
  have hvalid : (Call.getObject reference.schema reference.contentHash).validate = .ok () :=
    validateReference_ok reference.schema_valid reference.hash_valid
  have hanswer := (B.serves_valid s hvalid).1
  simp only [Tables.Answers, hrow] at hanswer
  show (B.step s (.getObject reference.schema reference.contentHash)).2.bind _ = _
  rw [hanswer]
  show (verifyStoredRecord reference reference.schema canonical >>= fun r =>
    (pure (.get r) : Except StoreError (Result D))) = _
  rw [verifyStoredRecord_ok hD henc hhash]
  rfl

/-! ## Writing -/

/-- An operation that returns was done, or its backend call replied. -/
theorem step_ok {s : B.State} {e : Event D} {result : Result D}
    (h : (step B s e).2 = .ok result) : plan e.op = .ok (.done result) ∨
      ∃ call finish reply, plan e.op = .ok (.ask call finish) ∧
        (B.step s call).2 = .ok reply ∧ finish reply = .ok result ∧
        (step B s e).1 = (B.step s call).1 := by
  unfold step at h ⊢
  split at h
  · cases h
  · rename_i r hplan
    cases h
    exact .inl hplan
  · rename_i call finish hplan
    cases hf : e.fault with
    | none =>
      rw [hf] at h
      obtain ⟨reply, hreply, hfin⟩ := bind_ok h
      exact .inr ⟨call, finish, reply, hplan, hreply, hfin, by simp [ask]⟩
    | lost => rw [hf] at h; cases h
    | raised => rw [hf] at h; cases h

theorem putFromPrepared_ok {schema : String} {prepared : PreparedRecord} {outcome : PutOutcome}
    {result : Result D} (h : putFromPrepared schema prepared outcome = .ok result) :
    ∃ reference status, result = .put reference status ∧ reference.schema = schema ∧
      reference.contentHash = prepared.contentHash.text ∧
      (outcome.inserted = true ∨ outcome.storedCanonical = prepared.canonical) := by
  obtain ⟨reference, hr, h⟩ := bind_ok h
  obtain ⟨hs, hh⟩ := make_ok hr
  split at h
  · rename_i hins
    cases pure_ok h
    exact ⟨reference, _, rfl, hs, hh, .inl hins⟩
  · split at h
    · rename_i hst
      cases pure_ok h
      exact ⟨reference, _, rfl, hs, hh, .inr hst⟩
    · cases h

/-- **After `put` returned, the row holds the record's text.** -/
theorem put_stores {s : B.State} {schema : String} {record : D.Jsonable} {fault : Fault}
    {reference : ObjectReference} {status : PutStatus}
    (h : (step B s ⟨.put schema record, fault⟩).2 = .ok (.put reference status)) :
    ∃ validated canonical, Encodes D record validated canonical ∧
      reference.contentHash = (D.sha256 canonical).text ∧
      (B.tables (step B s ⟨.put schema record, fault⟩).1).objects
        (reference.schema, reference.contentHash) = some canonical := by
  rcases step_ok B h with hplan | ⟨call, finish, reply, hplan, hreply, hfin, hstate⟩
  · obtain ⟨_, _, heq⟩ := put_ok hplan
    cases heq
  · obtain ⟨prepared, hp, heq⟩ := put_ok hplan
    cases heq
    obtain ⟨⟨validated, henc⟩, hdigest⟩ := prepareRecord_ok hp
    obtain ⟨hanswer, htables⟩ := B.serves_ok s hreply
    simp only [Tables.Answers, Except.ok.injEq] at hanswer
    subst hanswer
    obtain ⟨_, _, heq, hs, hh, hout⟩ := putFromPrepared_ok hfin
    cases heq
    refine ⟨validated, prepared.canonical, henc, by rw [hh, hdigest], ?_⟩
    rw [hstate, htables, hs, hh]
    show putAbsent _ _ _ _ = _
    rw [putAbsent_self]
    -- inserted, or already there with the same text
    rcases hout with hout | hout
    · rw [Option.isNone_iff_eq_none.mp hout]
      rfl
    · exact congrArg some hout

theorem putMany_ok {entries : Dict String (String × D.Jsonable)} {p : Plan D}
    (h : putMany entries = .ok p) : ∃ writes, prepareWrites entries.items = .ok writes ∧
      p = .ask (.putBoundObjects writes) (fun
        | .outcomes outcomes => do return .putMany (← winners outcomes.items Dict.empty)
        | _ => .error .assertionError) := by
  obtain ⟨writes, hw, h⟩ := bind_ok h
  exact ⟨writes, hw, (pure_ok h).symm⟩

/-- **After `put_many` returned, every entry's row holds its text**, whoever won the key. -/
theorem putMany_stores {s : B.State} {entries : Dict String (String × D.Jsonable)} {fault : Fault}
    {result : Result D} (h : (step B s ⟨.putMany entries, fault⟩).2 = .ok result)
    {key schema : String} {record : D.Jsonable} (hmem : entries.get? key = some (schema, record)) :
    ∃ reference : ObjectReference, ∃ validated canonical, reference.schema = schema ∧
      Encodes D record validated canonical ∧
      reference.contentHash = (D.sha256 canonical).text ∧
      (B.tables (step B s ⟨.putMany entries, fault⟩).1).objects
        (reference.schema, reference.contentHash) = some canonical := by
  rcases step_ok B h with hplan | ⟨call, finish, reply, hplan, hreply, _, hstate⟩
  · obtain ⟨_, _, heq⟩ := putMany_ok hplan
    cases heq
  · obtain ⟨writes, hw, heq⟩ := putMany_ok hplan
    cases heq
    obtain ⟨hanswer, htables⟩ := B.serves_ok s hreply
    have hc : (B.tables s).compatible writes = true := by
      by_contra hn
      simp only [Tables.Answers, if_neg hn] at hanswer
      obtain ⟨_, _, heq⟩ := hanswer
      cases heq
    obtain ⟨w, hwmem, rfl, hhash, hvalid, validated, henc⟩ :=
      (prepareWrites_ok hw).2 key schema record (Dict.get?_eq_some.mp hmem)
    refine ⟨⟨w.schema, w.contentHash, hvalid, hhash ▸ (D.sha256 w.canonical).valid⟩, validated,
      w.canonical, rfl, henc, hhash, ?_⟩
    rw [hstate, htables]
    simp only [Tables.after, if_pos hc]
    simp only [Tables.compatible, List.all_eq_true, decide_eq_true_eq] at hc
    exact hc w hwmem

/-! ## Conflicts -/

theorem put_conflict {s : B.State} {schema : String} {record validated : D.Jsonable}
    {canonical other : String} (hschema : isReferenceSchema schema = true)
    (henc : Encodes D record validated canonical)
    (hrow : (B.tables s).objects (schema, (D.sha256 canonical).text) = some other)
    (hne : other ≠ canonical) :
    (step B s ⟨.put schema record, .none⟩).2 =
        .error (.objectConflict schema (D.sha256 canonical).text) ∧
      B.tables (step B s ⟨.put schema record, .none⟩).1 = B.tables s := by
  have hvalid : (Call.putObject schema (D.sha256 canonical).text canonical).validate = .ok () :=
    validateReference_ok hschema (D.sha256 canonical).valid
  obtain ⟨hanswer, htables⟩ := B.serves_valid s hvalid
  simp only [Tables.Answers, hrow] at hanswer
  have hplan : plan (.put schema record) = .ok (.ask
      (.putObject schema (D.sha256 canonical).text canonical) (fun
        | .put outcome => putFromPrepared schema ⟨canonical, D.sha256 canonical⟩ outcome
        | _ => .error .assertionError) : Plan D) := by
    simp only [plan, put, validateReferenceSchema, if_pos hschema, henc.prepareRecord, ok_bind]
    rfl
  simp only [step, hplan, ask]
  refine ⟨?_, ?_⟩
  · rw [hanswer]
    show putFromPrepared schema _ _ = _
    simp [putFromPrepared, ObjectReference.make, hschema, (D.sha256 canonical).valid, hne]
    rfl
  · rw [htables, Tables.after, putAbsent_present hrow]

theorem prepareWrites_valid {entries : List (String × String × D.Jsonable)}
    {writes : List BoundObjectWrite} (h : prepareWrites entries = .ok writes) :
    validateEntries writes = .ok () := by
  induction entries generalizing writes with
  | nil =>
    cases pure_ok h
    rfl
  | cons entry entries ih =>
    obtain ⟨key, schema, record⟩ := entry
    obtain ⟨_, hkey, h⟩ := bind_ok h
    obtain ⟨prepared, _, h⟩ := bind_ok h
    obtain ⟨reference, _, h⟩ := bind_ok h
    obtain ⟨rest, hrest, h⟩ := bind_ok h
    cases pure_ok h
    simp only [validateEntries, hkey, ok_bind,
      validateReference_ok reference.schema_valid reference.hash_valid]
    exact ih hrest

/-- The entry would share a row with another text, stored or of its own batch. -/
def Clashes (t : Tables) (writes : List BoundObjectWrite) (w : BoundObjectWrite) : Prop :=
  (∃ other, t.objects w.reference = some other ∧ other ≠ w.canonical) ∨
    ∃ w' ∈ writes, w'.reference = w.reference ∧ w'.canonical ≠ w.canonical

theorem putMany_conflict {s : B.State} {entries : Dict String (String × D.Jsonable)}
    {writes : List BoundObjectWrite} (hw : prepareWrites entries.items = .ok writes)
    {w : BoundObjectWrite} (hmem : w ∈ writes) (hclash : Clashes (B.tables s) writes w) :
    (∃ schema contentHash, (step B s ⟨.putMany entries, .none⟩).2 =
        .error (.objectConflict schema contentHash)) ∧
      B.tables (step B s ⟨.putMany entries, .none⟩).1 = B.tables s := by
  have hc : ¬ (B.tables s).compatible writes = true := by
    rw [Tables.compatible_iff]
    intro h
    rcases hclash with ⟨other, hrow, hne⟩ | ⟨w', hmem', href, hne⟩
    · exact hne ((h w hmem).2 other hrow)
    · have hfirst := (h w' hmem').1
      rw [href, (h w hmem).1, Option.some.injEq] at hfirst
      exact hne hfirst.symm
  obtain ⟨hanswer, htables⟩ := B.serves_valid s
    (show (Call.putBoundObjects writes).validate = .ok () from prepareWrites_valid hw)
  simp only [Tables.Answers, if_neg hc] at hanswer
  obtain ⟨schema, contentHash, hout⟩ := hanswer
  have hplan : ∃ finish, plan (.putMany entries) = .ok (.ask (.putBoundObjects writes) finish) := by
    simp only [plan, putMany, hw, ok_bind]
    exact ⟨_, rfl⟩
  obtain ⟨finish, hplan⟩ := hplan
  simp only [step, hplan, ask]
  refine ⟨⟨schema, contentHash, ?_⟩, ?_⟩
  · rw [hout]
    rfl
  · rw [htables, Tables.after, if_neg hc]

/-! ## The result -/

/-- What holds of a run `evs` from `s`, whatever comes later. -/
structure ContentKept (D : DrSerialize) (B : Backend) (s : B.State) (evs : List (Event D)) :
    Prop where
  /-- no object row is changed or removed -/
  immutable : ∀ later row canonical,
    (B.tables ((machine D B).after s evs)).objects row = some canonical →
    (B.tables ((machine D B).after s (evs ++ later))).objects row = some canonical
  /-- every row is a canonical text under its own hash -/
  digested : ∀ schema contentHash canonical,
    (B.tables ((machine D B).after s evs)).objects (schema, contentHash) = some canonical →
    Digested D contentHash canonical
  /-- what `put` returned a reference for is read back -/
  put_get : ∀ schema record fault reference status later,
    (machine D B).reply s evs ⟨.put schema record, fault⟩ = .ok (.put reference status) →
    ∃ validated, D.validateStrictJson record = some validated ∧
      (machine D B).reply s (evs ++ ⟨.put schema record, fault⟩ :: later)
        ⟨.get reference, .none⟩ = .ok (.get validated)
  /-- so is what `put_many` stored, for winners and losers of a key alike -/
  putMany_get : ∀ entries fault result later,
    (machine D B).reply s evs ⟨.putMany entries, fault⟩ = .ok result →
    ∀ key schema record, entries.get? key = some (schema, record) →
    ∃ reference validated canonical, reference.schema = schema ∧
      Encodes D record validated canonical ∧
      reference.contentHash = (D.sha256 canonical).text ∧
      (machine D B).reply s (evs ++ ⟨.putMany entries, fault⟩ :: later)
        ⟨.get reference, .none⟩ = .ok (.get validated)
  /-- and whatever a row holds, if the write raised after all -/
  stored_get : ∀ reference record validated canonical later,
    Encodes D record validated canonical →
    (B.tables ((machine D B).after s evs)).objects
      (reference.schema, reference.contentHash) = some canonical →
    (machine D B).reply s (evs ++ later) ⟨.get reference, .none⟩ = .ok (.get validated)
  /-- a different text at an occupied row raises and changes nothing -/
  put_conflict : ∀ schema record validated canonical other, isReferenceSchema schema = true →
    Encodes D record validated canonical →
    (B.tables ((machine D B).after s evs)).objects (schema, (D.sha256 canonical).text) =
      some other → other ≠ canonical →
    (machine D B).reply s evs ⟨.put schema record, .none⟩ =
        .error (.objectConflict schema (D.sha256 canonical).text) ∧
      B.tables ((machine D B).after s (evs ++ [⟨.put schema record, .none⟩])) =
        B.tables ((machine D B).after s evs)
  putMany_conflict : ∀ entries writes w, prepareWrites entries.items = .ok writes → w ∈ writes →
    Clashes (B.tables ((machine D B).after s evs)) writes w →
    (∃ schema contentHash, (machine D B).reply s evs ⟨.putMany entries, .none⟩ =
        .error (.objectConflict schema contentHash)) ∧
      B.tables ((machine D B).after s (evs ++ [⟨.putMany entries, .none⟩])) =
        B.tables ((machine D B).after s evs)

/-- **Content is immutable and stays retrievable**: along every run of store operations, faults
included, over any backend that meets the contract and starts empty. -/
theorem content_immutable (hD : D.Lawful) (B : Backend) {s : B.State}
    (hstart : B.tables s = Tables.empty) (evs : List (Event D)) : ContentKept D B s evs := by
  have hkept : ∀ evs, Kept D (B.tables ((machine D B).after s evs)) := by
    intro evs
    refine run_kept B evs ?_
    rw [hstart]
    intro schema contentHash canonical h
    cases h
  -- a row holding the text of a record after `pre` is read back as that record after `pre ++ post`
  have hread : ∀ pre post (reference : ObjectReference) {record validated : D.Jsonable}
      {canonical : String}, Encodes D record validated canonical →
      (B.tables ((machine D B).after s pre)).objects
        (reference.schema, reference.contentHash) = some canonical →
      (machine D B).reply s (pre ++ post) ⟨.get reference, .none⟩ = .ok (.get validated) := by
    intro pre post reference record validated canonical henc hrow
    rw [Machine.reply_append]
    exact get_stored B hD henc (hkept pre _ _ _ hrow).1
      (run_keeps B _ post _ _ hrow)
  refine ⟨?_, hkept evs, ?_, ?_, ?_, ?_, ?_⟩
  · intro later row canonical hrow
    rw [Machine.after_append]
    exact run_keeps B _ later row canonical hrow
  · intro schema record fault reference status later h
    obtain ⟨validated, canonical, henc, _, hrow⟩ := put_stores B h
    refine ⟨validated, henc.1, ?_⟩
    have h := hread (evs ++ [⟨.put schema record, fault⟩]) later reference henc
      (by rw [Machine.after_concat]; exact hrow)
    rwa [List.append_assoc] at h
  · intro entries fault result later h key schema record hmem
    obtain ⟨reference, validated, canonical, hschema, henc, hhash, hrow⟩ :=
      putMany_stores B h hmem
    refine ⟨reference, validated, canonical, hschema, henc, hhash, ?_⟩
    have h := hread (evs ++ [⟨.putMany entries, fault⟩]) later reference henc
      (by rw [Machine.after_concat]; exact hrow)
    rwa [List.append_assoc] at h
  · intro reference record validated canonical later henc hrow
    exact hread evs later reference henc hrow
  · intro schema record validated canonical other hschema henc hrow hne
    rw [Machine.after_concat]
    exact Immutability.put_conflict B hschema henc hrow hne
  · intro entries writes w hw hmem hclash
    rw [Machine.after_concat]
    exact Immutability.putMany_conflict B hw hmem hclash

/-- The serializer on `null`, `true` and `false`, with their hashes. -/
def sampleSerializer : DrSerialize where
  Jsonable := Option Bool
  validateStrictJson := some
  canonicalJson
    | none => some "null"
    | some true => some "true"
    | some false => some "false"
  loads text :=
    if text = "null" then some none
    else if text = "true" then some (some true)
    else if text = "false" then some (some false)
    else none
  sha256 text :=
    if text = "null" then
      ⟨"74234e98afe7498fb5daf1f36ac2d78acc339464f950703b8c019892f982b90b", by decide⟩
    else if text = "true" then
      ⟨"b5bea41b6c623f7c09f1bf24dcae58ebab3c0cdd90ad966bc43a45b44867e12b", by decide⟩
    else ⟨"fcbcf165908dd18a9e49f7ff27810176db8e9f63b4352213741664245224f8aa", by decide⟩

theorem sampleSerializer_lawful : sampleSerializer.Lawful := by
  refine ⟨?_⟩
  intro record validated canonical hv hc
  cases hv
  match record, hc with
  | none, rfl => rfl
  | some true, rfl => rfl
  | some false, rfl => rfl

theorem sampleSchema_valid : isReferenceSchema "result" = true := by decide

def sampleReference : ObjectReference where
  schema := "result"
  contentHash := "74234e98afe7498fb5daf1f36ac2d78acc339464f950703b8c019892f982b90b"
  schema_valid := sampleSchema_valid
  hash_valid := by decide

/-- A stored `null`, read back after its key was evicted. -/
theorem content_immutable_null :
    (machine sampleSerializer MemoryBackend.backend).reply MemoryBackend.empty []
        ⟨.put "result" none, .none⟩ = .ok (.put sampleReference .stored) ∧
      (machine sampleSerializer MemoryBackend.backend).reply MemoryBackend.empty
        [⟨.put "result" none, .none⟩, ⟨.bind "a" sampleReference, .none⟩,
          ⟨.evictBindings ["a"], .raised⟩] ⟨.get sampleReference, .none⟩ = .ok (.get none) := by
  have hput : (machine sampleSerializer MemoryBackend.backend).reply MemoryBackend.empty []
      ⟨.put "result" none, .none⟩ = .ok (.put sampleReference .stored) := rfl
  refine ⟨hput, ?_⟩
  obtain ⟨validated, hv, hget⟩ := (content_immutable sampleSerializer_lawful
    MemoryBackend.backend rfl []).put_get "result" none .none sampleReference .stored
      [⟨.bind "a" sampleReference, .none⟩, ⟨.evictBindings ["a"], .raised⟩] hput
  cases hv
  exact hget

end DrStore.Store.Immutability
