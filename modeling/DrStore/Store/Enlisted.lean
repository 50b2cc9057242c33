import DrStore.Store.Postgres
import DrStore.Store.VerifiedReads

/-! # Operations enlisted in a caller's transaction (object_store.py, storage_backends/postgresql.py)

An enlisted operation runs its statements on a connection of the caller, who alone begins,
commits and rolls back, and who may go on after an operation has raised. It answers as the
awaited one does. There is one difference: the awaited `put_many` rolls back when a text
conflicts with a stored one, the enlisted one has then inserted the batch's new objects. -/
namespace DrStore.Store.Enlisted
open DrStore.Base.Collections DrStore.Base.Fallible DrStore.Base.Programs
open DrStore.Store.Bindings DrStore.Store.ContentAddressing DrStore.Store.Contract
open DrStore.Store.Immutability
open DrStore.Store.ObjectStore DrStore.Store.Statements DrStore.Store.VerifiedReads

variable {D : DrSerialize}

/-! ## The backend's methods -/

namespace PostgresBackend
open DrStore.Store.Postgres.PostgresBackend

def putObjectEnlisted (schema contentHash canonical : String) : Program PutOutcome := do
  Prog.ofExcept (validateReference schema contentHash)
  putObjectOnConnection schema contentHash canonical

def getObjectEnlisted (schema contentHash : String) : Program (Option (String × String)) := do
  Prog.ofExcept (validateReference schema contentHash)
  getObjectOnConnection schema contentHash

def bindEnlisted (key schema contentHash : String) : Program BindOutcome := do
  let _ ← Prog.ofExcept (validateBindingKey key)
  Prog.ofExcept (validateReference schema contentHash)
  bindOnConnection key schema contentHash

def getBindingEnlisted (key : String) : Program (Option RowKey) := do
  let _ ← Prog.ofExcept (validateBindingKey key)
  getBindingOnConnection key

def getBoundObjectsEnlisted (b : Postgres.PostgresBackend) (keys : List String) :
    Program (Dict String BoundObjectRow) := do
  Prog.ofExcept (validateKeys keys)
  let distinctKeys := keys.eraseDups
  if distinctKeys = [] then return Dict.empty
  getBoundObjectsOnConnection b.batchChunkSize distinctKeys

def putBoundObjectsEnlisted (b : Postgres.PostgresBackend) (entries : List BoundObjectWrite) :
    Program (Dict String BindOutcome) := do
  Prog.ofExcept (validateEntries entries)
  if entries = [] then return Dict.empty
  putBoundObjectsOnConnection b.batchChunkSize entries

end PostgresBackend

/-! ## The store's methods -/

def putEnlisted (schema : String) (record : D.Jsonable) : Program (Result D) := do
  let _ ← Prog.ofExcept (validateReferenceSchema schema)
  let prepared ← Prog.ofExcept (prepareRecord D record)
  let outcome ← PostgresBackend.putObjectEnlisted schema prepared.contentHash.text
    prepared.canonical
  Prog.ofExcept (putFromPrepared schema prepared outcome)

def getEnlisted (reference : ObjectReference) : Program (Result D) := do
  let stored ← PostgresBackend.getObjectEnlisted reference.schema reference.contentHash
  Prog.ofExcept (match stored with
    | none => .error (.objectNotFound reference)
    | some (storedSchema, canonical) => do
      return .get (← verifyStoredRecord reference storedSchema canonical))

def getBoundObjectsEnlisted (b : Postgres.PostgresBackend) (keys : List String) :
    Program (Dict String BoundObjectRow) := do
  let distinct := keys.eraseDups
  Prog.ofExcept (validateKeys distinct)
  PostgresBackend.getBoundObjectsEnlisted b distinct

def getManyEnlisted (b : Postgres.PostgresBackend) (keys : List String) (schema : String) :
    Program (Result D) := do
  let validatedSchema ← Prog.ofExcept (validateReferenceSchema schema)
  let distinct := keys.eraseDups
  let rows ← getBoundObjectsEnlisted b distinct
  Prog.ofExcept (do return .getMany (← verifiedHits validatedSchema rows distinct Dict.empty))

def putManyEnlisted (b : Postgres.PostgresBackend) (entries : Dict String (String × D.Jsonable)) :
    Program (Result D) := do
  let writes ← Prog.ofExcept (prepareWrites entries.items)
  let outcomes ← PostgresBackend.putBoundObjectsEnlisted b writes
  Prog.ofExcept (do return .putMany (← winners outcomes.items Dict.empty))

def bindEnlisted (key : String) (reference : ObjectReference) : Program (Result D) := do
  let _ ← Prog.ofExcept (validateBindingKey key)
  let outcome ← PostgresBackend.bindEnlisted key reference.schema reference.contentHash
  Prog.ofExcept (do
    if outcome.bound then return .bind .bound
    let existing ← ObjectReference.make outcome.existingSchema outcome.existingContentHash
    if existing = reference then return .bind .idempotent
    throw (.bindingConflict key existing reference))

def resolveEnlisted (key : String) : Program (Result D) := do
  let _ ← Prog.ofExcept (validateBindingKey key)
  let bound ← PostgresBackend.getBindingEnlisted key
  Prog.ofExcept (match bound with
    | none => return .resolve none
    | some bound => do return .resolve (some (← ObjectReference.make bound.1 bound.2)))

/-- The methods that have an enlisted variant; evictions have none. -/
inductive EnlistedOp (D : DrSerialize) where
  | put (schema : String) (record : D.Jsonable)
  | get (reference : ObjectReference)
  | getMany (keys : List String) (schema : String)
  | putMany (entries : Dict String (String × D.Jsonable))
  | bind (key : String) (reference : ObjectReference)
  | resolve (key : String)

/-- The awaited variant. -/
def EnlistedOp.awaited : EnlistedOp D → Op D
  | .put schema record => .put schema record
  | .get reference => .get reference
  | .getMany keys schema => .getMany keys schema
  | .putMany entries => .putMany entries
  | .bind key reference => .bind key reference
  | .resolve key => .resolve key

def enlisted (b : Postgres.PostgresBackend) : EnlistedOp D → Program (Result D)
  | .put schema record => putEnlisted schema record
  | .get reference => getEnlisted reference
  | .getMany keys schema => getManyEnlisted b keys schema
  | .putMany entries => putManyEnlisted b entries
  | .bind key reference => bindEnlisted key reference
  | .resolve key => resolveEnlisted key

/-! ## What one operation owes -/

abbrev Outcome (D : DrSerialize) := Except StoreError (Result D)

/-- What an operation owes on some tables, with the calls served in some way. -/
def Owes (serves : Tables → Call → Except StoreError Reply → Tables → Prop) (t : Tables)
    (op : Op D) (out : Outcome D) (t' : Tables) : Prop :=
  match plan op with
  | .error e => out = .error e ∧ t' = t
  | .ok (.done result) => out = .ok result ∧ t' = t
  | .ok (.ask call finish) => ∃ reply, serves t call reply t' ∧ out = reply.bind finish

/-- The tables after an enlisted call: a batch that agrees with itself but not with what is
stored leaves its new objects. -/
def afterEnlisted (t : Tables) (call : Call) : Tables :=
  match call with
  | .putBoundObjects entries =>
    if t.compatible entries then t.after call
    else if Tables.empty.compatible entries then ⟨t.objectsAfter entries, t.bindings⟩ else t
  | _ => t.after call

def ServesEnlisted (t : Tables) (call : Call) (out : Except StoreError Reply) (t' : Tables) :
    Prop :=
  match call.validate with
  | .error e => out = .error e ∧ t' = t
  | .ok _ => t.Answers call out ∧ t' = afterEnlisted t call

theorem ensures_ofExcept {α : Type} {out : Except StoreError α}
    {Q : Except StoreError α → Tables → Prop} {t : Tables} (h : Q out t) :
    Ensures (Prog.ofExcept out) Q t := by
  cases out with
  | ok a => exact h
  | error e => exact h

/-- What a wrapped program ensures. -/
theorem ensures_wrapped {α : Type} {p : Program α} {wrap : α → Reply}
    {Q : Except StoreError Reply → Tables → Prop} {t : Tables}
    (h : Ensures (do return wrap (← p)) Q t) : Ensures p (fun out t' => Q (out.map wrap) t') t := by
  refine Prog.ensures_mono ((Prog.ensures_settle p _ Q t).mp h) ?_
  intro out t' h
  cases out with
  | ok a => exact h
  | error e => exact h

/-- A method that refuses invalid arguments, and otherwise runs statements that serve the call. -/
theorem served {α : Type} {call : Call} {wrap : α → Reply} {p : Program α} {t : Tables}
    (hinvalid : ∀ e, call.validate = .error e → p = .fail e)
    (hvalid : call.validate = .ok () → Ensures p (fun out t' => t.Answers call (out.map wrap) ∧
      t' = afterEnlisted t call) t) :
    Ensures p (fun out t' => ServesEnlisted t call (out.map wrap) t') t := by
  unfold ServesEnlisted
  cases hv : call.validate with
  | error e =>
    rw [hinvalid e hv]
    exact ⟨rfl, rfl⟩
  | ok _ => exact hvalid hv

/-! ## Statements -/

section Statements
open DrStore.Store.Postgres.PostgresBackend

theorem putObject_served (schema contentHash canonical : String) (t : Tables) :
    Ensures (PostgresBackend.putObjectEnlisted schema contentHash canonical)
      (fun out t' => ServesEnlisted t (.putObject schema contentHash canonical)
        (out.map Reply.put) t') t := by
  refine served ?_ ?_
  · intro e he
    have he : validateReference schema contentHash = .error e := he
    rw [PostgresBackend.putObjectEnlisted, he]
    rfl
  · intro hv
    have hv : validateReference schema contentHash = .ok () := hv
    rw [PostgresBackend.putObjectEnlisted, hv]
    refine Prog.ensures_mono (ensures_wrapped (putObject_fulfils schema contentHash canonical t)) ?_
    intro out t' h
    obtain ⟨hanswers, hleaves⟩ := h
    refine ⟨hanswers, ?_⟩
    rw [hanswers] at hleaves
    exact hleaves

theorem getObject_served (schema contentHash : String) (t : Tables) :
    Ensures (PostgresBackend.getObjectEnlisted schema contentHash)
      (fun out t' => ServesEnlisted t (.getObject schema contentHash)
        (out.map Reply.object) t') t := by
  refine served ?_ ?_
  · intro e he
    have he : validateReference schema contentHash = .error e := he
    rw [PostgresBackend.getObjectEnlisted, he]
    rfl
  · intro hv
    have hv : validateReference schema contentHash = .ok () := hv
    rw [PostgresBackend.getObjectEnlisted, hv]
    exact ensures_wrapped (selectByHash_reports schema contentHash t)

theorem bind_served (key schema contentHash : String) (t : Tables) :
    Ensures (PostgresBackend.bindEnlisted key schema contentHash)
      (fun out t' => ServesEnlisted t (.bind key schema contentHash) (out.map Reply.bind) t') t := by
  have hcheck : PostgresBackend.bindEnlisted key schema contentHash =
      (do Prog.ofExcept (Call.bind key schema contentHash).validate
          bindOnConnection key schema contentHash) := by
    rw [PostgresBackend.bindEnlisted, Call.validate]
    cases validateBindingKey key <;> rfl
  rw [hcheck]
  refine served ?_ ?_
  · intro e he
    rw [he]
    rfl
  · intro hv
    rw [hv]
    refine Prog.ensures_mono (ensures_wrapped (insertThenRead_fulfils key schema contentHash t)) ?_
    intro out t' h
    obtain ⟨hanswers, hleaves⟩ := h
    refine ⟨hanswers, ?_⟩
    rw [hanswers] at hleaves
    exact hleaves

theorem getBinding_served (key : String) (t : Tables) :
    Ensures (PostgresBackend.getBindingEnlisted key)
      (fun out t' => ServesEnlisted t (.getBinding key) (out.map Reply.binding) t') t := by
  have hcheck : PostgresBackend.getBindingEnlisted key =
      (do Prog.ofExcept (Call.getBinding key).validate
          getBindingOnConnection key) := by
    rw [PostgresBackend.getBindingEnlisted, Call.validate, validateKeys]
    cases validateBindingKey key <;> rfl
  rw [hcheck]
  refine served ?_ ?_
  · intro e he
    rw [he]
    rfl
  · intro hv
    rw [hv]
    exact ensures_wrapped (selectBinding_reports key t)

theorem getBoundObjects_served (b : Postgres.PostgresBackend) (keys : List String) (t : Tables) :
    Ensures (PostgresBackend.getBoundObjectsEnlisted b keys)
      (fun out t' => ServesEnlisted t (.getBoundObjects keys) (out.map Reply.rows) t') t := by
  refine served ?_ ?_
  · intro e he
    have he : validateKeys keys = .error e := he
    rw [PostgresBackend.getBoundObjectsEnlisted, he]
    rfl
  · intro hv
    have hv : validateKeys keys = .ok () := hv
    rw [PostgresBackend.getBoundObjectsEnlisted, hv, Prog.ofExcept_ok, Prog.pure_bind]
    by_cases h : keys.eraseDups = []
    · simp only [if_pos h]
      rw [eraseDups_eq_nil h]
      exact ⟨⟨_, rfl, by simp⟩, rfl⟩
    · simp only [if_neg h]
      exact ensures_wrapped (getBoundObjects_reports b.positive keys t)

/-- A batch, with the tables it leaves when it fails. -/
theorem batch_ensures {n : Nat} (hn : 0 < n) (entries : List BoundObjectWrite) (t : Tables) :
    Ensures (putBoundObjectsOnConnection n entries) (fun out t' => Batch entries t out t' ∧
      t' = afterEnlisted t (.putBoundObjects entries)) t := by
  have hempty : ∀ e ∈ entries, ∀ s, Tables.empty.objects e.reference = some s → s = e.canonical := by
    intro e _ s hs
    cases hs
  unfold putBoundObjectsOnConnection
  cases hd : distinctWrites entries Dict.empty Dict.empty with
  | error err =>
    obtain ⟨⟨schema, contentHash, rfl⟩, hclash⟩ := distinctWrites_error hd
    show Batch entries t _ t ∧ t = _
    rw [Batch, if_neg (hclash t), afterEnlisted, if_neg (hclash t), if_neg (hclash Tables.empty)]
    exact ⟨⟨schema, contentHash, rfl⟩, rfl⟩
  | ok p =>
    obtain ⟨objects, writes⟩ := p
    have h := distinctWrites_ok hd
    have hself : Tables.empty.compatible entries = true := by
      rw [Tables.compatible_iff]
      intro e he
      refine ⟨?_, hempty e he⟩
      rw [← h.objects_eq]
      exact h.agree e he
    have hobjects := storeObjects_ensures hn objects t
    rw [h.objectsAfter_eq, h.compatible_iff] at hobjects
    rw [Prog.ofExcept_ok, Prog.pure_bind]
    refine Prog.ensures_bind _ hobjects ?_ ?_
    · rintro _ _ ⟨rfl, ⟨_, hc⟩ | ⟨⟨_, _, heq⟩, _⟩⟩
      · refine Prog.ensures_mono (storeBindings_ensures hn h _) ?_
        rintro _ _ ⟨outcomes, rfl, rfl, ho⟩
        rw [Batch, if_pos hc, afterEnlisted, if_pos hc, Tables.after, if_pos hc]
        exact ⟨⟨outcomes, rfl, rfl, ho⟩, rfl⟩
      · cases heq
    · rintro e _ ⟨rfl, ⟨heq, _⟩ | ⟨⟨schema, contentHash, heq⟩, hc⟩⟩
      · cases heq
      · cases heq
        rw [Batch, if_neg hc, afterEnlisted, if_neg hc, if_pos hself]
        exact ⟨⟨schema, contentHash, rfl⟩, rfl⟩

theorem putBoundObjects_served (b : Postgres.PostgresBackend) (entries : List BoundObjectWrite)
    (t : Tables) : Ensures (PostgresBackend.putBoundObjectsEnlisted b entries)
      (fun out t' => ServesEnlisted t (.putBoundObjects entries) (out.map Reply.outcomes) t') t := by
  refine served ?_ ?_
  · intro e he
    have he : validateEntries entries = .error e := he
    rw [PostgresBackend.putBoundObjectsEnlisted, he]
    rfl
  · intro hv
    have hv : validateEntries entries = .ok () := hv
    rw [PostgresBackend.putBoundObjectsEnlisted, hv, Prog.ofExcept_ok, Prog.pure_bind]
    split
    · rename_i h
      subst h
      exact ⟨⟨_, rfl, by simp⟩, rfl⟩
    · refine Prog.ensures_mono (batch_ensures b.positive entries t) ?_
      rintro out t' ⟨hbatch, rfl⟩
      refine ⟨?_, rfl⟩
      unfold Batch at hbatch
      simp only [Tables.Answers]
      split at hbatch
      · rename_i hc
        obtain ⟨outcomes, rfl, _, ho⟩ := hbatch
        rw [if_pos hc]
        exact ⟨outcomes, rfl, ho⟩
      · rename_i hc
        obtain ⟨schema, contentHash, rfl⟩ := hbatch
        rw [if_neg hc]
        exact ⟨schema, contentHash, rfl⟩

end Statements

/-! ## Operations -/

/-- One call, and what the method makes of the reply. -/
theorem asks {α : Type} {p : Program α} {wrap : α → Reply} {call : Call}
    {finish : Reply → Outcome D} {f : α → Outcome D} {t : Tables}
    (hp : Ensures p (fun out t' => ServesEnlisted t call (out.map wrap) t') t)
    (hf : ∀ a, finish (wrap a) = f a) :
    Ensures (do let a ← p; Prog.ofExcept (f a)) (fun out t' => ∃ reply,
      ServesEnlisted t call reply t' ∧ out = reply.bind finish) t := by
  refine Prog.ensures_bind _ hp ?_ ?_
  · exact fun a t' h => ensures_ofExcept ⟨.ok (wrap a), h, (hf a).symm⟩
  · exact fun e t' h => ⟨.error e, h, rfl⟩

theorem owes_error {serves : Tables → Call → Except StoreError Reply → Tables → Prop} {op : Op D}
    {e : StoreError} {t : Tables} (h : plan op = .error e) : Owes serves t op (.error e) t := by
  rw [Owes, h]
  exact ⟨rfl, rfl⟩

theorem owes_ask {op : Op D} {call : Call} {finish : Reply → Outcome D} {p : Program (Result D)}
    {t : Tables} (h : plan op = .ok (.ask call finish)) (hp : Ensures p (fun out t' => ∃ reply,
      ServesEnlisted t call reply t' ∧ out = reply.bind finish) t) :
    Ensures p (fun out t' => Owes ServesEnlisted t op out t') t := by
  refine Prog.ensures_mono hp ?_
  intro out t' hout
  rw [Owes, h]
  exact hout

theorem put_owes (schema : String) (record : D.Jsonable) (t : Tables) :
    Ensures (putEnlisted schema record)
      (fun out t' => Owes ServesEnlisted t (.put schema record) out t') t := by
  rw [putEnlisted]
  cases hs : validateReferenceSchema schema with
  | error e => exact @owes_error _ _ (.put schema record) e t (by rw [plan, put, hs]; rfl)
  | ok _ =>
    cases hp : prepareRecord D record with
    | error e => exact @owes_error _ _ (.put schema record) e t (by rw [plan, put, hs, hp]; rfl)
    | ok prepared =>
      refine @owes_ask _ (.put schema record) _ _ _ t (by rw [plan, put, hs, hp]; rfl) ?_
      exact asks (putObject_served _ _ _ t) fun _ => rfl

theorem get_owes (reference : ObjectReference) (t : Tables) :
    Ensures (getEnlisted (D := D) reference)
      (fun out t' => Owes ServesEnlisted t (.get reference) out t') t := by
  refine @owes_ask _ (.get reference) _ _ _ t rfl (asks (getObject_served _ _ t) ?_)
  intro stored
  cases stored <;> rfl

theorem getMany_owes (b : Postgres.PostgresBackend) (keys : List String) (schema : String)
    (t : Tables) : Ensures (getManyEnlisted (D := D) b keys schema)
      (fun out t' => Owes ServesEnlisted t (.getMany keys schema) out t') t := by
  rw [getManyEnlisted]
  cases hs : validateReferenceSchema schema with
  | error e => exact @owes_error _ _ (.getMany keys schema) e t (by rw [plan, getMany, hs]; rfl)
  | ok validatedSchema =>
    cases hk : validateKeys keys.eraseDups with
    | error e =>
      simp only [getBoundObjectsEnlisted, eraseDups_eraseDups, hk]
      exact @owes_error _ _ (.getMany keys schema) e t (by simp only [plan, getMany, hs, hk]; rfl)
    | ok _ =>
      simp only [getBoundObjectsEnlisted, eraseDups_eraseDups, hk]
      refine @owes_ask _ (.getMany keys schema) _ _ _ t
        (by simp only [plan, getMany, hs, hk]; rfl) ?_
      exact asks (getBoundObjects_served b _ t) fun _ => rfl

theorem putMany_owes (b : Postgres.PostgresBackend) (entries : Dict String (String × D.Jsonable))
    (t : Tables) : Ensures (putManyEnlisted b entries)
      (fun out t' => Owes ServesEnlisted t (.putMany entries) out t') t := by
  rw [putManyEnlisted]
  cases hw : prepareWrites entries.items with
  | error e => exact @owes_error _ _ (.putMany entries) e t (by rw [plan, putMany, hw]; rfl)
  | ok writes =>
    refine @owes_ask _ (.putMany entries) _ _ _ t (by rw [plan, putMany, hw]; rfl) ?_
    exact asks (putBoundObjects_served b writes t) fun _ => rfl

theorem bind_owes (key : String) (reference : ObjectReference) (t : Tables) :
    Ensures (bindEnlisted (D := D) key reference)
      (fun out t' => Owes ServesEnlisted t (.bind key reference) out t') t := by
  rw [bindEnlisted]
  cases hk : validateBindingKey key with
  | error e =>
    exact @owes_error _ _ (.bind key reference) e t (by rw [plan, ObjectStore.bind, hk]; rfl)
  | ok _ =>
    refine @owes_ask _ (.bind key reference) _ _ _ t (by rw [plan, ObjectStore.bind, hk]; rfl) ?_
    exact asks (bind_served key _ _ t) fun _ => rfl

theorem resolve_owes (key : String) (t : Tables) :
    Ensures (resolveEnlisted (D := D) key)
      (fun out t' => Owes ServesEnlisted t (.resolve key) out t') t := by
  rw [resolveEnlisted]
  cases hk : validateBindingKey key with
  | error e => exact @owes_error _ _ (.resolve key) e t (by rw [plan, resolve, hk]; rfl)
  | ok _ =>
    refine @owes_ask _ (.resolve key) _ _ _ t (by rw [plan, resolve, hk]; rfl) ?_
    refine asks (getBinding_served key t) ?_
    intro bound
    cases bound <;> rfl

theorem enlisted_owes (b : Postgres.PostgresBackend) (op : EnlistedOp D) (t : Tables) :
    Ensures (enlisted b op) (fun out t' => Owes ServesEnlisted t op.awaited out t') t := by
  cases op with
  | put schema record => exact put_owes schema record t
  | get reference => exact get_owes reference t
  | getMany keys schema => exact getMany_owes b keys schema t
  | putMany entries => exact putMany_owes b entries t
  | bind key reference => exact bind_owes key reference t
  | resolve key => exact resolve_owes key t

/-! ## The awaited variant -/

theorem awaited_owes (B : Backend) (s : B.State) (op : Op D) :
    Owes Tables.Serves (B.tables s) op (step B s ⟨op, .none⟩).2
      (B.tables (step B s ⟨op, .none⟩).1) := by
  unfold Owes step
  cases hplan : plan op with
  | error e => exact ⟨rfl, rfl⟩
  | ok p =>
    cases p with
    | done result => exact ⟨rfl, rfl⟩
    | ask call finish => exact ⟨_, B.serves s call, rfl⟩

theorem afterEnlisted_cases (t : Tables) (call : Call) : afterEnlisted t call = t.after call ∨
    ∃ writes, call = .putBoundObjects writes ∧ ¬ t.compatible writes = true ∧
      afterEnlisted t call = ⟨t.objectsAfter writes, t.bindings⟩ := by
  cases call with
  | putBoundObjects writes =>
    rw [afterEnlisted]
    split
    · exact .inl rfl
    · rename_i hc
      split
      · exact .inr ⟨writes, rfl, hc, rfl⟩
      · rw [Tables.after, if_neg hc]
        exact .inl rfl
  | _ => exact .inl rfl

/-- A batch call is one of `put_many`. -/
theorem plan_batch {op : EnlistedOp D} {writes : List BoundObjectWrite}
    {finish : Reply → Outcome D} (h : plan op.awaited = .ok (.ask (.putBoundObjects writes) finish)) :
    ∃ entries, op = .putMany entries ∧ prepareWrites entries.items = .ok writes := by
  cases op with
  | putMany entries =>
    obtain ⟨writes', hw, heq⟩ := putMany_ok h
    cases heq
    exact ⟨entries, rfl, hw⟩
  | put schema record =>
    obtain ⟨_, _, heq⟩ := put_ok h
    cases heq
  | get reference => cases pure_ok h
  | getMany keys schema =>
    obtain ⟨_, _, h⟩ := bind_ok h
    obtain ⟨_, _, h⟩ := bind_ok h
    cases pure_ok h
  | bind key reference =>
    obtain ⟨_, _, h⟩ := bind_ok h
    cases pure_ok h
  | resolve key =>
    obtain ⟨_, _, h⟩ := bind_ok h
    cases pure_ok h

/-- **An enlisted operation answers as the awaited one**, on the tables that its connection sees,
and leaves the same tables, unless it is a `put_many` that conflicts with a stored text: then
it leaves the batch's new objects, and no binding. -/
theorem enlisted_as_awaited (b : Postgres.PostgresBackend) (op : EnlistedOp D) (t : Tables) :
    (∀ (B : Backend) (s : B.State), Owes Tables.Serves (B.tables s) op.awaited
      (step B s ⟨op.awaited, .none⟩).2 (B.tables (step B s ⟨op.awaited, .none⟩).1)) ∧
    Ensures (enlisted b op) (fun out t' => ∃ t'', Owes Tables.Serves t op.awaited out t'' ∧
      (t' = t'' ∨ ∃ entries writes schema contentHash, op = .putMany entries ∧
        prepareWrites entries.items = .ok writes ∧
        out = .error (.objectConflict schema contentHash) ∧ t'' = t ∧
        t' = ⟨t.objectsAfter writes, t.bindings⟩)) t := by
  refine ⟨fun B s => awaited_owes B s op.awaited, ?_⟩
  refine Prog.ensures_mono (enlisted_owes b op t) ?_
  intro out t' h
  unfold Owes at h ⊢
  cases hplan : plan op.awaited with
  | error e =>
    rw [hplan] at h
    exact ⟨t', h, .inl rfl⟩
  | ok p =>
    rw [hplan] at h
    cases p with
    | done result => exact ⟨t', h, .inl rfl⟩
    | ask call finish =>
      obtain ⟨reply, hserves, hout⟩ := h
      unfold ServesEnlisted at hserves
      simp only [Tables.Serves]
      cases hv : call.validate with
      | error e =>
        rw [hv] at hserves
        exact ⟨t', ⟨reply, hserves, hout⟩, .inl rfl⟩
      | ok _ =>
        rw [hv] at hserves
        obtain ⟨hanswers, rfl⟩ := hserves
        refine ⟨t.after call, ⟨reply, ⟨hanswers, rfl⟩, hout⟩, ?_⟩
        rcases afterEnlisted_cases t call with heq | ⟨writes, rfl, hc, heq⟩
        · exact .inl heq
        · obtain ⟨entries, rfl, hw⟩ := plan_batch hplan
          rw [Tables.Answers, if_neg hc] at hanswers
          obtain ⟨schema, contentHash, rfl⟩ := hanswers
          exact .inr ⟨entries, writes, schema, contentHash, rfl, hw, hout, by
            rw [Tables.after, if_neg hc], heq⟩

/-! ## What an operation leaves -/

/-- Nothing is overwritten or removed, and what is new is addressed by its content. -/
structure Grows (D : DrSerialize) (t t' : Tables) : Prop where
  objects : Keeps t t'
  bindings : ∀ key reference, t.bindings key = some reference → t'.bindings key = some reference
  digested : ∀ row canonical, t.objects row = none → t'.objects row = some canonical →
    Digested D row.2 canonical

theorem Grows.refl (t : Tables) : Grows D t t := by
  refine ⟨fun _ _ h => h, fun _ _ h => h, ?_⟩
  intro row canonical hnone hrow
  rw [hnone] at hrow
  cases hrow

theorem Grows.trans {t t' t'' : Tables} (h : Grows D t t') (h' : Grows D t' t'') :
    Grows D t t'' where
  objects row canonical hrow := h'.objects row canonical (h.objects row canonical hrow)
  bindings key reference hkey := h'.bindings key reference (h.bindings key reference hkey)
  digested row canonical hnone hrow := by
    cases hmid : t'.objects row with
    | none => exact h'.digested row canonical hmid hrow
    | some c =>
      -- what the first has inserted, the second keeps
      have hsame := h'.objects row c hmid
      rw [hrow, Option.some.injEq] at hsame
      exact hsame ▸ h.digested row c hnone hmid

/-- Inserting what is absent, the objects under their hashes. -/
theorem grows_fill {t : Tables} {rows : List (RowKey × String)} (pairs : List (String × RowKey))
    (hrows : ∀ row ∈ rows, Digested D row.1.2 row.2) :
    Grows D t ⟨fill t.objects rows, fill t.bindings pairs⟩ := by
  refine ⟨?_, ?_, ?_⟩
  · intro row canonical hrow
    show fill t.objects rows row = some canonical
    rw [fill_apply, hrow]
    rfl
  · intro key reference hkey
    show fill t.bindings pairs key = some reference
    rw [fill_apply, hkey]
    rfl
  · intro row canonical hnone hrow
    have hrow : fill t.objects rows row = some canonical := hrow
    rw [fill_apply, hnone] at hrow
    exact hrows _ (firstOf_mem hrow)

theorem afterEnlisted_grows {t : Tables} {call : Call}
    (hrows : ∀ row ∈ call.objectWrites, Digested D row.1.2 row.2)
    (hcall : ∀ keys, call ≠ .deleteBindings keys) : Grows D t (afterEnlisted t call) := by
  have hnone : ∀ row ∈ ([] : List (RowKey × String)), Digested D row.1.2 row.2 := by simp
  cases call with
  | putObject schema contentHash canonical =>
    exact grows_fill [] hrows
  | getObject schema contentHash => exact .refl t
  | bind key schema contentHash => exact grows_fill [(key, (schema, contentHash))] hnone
  | getBinding key => exact .refl t
  | getBoundObjects keys => exact .refl t
  | putBoundObjects writes =>
    rw [afterEnlisted]
    split
    · rename_i hc
      rw [Tables.after, if_pos hc]
      exact grows_fill (bindingPairs writes) hrows
    · split
      · exact grows_fill [] hrows
      · exact .refl t
  | deleteBindings keys => exact absurd rfl (hcall keys)

/-- No enlisted operation deletes. -/
theorem plan_spares {op : EnlistedOp D} {call : Call} {finish : Reply → Outcome D}
    (h : plan op.awaited = .ok (.ask call finish)) (keys : List String) :
    call ≠ .deleteBindings keys := by
  rintro rfl
  cases op with
  | put schema record =>
    obtain ⟨_, _, heq⟩ := put_ok h
    cases heq
  | get reference => cases pure_ok h
  | getMany keys schema =>
    obtain ⟨_, _, h⟩ := bind_ok h
    obtain ⟨_, _, h⟩ := bind_ok h
    cases pure_ok h
  | putMany entries =>
    obtain ⟨_, _, heq⟩ := putMany_ok h
    cases heq
  | bind key reference =>
    obtain ⟨_, _, h⟩ := bind_ok h
    cases pure_ok h
  | resolve key =>
    obtain ⟨_, _, h⟩ := bind_ok h
    cases pure_ok h

theorem owes_grows {op : EnlistedOp D} {t t' : Tables} {out : Outcome D}
    (h : Owes ServesEnlisted t op.awaited out t') : Grows D t t' := by
  unfold Owes at h
  cases hplan : plan op.awaited with
  | error e =>
    rw [hplan] at h
    rw [h.2]
    exact .refl t
  | ok p =>
    rw [hplan] at h
    cases p with
    | done result =>
      rw [h.2]
      exact .refl t
    | ask call finish =>
      obtain ⟨reply, hserves, _⟩ := h
      unfold ServesEnlisted at hserves
      split at hserves
      · rw [hserves.2]
        exact .refl t
      · rw [hserves.2]
        exact afterEnlisted_grows (plan_digested hplan) (plan_spares hplan)

/-! ## What an operation says -/

def Bound (t : Tables) (key : String) (reference : ObjectReference) : Prop :=
  t.bindings key = some (reference.schema, reference.contentHash)

/-- The canonical text of the record is stored under the reference. -/
def Stored (D : DrSerialize) (t : Tables) (reference : ObjectReference) (record : D.Jsonable) :
    Prop :=
  ∃ canonical, D.canonicalJson record = some canonical ∧
    t.objects (reference.schema, reference.contentHash) = some canonical

/-- What an operation that returned says of the tables. A miss says nothing: the caller may well
write the key afterwards. -/
def Says (t : Tables) : EnlistedOp D → Outcome D → Prop
  | .put schema record, .ok (.put reference _) => reference.schema = schema ∧
    ∃ validated, D.validateStrictJson record = some validated ∧ Stored D t reference validated
  | .get reference, .ok (.get record) => Stored D t reference record
  | .getMany _ schema, .ok (.getMany hits) => ∀ key record, hits.get? key = some (some record) →
    ∃ reference, reference.schema = schema ∧ Bound t key reference ∧ Stored D t reference record
  | .putMany _, .ok (.putMany references) => ∀ key reference,
    references.get? key = some reference → Bound t key reference
  | .bind key reference, .ok (.bind _) => Bound t key reference
  | .resolve key, .ok (.resolve bound) => ∀ reference, bound = some reference →
    Bound t key reference
  | _, _ => True

theorem Stored.grows {t t' : Tables} (h : Grows D t t') {reference : ObjectReference}
    {record : D.Jsonable} (hs : Stored D t reference record) : Stored D t' reference record := by
  obtain ⟨canonical, hc, hrow⟩ := hs
  exact ⟨canonical, hc, h.objects _ _ hrow⟩

/-- What was said stays true while the tables grow. -/
theorem Says.grows {t t' : Tables} (h : Grows D t t') {op : EnlistedOp D} {out : Outcome D}
    (hs : Says t op out) : Says t' op out := by
  cases out with
  | error e => cases op <;> trivial
  | ok result =>
    cases op <;> cases result <;> try trivial
    case put.put =>
      obtain ⟨hschema, validated, hv, hstored⟩ := hs
      exact ⟨hschema, validated, hv, hstored.grows h⟩
    case get.get => exact Stored.grows h hs
    case getMany.getMany =>
      intro key record hhit
      obtain ⟨reference, hschema, hbound, hstored⟩ := hs key record hhit
      exact ⟨reference, hschema, h.bindings _ _ hbound, hstored.grows h⟩
    case putMany.putMany =>
      intro key reference hkey
      exact h.bindings _ _ (hs key reference hkey)
    case bind.bind => exact h.bindings _ _ hs
    case resolve.resolve =>
      intro reference hbound
      exact h.bindings _ _ (hs reference hbound)

theorem stored_of_verified {t : Tables} {reference : ObjectReference} {canonical : String}
    {record : D.Jsonable}
    (h : verifyStoredRecord reference reference.schema canonical = .ok record)
    (hrow : t.objects (reference.schema, reference.contentHash) = some canonical) :
    Stored D t reference record :=
  ⟨canonical, (verifyStoredRecord_canonical h).1, hrow⟩

theorem verifyStoredRecord_schema {reference : ObjectReference} {storedSchema canonical : String}
    {record : D.Jsonable} (h : verifyStoredRecord reference storedSchema canonical = .ok record) :
    storedSchema = reference.schema := by
  by_contra hne
  rw [verifyStoredRecord, if_pos hne] at h
  cases h

/-- The hits of a batch read are verified rows. -/
theorem verifiedHits_ok {schema : String} {rows : Dict String BoundObjectRow} {keys : List String}
    {results hits : Dict String (Option D.Jsonable)}
    (h : verifiedHits schema rows keys results = .ok hits) {key : String} {record : D.Jsonable}
    (hhit : hits.get? key = some (some record)) : results.get? key = some (some record) ∨
      ∃ row reference canonical, rows.get? key = some row ∧ row.canonical = some canonical ∧
        ObjectReference.make row.bindingSchema row.bindingContentHash = .ok reference ∧
        reference.schema = schema ∧
        verifyStoredRecord reference row.bindingSchema canonical = .ok record := by
  induction keys generalizing results with
  | nil =>
    cases h
    exact .inl hhit
  | cons key' keys ih =>
    rw [verifiedHits] at h
    cases hrow : rows.get? key' with
    | none =>
      simp only [hrow] at h
      rcases ih h with hold | hnew
      · rw [Dict.get?_set] at hold
        split at hold
        · cases hold
        · exact .inl hold
      · exact .inr hnew
    | some row =>
      simp only [hrow] at h
      obtain ⟨reference, hmake, h⟩ := bind_ok h
      split at h
      · obtain ⟨_, h, _⟩ := bind_ok h
        cases h
      · rename_i hschema
        cases hcanonical : row.canonical with
        | none =>
          rw [hcanonical] at h
          cases h
        | some canonical =>
          rw [hcanonical] at h
          obtain ⟨verified, hverified, h⟩ := bind_ok h
          rcases ih h with hold | hnew
          · rw [Dict.get?_set] at hold
            split at hold
            · rename_i hkey
              subst hkey
              cases hold
              exact .inr ⟨row, reference, canonical, hrow, hcanonical, hmake,
                not_not.mp hschema, hverified⟩
            · exact .inl hold
          · exact .inr hnew

/-- An operation that returned asked once, was answered, and the call took effect. -/
theorem owes_ok {op : EnlistedOp D} {t t' : Tables} {result : Result D}
    (h : Owes ServesEnlisted t op.awaited (.ok result) t') :
    plan op.awaited = .ok (.done result) ∨ ∃ call finish reply,
      plan op.awaited = .ok (.ask call finish) ∧ t.Answers call (.ok reply) ∧
      t' = t.after call ∧ finish reply = .ok result := by
  unfold Owes at h
  cases hplan : plan op.awaited with
  | error e =>
    rw [hplan] at h
    cases h.1
  | ok p =>
    rw [hplan] at h
    cases p with
    | done result' =>
      cases h.1
      exact .inl rfl
    | ask call finish =>
      obtain ⟨reply, hserves, hout⟩ := h
      obtain ⟨r, rfl, hfinish⟩ := bind_ok hout.symm
      unfold ServesEnlisted at hserves
      split at hserves
      · cases hserves.1
      · obtain ⟨hanswers, htables⟩ := hserves
        refine .inr ⟨call, finish, r, rfl, hanswers, ?_, hfinish⟩
        rw [htables]
        rcases afterEnlisted_cases t call with heq | ⟨writes, rfl, hc, _⟩
        · exact heq
        · rw [Tables.Answers, if_neg hc] at hanswers
          obtain ⟨_, _, heq⟩ := hanswers
          cases heq

theorem put_says {t t' : Tables} {schema : String} {record : D.Jsonable} {result : Result D}
    (h : Owes ServesEnlisted t (.put schema record) (.ok result) t') :
    Says t' (.put schema record) (.ok result) := by
  rcases @owes_ok _ (.put schema record) _ _ _ h with
    hplan | ⟨call, finish, reply, hplan, hanswers, rfl, hfinish⟩
  · obtain ⟨_, _, heq⟩ := put_ok hplan
    cases heq
  · obtain ⟨prepared, hp, heq⟩ := put_ok hplan
    cases heq
    obtain ⟨⟨validated, henc⟩, hdigest⟩ := prepareRecord_ok hp
    simp only [Tables.Answers, Except.ok.injEq] at hanswers
    subst hanswers
    obtain ⟨reference, status, rfl, hs, hh, hout⟩ := putFromPrepared_ok hfinish
    refine ⟨hs, validated, henc.1, prepared.canonical, henc.2, ?_⟩
    rw [hs, hh]
    show putAbsent _ _ _ _ = _
    rw [putAbsent_self]
    rcases hout with hout | hout
    · rw [Option.isNone_iff_eq_none.mp hout]
      rfl
    · exact congrArg some hout

theorem get_says {t t' : Tables} {reference : ObjectReference} {result : Result D}
    (h : Owes ServesEnlisted t (.get reference) (.ok result) t') :
    Says t' (.get reference) (.ok result) := by
  rcases @owes_ok _ (.get reference) _ _ _ h with
    hplan | ⟨call, finish, reply, hplan, hanswers, rfl, hfinish⟩
  · cases pure_ok hplan
  · cases pure_ok hplan
    have hfound : ∀ storedSchema canonical,
        t.objects (storedSchema, reference.contentHash) = some canonical →
        reply = .object (some (storedSchema, canonical)) →
        Says t (.get reference) (.ok result) := by
      rintro storedSchema canonical hrow rfl
      obtain ⟨record, hverified, heq⟩ := bind_ok hfinish
      cases pure_ok heq
      cases verifyStoredRecord_schema hverified
      exact stored_of_verified hverified hrow
    simp only [Tables.Answers] at hanswers
    split at hanswers
    · rename_i canonical hrow
      exact hfound _ _ hrow (Except.ok.inj hanswers)
    · rcases hanswers with ⟨other, canonical, hrow, heq⟩ | ⟨_, heq⟩
      · exact hfound _ _ hrow (Except.ok.inj heq)
      · cases heq
        cases hfinish

theorem getMany_says {t t' : Tables} {keys : List String} {schema : String} {result : Result D}
    (h : Owes ServesEnlisted t (.getMany keys schema) (.ok result) t') :
    Says t' (.getMany keys schema) (.ok result) := by
  rcases @owes_ok _ (.getMany keys schema) _ _ _ h with
    hplan | ⟨call, finish, reply, hplan, hanswers, rfl, hfinish⟩
  · obtain ⟨_, _, hplan⟩ := bind_ok hplan
    obtain ⟨_, _, hplan⟩ := bind_ok hplan
    cases pure_ok hplan
  · obtain ⟨validatedSchema, hs, hplan⟩ := bind_ok hplan
    obtain ⟨_, _, hplan⟩ := bind_ok hplan
    cases pure_ok hplan
    obtain ⟨rows, heq, hrows⟩ := hanswers
    cases heq
    obtain ⟨hits, hhits, heq⟩ := bind_ok hfinish
    cases pure_ok heq
    intro key record hhit
    rcases verifiedHits_ok hhits hhit with hold | ⟨row, reference, canonical, hrow, hcanonical,
      hmake, hschema, hverified⟩
    · cases hold
    · rw [hrows] at hrow
      split at hrow
      · obtain ⟨bound, hbound, rfl⟩ := Option.map_eq_some_iff.mp hrow
        have heq : bound = (reference.schema, reference.contentHash) := make_row hmake
        subst heq
        have hvalid : validatedSchema = schema := by
          unfold validateReferenceSchema at hs
          split at hs
          · exact (Except.ok.inj hs).symm
          · cases hs
        exact ⟨reference, hschema.trans hvalid, hbound, stored_of_verified hverified hcanonical⟩
      · cases hrow

theorem putMany_says {t t' : Tables} {entries : Dict String (String × D.Jsonable)}
    {result : Result D} (h : Owes ServesEnlisted t (.putMany entries) (.ok result) t') :
    Says t' (.putMany entries) (.ok result) := by
  rcases @owes_ok _ (.putMany entries) _ _ _ h with
    hplan | ⟨call, finish, reply, hplan, hanswers, rfl, hfinish⟩
  · obtain ⟨_, _, heq⟩ := putMany_ok hplan
    cases heq
  · obtain ⟨writes, _, heq⟩ := putMany_ok hplan
    cases heq
    by_cases hc : t.compatible writes = true
    · rw [Tables.Answers, if_pos hc] at hanswers
      obtain ⟨outcomes, heq, ho⟩ := hanswers
      cases heq
      obtain ⟨references, hwinners, heq⟩ := bind_ok hfinish
      cases pure_ok heq
      intro key reference hkey
      obtain ⟨hmem, hnot⟩ := @winners_get _ outcomes.nodup _ _ hwinners key
      have hbound : ∃ o, outcomes.get? key = some o := by
        refine Option.isSome_iff_exists.mp (Dict.contains_iff.mpr ?_)
        by_contra hout
        rw [hnot hout] at hkey
        cases hkey
      obtain ⟨o, hget⟩ := hbound
      obtain ⟨r, hmake, heq⟩ := hmem o (Dict.get?_eq_some.mp hget)
      rw [heq] at hkey
      cases hkey
      rw [ho] at hget
      split at hget
      · obtain ⟨bound, hbound, rfl⟩ := Option.map_eq_some_iff.mp hget
        have hr : bound = (reference.schema, reference.contentHash) := make_row hmake
        rw [Bound, Tables.after, if_pos hc, ← hr]
        exact hbound
      · cases hget
    · rw [Tables.Answers, if_neg hc] at hanswers
      obtain ⟨_, _, heq⟩ := hanswers
      cases heq

theorem bind_says {t t' : Tables} {key : String} {reference : ObjectReference} {result : Result D}
    (h : Owes ServesEnlisted t (.bind key reference) (.ok result) t') :
    Says t' (.bind key reference) (.ok result) := by
  rcases @owes_ok _ (.bind key reference) _ _ _ h with
    hplan | ⟨call, finish, reply, hplan, hanswers, rfl, hfinish⟩
  · obtain ⟨_, _, hplan⟩ := bind_ok hplan
    cases pure_ok hplan
  · obtain ⟨_, _, hplan⟩ := bind_ok hplan
    cases pure_ok hplan
    simp only [Tables.Answers, Except.ok.injEq] at hanswers
    subst hanswers
    have hafter : (t.after (.bind key reference.schema reference.contentHash)).bindings key =
        some ((t.bindings key).getD (reference.schema, reference.contentHash)) := by
      show putAbsent _ _ _ _ = _
      rw [putAbsent_self]
    cases hbound : t.bindings key with
    | none =>
      simp only [hbound, Option.isNone_none, if_true] at hfinish
      cases pure_ok hfinish
      rw [hbound] at hafter
      exact hafter
    | some bound =>
      simp only [hbound, Option.isNone_some, Bool.false_eq_true, if_false] at hfinish
      obtain ⟨existing, hmake, hfinish⟩ := bind_ok hfinish
      split at hfinish
      · rename_i heq
        cases pure_ok hfinish
        have hb : bound = (existing.schema, existing.contentHash) := make_row hmake
        rw [hbound, Option.getD_some, hb, heq] at hafter
        exact hafter
      · cases hfinish

theorem resolve_says {t t' : Tables} {key : String} {result : Result D}
    (h : Owes ServesEnlisted t (.resolve key) (.ok result) t') :
    Says t' (.resolve key) (.ok result) := by
  rcases @owes_ok _ (.resolve key) _ _ _ h with
    hplan | ⟨call, finish, reply, hplan, hanswers, rfl, hfinish⟩
  · obtain ⟨_, _, hplan⟩ := bind_ok hplan
    cases pure_ok hplan
  · obtain ⟨_, _, hplan⟩ := bind_ok hplan
    cases pure_ok hplan
    simp only [Tables.Answers, Except.ok.injEq] at hanswers
    subst hanswers
    cases hbound : t.bindings key with
    | none =>
      rw [hbound] at hfinish
      cases pure_ok hfinish
      intro reference heq
      cases heq
    | some bound =>
      rw [hbound] at hfinish
      obtain ⟨reference, hmake, hfinish⟩ := bind_ok hfinish
      cases pure_ok hfinish
      intro reference' heq
      cases heq
      have hb : bound = (reference.schema, reference.contentHash) := make_row hmake
      show t.bindings key = _
      rw [hbound, hb]

theorem owes_says {op : EnlistedOp D} {t t' : Tables} {out : Outcome D}
    (h : Owes ServesEnlisted t op.awaited out t') : Says t' op out := by
  cases out with
  | error e => cases op <;> trivial
  | ok result =>
    cases op with
    | put schema record => exact put_says h
    | get reference => exact get_says h
    | getMany keys schema => exact getMany_says h
    | putMany entries => exact putMany_says h
    | bind key reference => exact bind_says h
    | resolve key => exact resolve_says h

/-! ## The caller's transaction -/

/-- A caller goes on with every outcome as it likes; it may raise on its own account. -/
abbrev Caller (D : DrSerialize) (α : Type) := Prog (EnlistedOp D) (fun _ => Outcome D) StoreError α

abbrev Log (D : DrSerialize) := List (EnlistedOp D × Outcome D)

variable {α : Type}

/-- The caller, with a log of the operations and their outcomes beside its own. -/
def logged : Caller D α → Log D → Caller D (Except StoreError α × Log D)
  | .pure a, log => .pure (.ok a, log)
  | .fail e, log => .pure (.error e, log)
  | .exec op k, log => .exec op fun out => logged (k out) (log ++ [(op, out)])

/-- The queries of a caller: an operation that raises does not end it. -/
def queries (b : Postgres.PostgresBackend) (caller : Caller D α) : Program α :=
  caller.translate fun op => (enlisted b op).settle .pure

/-- `with connection.begin()`: commit when the caller returns, roll back when it raises. -/
def callerTransaction (b : Postgres.PostgresBackend) (caller : Caller D α) :
    Prog Stmt StmtReply StoreError (Except StoreError α × Log D) :=
  .exec .begin fun _ => (onConnection (queries b (logged caller []))).settle fun
    | .ok (.ok a, log) => .closing .commit (.ok (.ok a, log))
    | .ok (.error e, log) => .closing .rollback (.ok (.error e, log))
    | .error e => .closing .rollback (.error e)

theorem queries_grow (b : Postgres.PostgresBackend) (caller : Caller D α) {log : Log D}
    {t₀ t : Tables} (hgrows : Grows D t₀ t) (hlog : ∀ entry ∈ log, Says t entry.1 entry.2) :
    Ensures (queries b (logged caller log)) (fun out t' => ∃ result log', out = .ok (result, log') ∧
      Grows D t₀ t' ∧ ∀ entry ∈ log', Says t' entry.1 entry.2) t := by
  induction caller generalizing log t with
  | pure a => exact ⟨.ok a, log, rfl, hgrows, hlog⟩
  | fail e => exact ⟨.error e, log, rfl, hgrows, hlog⟩
  | exec op k ih =>
    refine Prog.ensures_after (fun out t' => Owes ServesEnlisted t op.awaited out t') ?_ ?_
    · refine (Prog.ensures_settle _ _ _ t).mpr (Prog.ensures_mono (enlisted_owes b op t) ?_)
      exact fun out t' h => ⟨out, rfl, h⟩
    · intro out t' h
      have hstep := owes_grows h
      refine ih out (hgrows.trans hstep) ?_
      intro entry hentry
      rcases List.mem_append.mp hentry with hentry | hentry
      · exact (hlog entry hentry).grows hstep
      · cases List.mem_singleton.mp hentry
        exact owes_says h

/-- **What a caller commits.** Whatever a caller does with the enlisted operations and however it
goes on after one has raised: when it returns, its transaction has only added to the tables, and
each object that it added is addressed by its content, whatever was there before; every reference,
record and hit that an operation reported to it holds of what is committed. When it raises, nothing
is left of it. -/
theorem caller_transaction (b : Postgres.PostgresBackend) (caller : Caller D α) (s : Session) :
    (callerTransaction b caller).ensures Session.Does (fun out s' => ∃ result log,
      out = .ok (result, log) ∧ s'.saved = none ∧
      match result with
      | .ok _ => Grows D s.live s'.live ∧ ∀ entry ∈ log, Says s'.live entry.1 entry.2
      | .error _ => s'.live = s.live) s := by
  rintro _ s' rfl
  refine (Prog.ensures_settle _ _ _ _).mpr (onConnection_ensures _ _ _ ?_)
  refine Prog.ensures_mono (queries_grow b caller (.refl s.live) (by simp)) ?_
  rintro out t' ⟨result, log, rfl, hgrows, hlog⟩
  cases result with
  | ok a =>
    rintro _ s' rfl
    exact ⟨.ok a, log, rfl, rfl, hgrows, hlog⟩
  | error e =>
    rintro _ s' rfl
    exact ⟨.error e, log, rfl, rfl, rfl⟩

end DrStore.Store.Enlisted
