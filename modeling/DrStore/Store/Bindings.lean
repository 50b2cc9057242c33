import DrStore.Store.Immutability
import DrStore.Store.Sqlite

/-! # Bindings are single-assignment between evictions

Clients send store operations and backend calls in any order; each is atomic. A request binds
a key, deletes it, or leaves it: `Binds` and `Deletes` are what the backend reports, and a
report of the one finds the key unbound, of the other bound. The rest follows along runs. -/
namespace DrStore.Store.Bindings
open DrStore.Base.Collections DrStore.Base.Fallible DrStore.Base.Runs
open DrStore.Store.ContentAddressing DrStore.Store.Contract DrStore.Store.Immutability
open DrStore.Store.Memory DrStore.Store.ObjectStore DrStore.Store.Sqlite DrStore.Store.Statements

variable {D : DrSerialize}

/-! ## Requests -/

inductive Request (D : DrSerialize) where
  | op (op : Op D)
  | call (call : Call)

inductive Response (D : DrSerialize) where
  | op (out : Except StoreError (Result D))
  | call (out : Except StoreError Reply)

def respond (B : Backend) (s : B.State) : Request D → B.State × Response D
  | .op op =>
    let (s', out) := step B s ⟨op, .none⟩
    (s', .op out)
  | .call call =>
    let (s', out) := B.step s call
    (s', .call out)

def clients (D : DrSerialize) (B : Backend) : Machine B.State (Request D) (Response D) :=
  ⟨respond B⟩

/-- The backend call a request comes down to, if its own checks pass. -/
def Request.backendCall : Request D → Option Call
  | .call c => some c
  | .op o => match plan o with
    | .ok (.ask c _) => some c
    | _ => none

variable (B : Backend)

/-- The request reports `bound=True` for the key, with this reference. -/
def Binds (s : B.State) (req : Request D) (key : String) (reference : RowKey) : Prop :=
  (∃ schema contentHash, req.backendCall = some (.bind key schema contentHash) ∧
    (B.step s (.bind key schema contentHash)).2 =
      .ok (.bind ⟨true, reference.1, reference.2⟩)) ∨
  ∃ entries outcomes, req.backendCall = some (.putBoundObjects entries) ∧
    (B.step s (.putBoundObjects entries)).2 = .ok (.outcomes outcomes) ∧
    outcomes.get? key = some ⟨true, reference.1, reference.2⟩

/-- The request reports the key deleted. -/
def Deletes (s : B.State) (req : Request D) (key : String) : Prop :=
  ∃ keys deleted, req.backendCall = some (.deleteBindings keys) ∧
    (B.step s (.deleteBindings keys)).2 = .ok (.deleted deleted) ∧ key ∈ deleted

theorem respond_state (s : B.State) (req : Request D) : (respond B s req).1 = match req.backendCall with
    | some c => (B.step s c).1
    | none => s := by
  cases req with
  | call c => rfl
  | op op =>
    simp only [respond, step, Request.backendCall]
    split
    · rename_i h
      simp [h]
    · rename_i h
      simp [h]
    · rename_i h
      simp [h, ask]

/-! ## One request -/

theorem boundOutcome_eq_true {before after : Option RowKey} {reference : RowKey}
    (h : Tables.boundOutcome before after = some ⟨true, reference.1, reference.2⟩) :
    before = none ∧ after = some reference := by
  unfold Tables.boundOutcome at h
  obtain ⟨r, hr, heq⟩ := Option.map_eq_some_iff.mp h
  simp only [BindOutcome.mk.injEq] at heq
  refine ⟨Option.isNone_iff_eq_none.mp heq.1, ?_⟩
  rw [hr, Option.some.injEq]
  exact Prod.ext heq.2.1 heq.2.2

/-- A report of a binding: the key was free, and now has the reported reference. -/
theorem Binds.effect {s : B.State} {req : Request D} {key : String} {reference : RowKey}
    (h : Binds B s req key reference) : (B.tables s).bindings key = none ∧
      (B.tables (respond B s req).1).bindings key = some reference := by
  rw [respond_state]
  rcases h with ⟨schema, contentHash, hcall, hout⟩ | ⟨entries, outcomes, hcall, hout, hkey⟩
  · obtain ⟨hanswer, htables⟩ := B.serves_ok s hout
    simp only [Tables.Answers, Except.ok.injEq, Reply.bind.injEq, BindOutcome.mk.injEq] at hanswer
    obtain ⟨hnone, hs, hh⟩ := hanswer
    have hfree := Option.isNone_iff_eq_none.mp hnone.symm
    rw [hfree] at hs hh
    rw [hcall]
    simp only [htables, Tables.after, putAbsent_self, hfree, Option.getD_none]
    exact ⟨trivial, congrArg some (Prod.ext hs.symm hh.symm)⟩
  · obtain ⟨hanswer, htables⟩ := B.serves_ok s hout
    by_cases hc : (B.tables s).compatible entries = true
    · simp only [Tables.Answers, if_pos hc, Except.ok.injEq, Reply.outcomes.injEq] at hanswer
      obtain ⟨_, rfl, ho⟩ := hanswer
      rw [ho] at hkey
      split at hkey
      · rw [hcall]
        simp only [htables, Tables.after, if_pos hc]
        exact boundOutcome_eq_true hkey
      · cases hkey
    · simp only [Tables.Answers, if_neg hc] at hanswer
      obtain ⟨_, _, heq⟩ := hanswer
      cases heq

/-- A report of a deletion: the key was bound, and is free now. -/
theorem Deletes.effect {s : B.State} {req : Request D} {key : String}
    (h : Deletes B s req key) : (∃ reference, (B.tables s).bindings key = some reference) ∧
      (B.tables (respond B s req).1).bindings key = none := by
  rw [respond_state]
  obtain ⟨keys, deleted, hcall, hout, hmem⟩ := h
  obtain ⟨hanswer, htables⟩ := B.serves_ok s hout
  obtain ⟨_, heq, hdeleted⟩ := hanswer
  cases heq
  obtain ⟨hkeys, hsome⟩ := (hdeleted key).mp hmem
  refine ⟨Option.isSome_iff_exists.mp hsome, ?_⟩
  rw [hcall]
  simp only [htables, Tables.after, if_pos hkeys]

/-- Without such a report the binding stays as it is. -/
theorem binding_step (s : B.State) (req : Request D) (key : String) :
    (∃ reference, Binds B s req key reference) ∨ Deletes B s req key ∨
      (B.tables (respond B s req).1).bindings key = (B.tables s).bindings key := by
  rw [respond_state]
  cases hcall : req.backendCall with
  | none => exact .inr (.inr rfl)
  | some c =>
    have hserves := B.serves s c
    unfold Tables.Serves at hserves
    split at hserves
    · exact .inr (.inr (by rw [hserves.2]))
    obtain ⟨hanswer, htables⟩ := hserves
    simp only [htables]
    cases c with
    | putObject schema contentHash canonical => exact .inr (.inr rfl)
    | getObject schema contentHash => exact .inr (.inr rfl)
    | getBinding key' => exact .inr (.inr rfl)
    | getBoundObjects keys => exact .inr (.inr rfl)
    | bind key' schema contentHash =>
      cases hold : (B.tables s).bindings key with
      | some r => exact .inr (.inr (by simp [Tables.after, putAbsent, hold]))
      | none =>
        by_cases hk : key' = key
        · subst hk
          refine .inl ⟨(schema, contentHash), .inl ⟨schema, contentHash, hcall, ?_⟩⟩
          simp only [Tables.Answers, hold] at hanswer
          exact hanswer
        · exact .inr (.inr (by simp [Tables.after, putAbsent, hold, hk]))
    | putBoundObjects entries =>
      by_cases hc : (B.tables s).compatible entries = true
      · simp only [Tables.Answers, if_pos hc] at hanswer
        obtain ⟨outcomes, hout, ho⟩ := hanswer
        simp only [Tables.after, if_pos hc, Tables.bindingsAfter, fill_apply]
        cases hold : (B.tables s).bindings key with
        | some r => exact .inr (.inr rfl)
        | none =>
          cases hfirst : firstOf (bindingPairs entries) key with
          | none => exact .inr (.inr rfl)
          | some r =>
            refine .inl ⟨r, .inr ⟨entries, outcomes, hcall, hout, ?_⟩⟩
            have hmem : key ∈ entries.map BoundObjectWrite.key := by
              have h := firstOf_isSome.mp (Option.isSome_iff_exists.mpr ⟨r, hfirst⟩)
              rwa [bindingPairs, List.map_map] at h
            rw [ho, if_pos hmem, Tables.bindingsAfter, fill_apply, hold, hfirst]
            rfl
      · exact .inr (.inr (by simp [Tables.after, hc]))
    | deleteBindings keys =>
      obtain ⟨deleted, hout, hdeleted⟩ := hanswer
      by_cases hk : key ∈ keys
      · cases hold : (B.tables s).bindings key with
        | none => exact .inr (.inr (by simp [Tables.after, hold]))
        | some r =>
          exact .inr (.inl ⟨keys, deleted, hcall, hout, (hdeleted key).mpr ⟨hk, by simp [hold]⟩⟩)
      · exact .inr (.inr (by simp [Tables.after, hk]))

/-! ## Runs -/

/-- No request of the run reports the key deleted. -/
def Undeleted (s : B.State) (evs : List (Request D)) (key : String) : Prop :=
  ∀ pre req post, evs = pre ++ req :: post → ¬ Deletes B ((clients D B).after s pre) req key

/-- No request of the run reports the key bound. -/
def Unbound (s : B.State) (evs : List (Request D)) (key : String) : Prop :=
  ∀ pre req post, evs = pre ++ req :: post →
    ∀ reference, ¬ Binds B ((clients D B).after s pre) req key reference

theorem undeleted_tail {s : B.State} {req : Request D} {evs : List (Request D)} {key : String}
    (h : Undeleted B s (req :: evs) key) : Undeleted B (respond B s req).1 evs key :=
  fun pre d post heq => h (req :: pre) d post (by rw [heq]; rfl)

theorem unbound_tail {s : B.State} {req : Request D} {evs : List (Request D)} {key : String}
    (h : Unbound B s (req :: evs) key) : Unbound B (respond B s req).1 evs key :=
  fun pre d post heq => h (req :: pre) d post (by rw [heq]; rfl)

/-- A bound key keeps its reference until it is deleted. -/
theorem run_keeps_binding {s : B.State} {key : String} {reference : RowKey}
    (evs : List (Request D)) (hbound : (B.tables s).bindings key = some reference)
    (h : Undeleted B s evs key) :
    (B.tables ((clients D B).after s evs)).bindings key = some reference := by
  induction evs generalizing s with
  | nil => exact hbound
  | cons req evs ih =>
    refine ih ?_ (undeleted_tail B h)
    rcases binding_step B s req key with ⟨r, hb⟩ | hd | heq
    · rw [(hb.effect B).1] at hbound
      cases hbound
    · exact absurd hd (h [] req evs rfl)
    · exact heq.trans hbound

/-- A free key stays free until it is bound. -/
theorem run_keeps_free {s : B.State} {key : String} (evs : List (Request D))
    (hfree : (B.tables s).bindings key = none) (h : Unbound B s evs key) :
    (B.tables ((clients D B).after s evs)).bindings key = none := by
  induction evs generalizing s with
  | nil => exact hfree
  | cons req evs ih =>
    refine ih ?_ (unbound_tail B h)
    rcases binding_step B s req key with ⟨r, hb⟩ | hd | heq
    · exact absurd hb (h [] req evs rfl r)
    · exact (hd.effect B).2
    · exact heq.trans hfree

/-! ## What a bound key reports -/

/-- The key and the reference of a reported binding passed their checks. -/
theorem Binds.valid {s : B.State} {req : Request D} {key : String} {reference : RowKey}
    (h : Binds B s req key reference) : (∃ k, validateBindingKey key = .ok k) ∧
      ∃ r : ObjectReference, (r.schema, r.contentHash) = reference := by
  have heffect := (h.effect B).2
  rw [respond_state] at heffect
  have hfree := (h.effect B).1
  rcases h with ⟨schema, contentHash, hcall, hout⟩ | ⟨entries, outcomes, hcall, hout, _⟩
  · obtain ⟨k, hk, hv⟩ := bind_ok (B.validate_ok hout)
    obtain ⟨hs, hh⟩ := validateReference_valid hv
    rw [hcall] at heffect
    simp only [(B.serves_ok s hout).2, Tables.after, putAbsent_self, hfree, Option.getD_none,
      Option.some.injEq] at heffect
    exact ⟨⟨k, hk⟩, ⟨schema, contentHash, hs, hh⟩, heffect⟩
  · have hv : validateEntries entries = .ok () := B.validate_ok hout
    rw [hcall] at heffect
    simp only [(B.serves_ok s hout).2, Tables.after] at heffect
    split at heffect
    · -- the reference is that of the first entry for the key
      simp only [Tables.bindingsAfter, fill_apply, hfree, Option.none_or] at heffect
      obtain ⟨e, he, heq⟩ := List.mem_map.mp (firstOf_mem heffect)
      simp only [Prod.mk.injEq] at heq
      obtain ⟨hk, hs, hh⟩ := validateEntries_mem hv he
      exact ⟨heq.1 ▸ hk, ⟨e.schema, e.contentHash, hs, hh⟩, heq.2⟩
    · rw [hfree] at heffect
      cases heffect

theorem winners_get {items : List (String × BindOutcome)} (hd : (items.map Prod.fst).Nodup)
    {d w : Dict String ObjectReference} (h : winners items d = .ok w) {key : String} :
    (∀ o, (key, o) ∈ items → ∃ r, ObjectReference.make o.existingSchema o.existingContentHash =
      .ok r ∧ w.get? key = some r) ∧ (key ∉ items.map Prod.fst → w.get? key = d.get? key) := by
  induction items generalizing d with
  | nil =>
    cases pure_ok h
    exact ⟨by simp, fun _ => rfl⟩
  | cons item items ih =>
    obtain ⟨key', o'⟩ := item
    obtain ⟨r, hr, h⟩ := bind_ok h
    rw [List.map_cons, List.nodup_cons] at hd
    obtain ⟨hmem, hnot⟩ := ih hd.2 h
    refine ⟨?_, ?_⟩
    · intro o ho
      rcases List.mem_cons.mp ho with heq | ho
      · cases heq
        exact ⟨r, hr, by rw [hnot hd.1, Dict.get?_set, if_pos rfl]⟩
      · exact hmem o ho
    · intro hkey
      rw [List.map_cons, List.mem_cons, not_or] at hkey
      rw [hnot hkey.2, Dict.get?_set, if_neg hkey.1]

/-- Every report on the key is this reference. -/
structure Settled (D : DrSerialize) (B : Backend) (s : B.State) (key : String)
    (reference : ObjectReference) : Prop where
  bound : (B.tables s).bindings key = some (reference.schema, reference.contentHash)
  resolve : (respond B s (.op (.resolve key) : Request D)).2 =
    .op (.ok (.resolve (some reference)))
  bind_same : (respond B s (.op (.bind key reference) : Request D)).2 =
    .op (.ok (.bind .idempotent))
  bind_other : ∀ other, other ≠ reference →
    (respond B s (.op (.bind key other) : Request D)).2 =
        .op (.error (.bindingConflict key reference other)) ∧
      B.tables (respond B s (.op (.bind key other) : Request D)).1 = B.tables s
  put_many : ∀ (entries : Dict String (String × D.Jsonable)) winners,
    (respond B s (.op (.putMany entries))).2 = .op (.ok (.putMany winners)) →
    key ∈ entries.keys → winners.get? key = some reference
  backend_get : (respond B s (.call (.getBinding key) : Request D)).2 =
    .call (.ok (.binding (some (reference.schema, reference.contentHash))))
  backend_bind : ∀ schema contentHash outcome,
    (respond B s (.call (.bind key schema contentHash) : Request D)).2 =
      .call (.ok (.bind outcome)) →
    outcome = ⟨false, reference.schema, reference.contentHash⟩
  backend_put : ∀ entries outcomes,
    (respond B s (.call (.putBoundObjects entries) : Request D)).2 =
      .call (.ok (.outcomes outcomes)) →
    key ∈ entries.map BoundObjectWrite.key →
    outcomes.get? key = some ⟨false, reference.schema, reference.contentHash⟩

/-- A store operation in terms of its backend call. -/
theorem respond_op {s : B.State} {op : Op D} {c : Call}
    {finish : Reply → Except StoreError (Result D)} (hplan : plan op = .ok (.ask c finish)) :
    (respond B s (.op op)).2 = .op ((B.step s c).2.bind finish) ∧
      (respond B s (.op op)).1 = (B.step s c).1 := by
  simp only [respond, step, hplan, ask, and_self]

theorem resolve_reports {s : B.State} {key k : String} (hk : validateBindingKey key = .ok k) :
    (respond B s (.op (.resolve key) : Request D)).2 = .op (match (B.tables s).bindings key with
      | none => .ok (.resolve none)
      | some bound => do return .resolve (some (← ObjectReference.make bound.1 bound.2))) := by
  have hv : (Call.getBinding key).validate = .ok () := by
    rw [Call.validate, validateKeys, hk]
    rfl
  have hout := (B.serves_valid s hv).1
  have hplan : ∃ finish, plan (.resolve key : Op D) = .ok (.ask (.getBinding key) finish) ∧
      ∀ bound, finish (.binding bound) = match bound with
        | none => .ok (.resolve none)
        | some bound => do return .resolve (some (← ObjectReference.make bound.1 bound.2)) := by
    rw [plan, ObjectStore.resolve, hk]
    refine ⟨_, rfl, ?_⟩
    intro bound
    cases bound <;> rfl
  obtain ⟨finish, hplan, hfinish⟩ := hplan
  rw [(respond_op B hplan).1, hout]
  exact congrArg Response.op (hfinish _)

theorem resolve_free {s : B.State} {key k : String} (hk : validateBindingKey key = .ok k)
    (hfree : (B.tables s).bindings key = none) :
    (respond B s (.op (.resolve key) : Request D)).2 = .op (.ok (.resolve none)) := by
  rw [resolve_reports B hk, hfree]

section Bound

variable {B} {s : B.State} {key k : String} {reference : ObjectReference}
  (hk : validateBindingKey key = .ok k)
  (hbound : (B.tables s).bindings key = some (reference.schema, reference.contentHash))

include hbound

theorem bind_reports {schema contentHash : String} {reply : Reply}
    (h : (B.step s (.bind key schema contentHash)).2 = .ok reply) :
    reply = .bind ⟨false, reference.schema, reference.contentHash⟩ := by
  have hanswer := (B.serves_ok s h).1
  simp only [Tables.Answers, hbound, Except.ok.injEq] at hanswer
  exact hanswer

theorem batch_reports {entries : List BoundObjectWrite} {outcomes : Dict String BindOutcome}
    (h : (B.step s (.putBoundObjects entries)).2 = .ok (.outcomes outcomes))
    (hmem : key ∈ entries.map BoundObjectWrite.key) :
    outcomes.get? key = some ⟨false, reference.schema, reference.contentHash⟩ := by
  have hanswer := (B.serves_ok s h).1
  by_cases hc : (B.tables s).compatible entries = true
  · simp only [Tables.Answers, if_pos hc, Except.ok.injEq, Reply.outcomes.injEq] at hanswer
    obtain ⟨_, rfl, ho⟩ := hanswer
    rw [ho, if_pos hmem, Tables.bindingsAfter, fill_apply, hbound]
    rfl
  · simp only [Tables.Answers, if_neg hc] at hanswer
    obtain ⟨_, _, heq⟩ := hanswer
    cases heq

theorem putMany_reports {entries : Dict String (String × D.Jsonable)}
    {winners : Dict String ObjectReference}
    (h : (respond B s (.op (.putMany entries))).2 = .op (.ok (.putMany winners)))
    (hmem : key ∈ entries.keys) : winners.get? key = some reference := by
  simp only [respond, Response.op.injEq] at h
  rcases step_ok B h with hplan | ⟨c, finish, reply, hplan, hreply, hfin, _⟩
  · obtain ⟨_, _, heq⟩ := putMany_ok hplan
    cases heq
  · obtain ⟨writes, hw, heq⟩ := putMany_ok hplan
    cases heq
    cases reply with
    | outcomes outcomes =>
      obtain ⟨w, hwin, heq⟩ := bind_ok hfin
      cases pure_ok heq
      obtain ⟨entry, hentry, rfl⟩ := List.mem_map.mp hmem
      have hkeys : entry.1 ∈ writes.map BoundObjectWrite.key := by
        rw [prepareWrites_keys hw]
        exact List.mem_map_of_mem hentry
      have hout := batch_reports hbound hreply hkeys
      obtain ⟨r, hr, hget⟩ := (winners_get outcomes.nodup hwin).1 _ (Dict.get?_eq_some.mp hout)
      rw [ObjectReference.make_self] at hr
      cases hr
      exact hget
    | put _ => cases hfin
    | object _ => cases hfin
    | bind _ => cases hfin
    | binding _ => cases hfin
    | rows _ => cases hfin
    | deleted _ => cases hfin

include hk

theorem storeBind_reports (requested : ObjectReference) :
    (respond B s (.op (.bind key requested) : Request D)).2 =
        .op (if reference = requested then .ok (.bind .idempotent)
          else .error (.bindingConflict key reference requested)) ∧
      B.tables (respond B s (.op (.bind key requested) : Request D)).1 = B.tables s := by
  have hv : (Call.bind key requested.schema requested.contentHash).validate = .ok () := by
    simp only [Call.validate, hk, ok_bind]
    exact validateReference_ok requested.schema_valid requested.hash_valid
  obtain ⟨hout, htables⟩ := B.serves_valid s hv
  simp only [Tables.Answers, hbound] at hout
  have hplan : ∃ finish, plan (.bind key requested : Op D) =
      .ok (.ask (.bind key requested.schema requested.contentHash) finish) ∧
      finish (.bind ⟨false, reference.schema, reference.contentHash⟩) =
        if reference = requested then .ok (.bind .idempotent)
        else .error (.bindingConflict key reference requested) := by
    rw [plan, ObjectStore.bind, hk]
    refine ⟨_, rfl, ?_⟩
    simp only [ObjectReference.make_self, ok_bind, Bool.false_eq_true, if_false]
    rfl
  obtain ⟨finish, hplan, hfinish⟩ := hplan
  rw [(respond_op B hplan).1, (respond_op B hplan).2, htables, hout]
  refine ⟨congrArg Response.op hfinish, ?_⟩
  simp only [Tables.after, putAbsent_present hbound]

theorem settled_of_bound : Settled D B s key reference := by
  refine ⟨hbound, ?_, ?_, ?_, ?_, ?_, ?_, ?_⟩
  · rw [resolve_reports B hk, hbound]
    simp only [ObjectReference.make_self]
    rfl
  · rw [(storeBind_reports hk hbound reference).1, if_pos rfl]
  · intro other hne
    obtain ⟨h, htables⟩ := @storeBind_reports D B s key k reference hk hbound other
    rw [if_neg (Ne.symm hne)] at h
    exact ⟨h, htables⟩
  · intro entries winners h hmem
    exact putMany_reports hbound h hmem
  · have hv : (Call.getBinding key).validate = .ok () := by
      rw [Call.validate, validateKeys, hk]
      rfl
    have hout := (B.serves_valid s hv).1
    simp only [Tables.Answers, hbound] at hout
    exact congrArg Response.call hout
  · intro schema contentHash outcome h
    cases bind_reports hbound (Response.call.inj h)
    rfl
  · intro entries outcomes h hmem
    exact batch_reports hbound (Response.call.inj h) hmem

end Bound

/-! ## The result -/

theorem firstOf_entry {pre post : List BoundObjectWrite} {e : BoundObjectWrite}
    (hpre : ∀ e' ∈ pre, e'.key ≠ e.key) :
    firstOf (bindingPairs (pre ++ e :: post)) e.key = some e.reference := by
  induction pre with
  | nil => simp [bindingPairs]
  | cons e' pre ih =>
    have h := ih fun x hx => hpre x (List.mem_cons_of_mem _ hx)
    simpa [bindingPairs, hpre e' List.mem_cons_self] using h

/-- What holds of every key, from any state, along any order of requests. -/
structure SingleAssignment (D : DrSerialize) (B : Backend) : Prop where
  /-- between two reports of `bound=True` the key was deleted -/
  once : ∀ (s : B.State) (req req' : Request D) mid key reference reference',
    Binds B s req key reference →
    Binds B ((clients D B).after s (req :: mid)) req' key reference' →
    ∃ pre del post, mid = pre ++ del :: post ∧
      Deletes B ((clients D B).after s (req :: pre)) del key
  /-- from such a report to the deletion every report on the key is its reference -/
  settled : ∀ (s : B.State) (req : Request D) mid key reference, Binds B s req key reference →
    Undeleted B (respond B s req).1 mid key →
    ∃ r : ObjectReference, (r.schema, r.contentHash) = reference ∧
      Settled D B ((clients D B).after s (req :: mid)) key r
  /-- before it a free key resolves to nothing -/
  free : ∀ (s : B.State) (mid : List (Request D)) key, (B.tables s).bindings key = none →
    (∃ k, validateBindingKey key = .ok k) → Unbound B s mid key →
    (respond B ((clients D B).after s mid) (.op (.resolve key) : Request D)).2 =
      .op (.ok (.resolve none))
  /-- and a deletion makes the key free -/
  deleted : ∀ (s : B.State) (del : Request D) mid key, Deletes B s del key →
    Unbound B (respond B s del).1 mid key →
    (respond B ((clients D B).after s (del :: mid)) (.op (.resolve key) : Request D)).2 =
      .op (.ok (.resolve none))
  /-- a batch binds a free key to its first entry for it -/
  first_entry : ∀ (s : B.State) pre e post outcomes, (∀ e' ∈ pre, e'.key ≠ e.key) →
    (B.tables s).bindings e.key = none →
    (respond B s (.call (.putBoundObjects (pre ++ e :: post)) : Request D)).2 =
      .call (.ok (.outcomes outcomes)) →
    Binds B s (.call (.putBoundObjects (pre ++ e :: post)) : Request D) e.key e.reference
  /-- a deletion touches no object and no other key -/
  frame : ∀ (s : B.State) (del : Request D) keys, del.backendCall = some (.deleteBindings keys) →
    (B.tables (respond B s del).1).objects = (B.tables s).objects ∧
      ∀ key ∉ keys, (B.tables (respond B s del).1).bindings key = (B.tables s).bindings key

theorem singleAssignment (D : DrSerialize) (B : Backend) : SingleAssignment D B := by
  refine ⟨?_, ?_, ?_, ?_, ?_, ?_⟩
  · intro s req req' mid key reference reference' hb hb'
    by_contra hnone
    have hkept := run_keeps_binding B mid (hb.effect B).2 (by
      intro pre del post heq hd
      exact hnone ⟨pre, del, post, heq, hd⟩)
    have hfree := (hb'.effect B).1
    rw [Machine.after_cons] at hfree
    exact absurd (hkept.symm.trans hfree) (by simp)
  · intro s req mid key reference hb hmid
    obtain ⟨⟨k, hk⟩, r, rfl⟩ := hb.valid B
    exact ⟨r, rfl, settled_of_bound hk (run_keeps_binding B mid (hb.effect B).2 hmid)⟩
  · intro s mid key hfree hkey hmid
    obtain ⟨k, hk⟩ := hkey
    exact resolve_free B hk (run_keeps_free B mid hfree hmid)
  · intro s del mid key hd hmid
    have hkey : ∃ k, validateBindingKey key = .ok k := by
      obtain ⟨keys, deleted, _, hout, hmem⟩ := hd
      obtain ⟨_, heq, hdeleted⟩ := (B.serves_ok s hout).1
      cases heq
      exact validateKeys_mem (B.validate_ok hout) ((hdeleted key).mp hmem).1
    obtain ⟨k, hk⟩ := hkey
    exact resolve_free B hk (run_keeps_free B mid (hd.effect B).2 hmid)
  · intro s pre e post outcomes hpre hfree h
    have hout := Response.call.inj h
    refine .inr ⟨_, outcomes, rfl, hout, ?_⟩
    have hanswer := (B.serves_ok s hout).1
    simp only [Tables.Answers] at hanswer
    split at hanswer
    · obtain ⟨_, heq, ho⟩ := hanswer
      cases heq
      rw [ho, if_pos (by simp), Tables.bindingsAfter, fill_apply, hfree, firstOf_entry hpre]
      rfl
    · obtain ⟨_, _, heq⟩ := hanswer
      cases heq
  · intro s del keys hcall
    rw [respond_state, hcall]
    rcases B.tables_step s (.deleteBindings keys) with h | h
    · rw [h]
      exact ⟨rfl, fun _ _ => rfl⟩
    · rw [h]
      refine ⟨rfl, ?_⟩
      intro key hkey
      simp only [Tables.after, if_neg hkey]

/-- **Bindings are single-assignment between evictions**, over the in-memory backend and over
the SQLite backend on any engine. -/
theorem bindings_single_assignment (D : DrSerialize) :
    SingleAssignment D MemoryBackend.backend ∧
      ∀ E : Engine, SingleAssignment D (SqliteBackend.backend E) :=
  ⟨singleAssignment D _, fun E => singleAssignment D (SqliteBackend.backend E)⟩

end DrStore.Store.Bindings
