import DrStore.Store.Eviction

/-! # Concurrent PostgreSQL writers agree on the first

The calls of `Eviction`, for a key that none of them evicts: whatever binding a call reports, to
its writer or to a reader, is the committed one from then on, and at most one call reports that
it made it. The record beside a run is the call that committed the key. -/
namespace DrStore.Store.Winners
open DrStore.Base.Collections DrStore.Base.Pool DrStore.Base.Programs DrStore.Base.Versions
open DrStore.Base.Versions.Version DrStore.Store.ContentAddressing DrStore.Store.Contract
open DrStore.Store.Postgres DrStore.Store.Statements DrStore.Store.ReadCommitted
open DrStore.Store.Eviction

variable {T : Type} [DecidableEq T]

/-! ## One key -/

/-- What a call offers to bind a key to: its first entry for the key. -/
def offers (key : String) : Call → Option RowKey
  | .bind key' schema contentHash => if key' = key then some (schema, contentHash) else none
  | .putBoundObjects entries => firstOf (bindingPairs entries) key
  | _ => none

/-- What a call that returned says of a key: its binding, and whether the call made it. -/
def reported (key : String) : Call → Except StoreError Reply → Option (RowKey × Bool)
  | .bind key' _ _, .ok (.bind o) =>
    if key' = key then some ((o.existingSchema, o.existingContentHash), o.bound) else none
  | .getBinding key', .ok (.binding reference) =>
    if key' = key then reference.map (·, false) else none
  | .putBoundObjects _, .ok (.outcomes outcomes) => (outcomes.get? key).map fun o =>
    ((o.existingSchema, o.existingContentHash), o.bound)
  | .getBoundObjects _, .ok (.rows rows) => (rows.get? key).map fun row =>
    ((row.bindingSchema, row.bindingContentHash), false)
  | _, _ => none

/-- What a query inserts at the key when it is absent. -/
def inserts (key : String) : Query → Option RowKey
  | .insertBinding key' reference => if key' = key then some reference else none
  | .insertBindings rows => firstOf rows key
  | _ => none

def Spares (key : String) : Query → Prop
  | .deleteBindings keys => key ∉ keys
  | _ => True

/-- A query that spares the key inserts it or leaves it. -/
theorem does_key {key : String} {q : Query} {t v : Tables} {r : QueryReply q} (h : q.Does t r v)
    (hq : Spares key q) : v.bindings key = (t.bindings key).or (inserts key q) := by
  cases q with
  | insertBinding key' reference =>
    obtain ⟨_, rfl⟩ := h
    exact (fill_apply t.bindings [(key', reference)] key).trans (by
      simp only [firstOf_cons, firstOf_nil, inserts])
  | insertBindings rows =>
    obtain ⟨_, rfl⟩ := h
    exact fill_apply t.bindings rows key
  | deleteBindings keys =>
    obtain ⟨_, rfl⟩ := h
    simp only [inserts, Option.or_none]
    exact if_neg hq
  | insertObject _ _ => obtain ⟨_, rfl⟩ := h; simp [inserts]
  | insertObjects _ => cases h; simp [inserts]
  | selectObject _ => obtain ⟨_, rfl⟩ := h; simp [inserts]
  | selectByHash _ _ => obtain ⟨rfl, _⟩ := h; simp [inserts]
  | selectObjects _ => obtain ⟨rfl, _⟩ := h; simp [inserts]
  | selectBinding _ => obtain ⟨_, rfl⟩ := h; simp [inserts]
  | selectBindings _ => obtain ⟨rfl, _⟩ := h; simp [inserts]
  | selectBound _ => obtain ⟨rfl, _⟩ := h; simp [inserts]

/-! ## Watched calls -/

abbrev Watched (T : Type) := Shared T × Option T

/-- The call that committed the key. -/
def winner (key : String) (t : T) (s : Shared T) : Stmt → Option T → Option T
  | .commit, w => match (s.bindings key).pending with
    | some (u, _) => if u = t then some t else w
    | none => w
  | _, w => w

abbrev watched (key : String) : System T (Watched T) Stmt StmtReply :=
  readCommitted.watch (winner key)

variable {key : String} {calls : T → Call} {initial : Option RowKey}

structure Sound (key : String) (calls : T → Call) (initial : Option RowKey)
    (s : Watched T) : Prop where
  inserting : Inserting (s.1.bindings key)
  pending : ∀ u x, (s.1.bindings key).pending = some (u, some x) → offers key (calls u) = some x
  committed : ∀ x, (s.1.bindings key).committed = some x →
    initial = some x ∨ ∃ u, offers key (calls u) = some x
  won : ∀ u, s.2 = some u → initial = none ∧
    ∃ x, (s.1.bindings key).committed = some x ∧ offers key (calls u) = some x
  kept : ∀ x, initial = some x → (s.1.bindings key).committed = some x

structure Keeps (key : String) (u : T) (s s' : Watched T) : Prop where
  row : Kept u (s.1.bindings key) (s'.1.bindings key)
  won : ∀ v, s.2 = some v → s'.2 = some v

def rules (key : String) (calls : T → Call) (initial : Option RowKey) : Rules T (Watched T) :=
  ⟨Sound key calls initial, Keeps key⟩

/-- A step that neither commits the key nor changes its row otherwise than by an offer of `t`. -/
theorem sound_row {s : Watched T} (s' : Shared T) {t : T} (hinv : Sound key calls initial s)
    (hrow : Inserting (s'.bindings key) ∧ Kept t (s.1.bindings key) (s'.bindings key))
    (hcommitted : (s'.bindings key).committed = (s.1.bindings key).committed)
    (hpending : ∀ x, (s'.bindings key).pending = some (t, some x) →
      offers key (calls t) = some x) :
    Sound key calls initial (s', s.2) ∧ Keeps key t s (s', s.2) := by
  refine ⟨⟨hrow.1, ?_, ?_, ?_, ?_⟩, hrow.2, fun _ h => h⟩
  · intro u x hp
    by_cases hu : u = t
    · subst hu
      exact hpending x hp
    · exact hinv.pending u x ((hrow.2.pending u (some x) hu).mp hp)
  · intro x hx
    rw [hcommitted] at hx
    exact hinv.committed x hx
  · intro u hu
    rw [hcommitted]
    exact hinv.won u hu
  · intro x hx
    rw [hcommitted]
    exact hinv.kept x hx

theorem begin_keeps {s s' : Watched T} {t : T} {r : StmtReply .begin}
    (hinv : Sound key calls initial s) (h : (watched key).step t s .begin r s') :
    Sound key calls initial s' ∧ Keeps key t s s' ∧ s'.1.bindings = s.1.bindings := by
  obtain ⟨s', w⟩ := s'
  obtain ⟨hs, hw⟩ := h
  obtain rfl : s' = _ := hs
  obtain rfl : w = s.2 := hw
  obtain ⟨hinv', hkeeps⟩ := sound_row { s.1 with
    awaited := Function.update s.1.awaited t [] } hinv ⟨hinv.inserting, .refl t _⟩ rfl
    (hinv.pending t)
  exact ⟨hinv', hkeeps, rfl⟩

theorem query_keeps {s s' : Watched T} {t : T} {q : Query} {r : QueryReply q}
    (hinv : Sound key calls initial s) (hq : Spares key q)
    (hoffers : ∀ x, inserts key q = some x → offers key (calls t) = some x)
    (h : (watched key).step t s (.query q) r s') :
    Sound key calls initial s' ∧ Keeps key t s s' ∧ ∃ v, q.Does (s.1.seen t) r v ∧
      s' = (s.1.change t q v, s.2) := by
  obtain ⟨s', w⟩ := s'
  obtain ⟨⟨hclear, v, hdoes, rfl⟩, hw⟩ := h
  obtain rfl : w = s.2 := hw
  have hkey : v.bindings key = ((s.1.bindings key).view t).or (inserts key q) := does_key hdoes hq
  have hrow := write_kept (x := v.bindings key) hinv.inserting (clear_bindings hclear hdoes) (by
    intro hne
    cases hview : (s.1.bindings key).view t with
    | none =>
      rw [hkey, hview, Option.none_or] at hne ⊢
      exact ⟨rfl, Option.isSome_iff_ne_none.mpr (Ne.symm hne)⟩
    | some x =>
      rw [hkey, hview] at hne
      exact absurd rfl hne)
  obtain ⟨hinv', hkeeps⟩ := sound_row (s.1.change t q v) hinv hrow
    (committed_write t _ _) (by
    intro x hp
    rcases pending_write hp with ⟨_, hp⟩ | ⟨hne, _, hx⟩
    · exact hinv.pending t x hp
    · refine hoffers x ?_
      rw [hkey] at hx
      cases hview : (s.1.bindings key).view t with
      | none =>
        rw [hview, Option.none_or] at hx
        exact hx.symm
      | some y =>
        rw [hkey, hview] at hne
        exact absurd rfl hne)
  exact ⟨hinv', hkeeps, v, hdoes, rfl⟩

theorem rollback_keeps {s : Watched T} {t : T} (hinv : Sound key calls initial s) :
    Sound key calls initial (s.1.rollback t, s.2) ∧ Keeps key t s (s.1.rollback t, s.2) := by
  refine sound_row _ hinv (rollback_kept hinv.inserting) (committed_rollback t _) ?_
  intro x hp
  exact absurd rfl (pending_rollback hp).1

theorem commit_keeps {s s' : Watched T} {t : T} {r : StmtReply .commit}
    (hinv : Sound key calls initial s) (h : (watched key).step t s .commit r s') :
    Sound key calls initial s' ∧ Keeps key t s s' ∧
      ∀ x own, Offered t x own (s.1.bindings key) →
        (s'.1.bindings key).committed = some x ∧ (own = true → s'.2 = some t) := by
  obtain ⟨s', w⟩ := s'
  obtain ⟨hs, hw⟩ := h
  obtain rfl : s' = s.1.commit t := hs
  have hw : w = winner key t s.1 .commit s.2 := hw
  obtain ⟨hins, hkept⟩ := commit_kept (t := t) hinv.inserting
  by_cases hown : ∃ x, (s.1.bindings key).pending = some (t, x)
  · obtain ⟨y, hp⟩ := hown
    obtain ⟨hsome, hnone⟩ := hinv.inserting t y hp
    obtain ⟨x, rfl⟩ := Option.isSome_iff_exists.mp hsome
    have hwon : w = some t := by
      rw [hw]
      simp [winner, hp]
    have hrow : (s.1.commit t).bindings key = ⟨some x, none⟩ := by
      simp [Shared.commit, Version.commit, hp]
    refine ⟨⟨hins, ?_, ?_, ?_, ?_⟩, ⟨hkept, ?_⟩, ?_⟩
    · intro u z hz
      rw [hrow] at hz
      cases hz
    · intro z hz
      rw [hrow] at hz
      cases hz
      exact .inr ⟨t, hinv.pending t x hp⟩
    · intro u hu
      rw [hwon] at hu
      cases hu
      refine ⟨?_, x, by rw [hrow], hinv.pending t x hp⟩
      cases hinit : initial with
      | none => rfl
      | some z =>
        rw [hinv.kept z hinit] at hnone
        cases hnone
    · intro z hz
      rw [hinv.kept z hz] at hnone
      cases hnone
    · intro v hv
      obtain ⟨_, y, hy, _⟩ := hinv.won v hv
      rw [hnone] at hy
      cases hy
    · intro z own hz
      refine ⟨?_, fun _ => hwon⟩
      cases own with
      | true =>
        have hz : (s.1.bindings key).pending = some (t, some z) := hz
        rw [hp] at hz
        cases hz
        exact congrArg Version.committed hrow
      | false =>
        have hz : (s.1.bindings key).committed = some z := hz
        rw [hnone] at hz
        cases hz
  · have hidle : ∀ x, (s.1.bindings key).pending ≠ some (t, x) := fun x hx => hown ⟨x, hx⟩
    have hwon : w = s.2 := by
      rw [hw]
      simp only [winner]
      split
      · rename_i u x hp
        rw [if_neg]
        intro hu
        exact hidle x (hu ▸ hp)
      · rfl
    subst hwon
    have hcommitted : ((s.1.commit t).bindings key).committed = (s.1.bindings key).committed := by
      rcases committed_commit t (s.1.bindings key) with ⟨x, hx, _⟩ | ⟨_, hc⟩
      · exact absurd hx (hidle x)
      · exact hc
    obtain ⟨hinv', hkeeps⟩ := sound_row (s.1.commit t) hinv ⟨hins, hkept⟩ hcommitted (by
      intro x hx
      exact absurd rfl (pending_commit hx).1)
    refine ⟨hinv', hkeeps, ?_⟩
    intro x own hx
    cases own with
    | true => exact absurd hx (hidle (some x))
    | false => exact ⟨hcommitted.trans hx, fun h => by cases h⟩

/-! ## What a call knows of the key -/

/-- `t` has offered the key, and then `own` says whether it inserted it; or it has not yet. -/
def Begun (t : T) (key : String) (own : Bool) (s : Watched T) : Prop :=
  (own = false ∧ Idle t (s.1.bindings key)) ∨ ∃ x, Offered t x own (s.1.bindings key)

/-- What was read of the key is what `t` would find now. -/
def Told (t : T) (key : String) (own : Bool) (read : Option RowKey) (s : Watched T) : Prop :=
  ∀ x, read = some x → Offered t x own (s.1.bindings key)

/-- What the call says of the key holds once it has committed. -/
def Final (t : T) (key : String) (call : Call) (out : Except StoreError Reply)
    (s : Watched T) : Prop :=
  ∀ x own, reported key call out = some (x, own) →
    (s.1.bindings key).committed = some x ∧ (own = true → s.2 = some t)

variable {t : T} {own : Bool}

omit [DecidableEq T] in
theorem begun_stable : Stable (rules key calls initial) t (Begun t key own) := by
  intro s s' ho h
  obtain ⟨_, _, u, hu, hkeeps⟩ := ho
  rcases h with ⟨hown, hidle⟩ | ⟨x, hx⟩
  · exact .inl ⟨hown, hkeeps.row.idle hu hidle⟩
  · exact .inr ⟨x, hkeeps.row.offered hu hx⟩

omit [DecidableEq T] in
theorem told_stable {read : Option RowKey} :
    Stable (rules key calls initial) t (Told t key own read) := by
  intro s s' ho h x hx
  obtain ⟨_, _, u, hu, hkeeps⟩ := ho
  exact hkeeps.row.offered hu (h x hx)

omit [DecidableEq T] in
theorem final_stable {call : Call} {out : Except StoreError Reply} :
    Stable (rules key calls initial) t (Final t key call out) := by
  intro s s' ho h x own hx
  obtain ⟨_, _, u, _, hkeeps⟩ := ho
  obtain ⟨hcommitted, hown⟩ := h x own hx
  exact ⟨hkeeps.row.committed x hcommitted, fun h => hkeeps.won t (hown h)⟩

/-- `t` reads back what it would find. -/
theorem Begun.told {s : Watched T} (hinv : Sound key calls initial s) (h : Begun t key own s)
    {x : RowKey} (hx : (s.1.bindings key).view t = some x) : Offered t x own (s.1.bindings key) := by
  rcases h with ⟨rfl, hidle⟩ | ⟨y, hy⟩
  · rw [view_of_idle hidle] at hx
    exact hx
  · rw [hy.view hinv.inserting] at hx
    cases hx
    exact hy

/-- A query changes nothing of what `t` has offered already. -/
theorem offered_change {s : Watched T} {q : Query} {r : QueryReply q} {v : Tables}
    (hinv : Sound key calls initial s) (hq : Spares key q) (hdoes : q.Does (s.1.seen t) r v)
    {x : RowKey} (hx : Offered t x own (s.1.bindings key)) :
    Offered t x own ((s.1.change t q v).bindings key) := by
  have hsame : v.bindings key = (s.1.bindings key).view t := by
    rw [does_key hdoes hq]
    show ((s.1.bindings key).view t).or _ = _
    rw [hx.view hinv.inserting]
    rfl
  simp only [Shared.change, hsame, Version.write, if_true]
  exact hx

theorem told_change {s : Watched T} {q : Query} {r : QueryReply q} {v : Tables}
    (hinv : Sound key calls initial s) (hq : Spares key q) (hdoes : q.Does (s.1.seen t) r v)
    {read : Option RowKey} (h : Told t key own read s) :
    Told t key own read (s.1.change t q v, s.2) :=
  fun x hx => offered_change hinv hq hdoes (h x hx)

/-- After a query, `own` includes what it inserted. -/
theorem begun_change {s : Watched T} {q : Query} {r : QueryReply q} {v : Tables}
    (hinv : Sound key calls initial s) (hq : Spares key q) (hdoes : q.Does (s.1.seen t) r v)
    (h : Begun t key own s) :
    Begun t key (own || ((s.1.bindings key).view t).isNone && (inserts key q).isSome)
      (s.1.change t q v, s.2) := by
  rcases h with ⟨rfl, hidle⟩ | ⟨x, hx⟩
  · have hkey : v.bindings key = ((s.1.bindings key).view t).or (inserts key q) := does_key hdoes hq
    cases hview : (s.1.bindings key).view t with
    | some x =>
      refine .inr ⟨x, ?_⟩
      rw [view_of_idle hidle] at hview
      exact offered_change hinv hq hdoes hview
    | none =>
      rw [hview, Option.none_or] at hkey
      cases hins : inserts key q with
      | none =>
        refine .inl ⟨rfl, ?_⟩
        rw [hins] at hkey
        simp only [Shared.change, hkey, Version.write, hview, if_true]
        exact hidle
      | some x =>
        refine .inr ⟨x, ?_⟩
        rw [hins] at hkey
        show (Version.pending _) = _
        simp [Shared.change, hkey, Version.write, hview]
  · refine .inr ⟨x, ?_⟩
    have hsome : (s.1.bindings key).view t = some x := hx.view hinv.inserting
    rw [hsome]
    simp only [Option.isNone_some, Bool.false_and, Bool.or_false]
    exact offered_change hinv hq hdoes hx

/-! ## Rules for programs -/

variable {α β : Type}

abbrev Wp (key : String) (calls : T → Call) (initial : Option RowKey) (t : T)
    (p : Prog Stmt StmtReply StoreError α) (Q : Except StoreError α → Watched T → Prop)
    (s : Watched T) : Prop :=
  wp (watched key) (rules key calls initial) t p Q s

/-- A query that spares the key and inserts at it only what the call offers. -/
def Allowed (key : String) (call : Call) (q : Query) : Prop :=
  Spares key q ∧ ∀ x, inserts key q = some x → offers key call = some x

/-- What a call knows of the key at a point: what it has inserted, and what it has read. -/
def Knows (t : T) (key : String) (own : Bool) (read : Option RowKey) (s : Watched T) : Prop :=
  Begun t key own s ∧ Told t key own read s

omit [DecidableEq T] in
theorem knows_stable {read : Option RowKey} :
    Stable (rules key calls initial) t (Knows t key own read) :=
  begun_stable.and told_stable

variable {s : Watched T} {read : Option RowKey}

/-- One step of a call. -/
theorem wp_step {q : Query} {k : QueryReply q → Prog Stmt StmtReply StoreError α}
    {Q : Except StoreError α → Watched T → Prop} (hq : Allowed key (calls t) q)
    (hs : Knows t key own read s)
    (h : ∀ s r v, Sound key calls initial s → Knows t key own read s → q.Does (s.1.seen t) r v →
      Sound key calls initial (s.1.change t q v, s.2) →
      Wp key calls initial t (k r) Q (s.1.change t q v, s.2)) :
    Wp key calls initial t (.exec (.query q) k) Q s := by
  refine wp_exec knows_stable hs ?_
  intro s r s' hinv hknows hstep
  obtain ⟨hinv', hkeeps, v, hdoes, rfl⟩ := query_keeps hinv hq.1 hq.2 hstep
  exact ⟨hinv', hkeeps, h s r v hinv hknows hdoes hinv'⟩

theorem wp_query {q : Query} {f : QueryReply q → Program α}
    {Q : Except StoreError α → Watched T → Prop} (hrow : byRow q = query q)
    (hq : Allowed key (calls t) q) (hs : Knows t key own read s)
    (h : ∀ s r v, Sound key calls initial s → Knows t key own read s → q.Does (s.1.seen t) r v →
      Sound key calls initial (s.1.change t q v, s.2) →
      Wp key calls initial t (rowByRow (f r)) Q (s.1.change t q v, s.2)) :
    Wp key calls initial t (rowByRow (query q >>= f)) Q s := by
  rw [rowByRow_query hrow]
  exact wp_step hq hs h

/-- One part of a body, then the rest. -/
theorem wp_then {p : Program α} {f : α → Program β} {Q : Except StoreError β → Watched T → Prop}
    (P : Except StoreError α → Watched T → Prop) (hinv : Sound key calls initial s)
    (hp : Wp key calls initial t (rowByRow p) P s)
    (hok : ∀ a s', Sound key calls initial s' → P (.ok a) s' →
      Wp key calls initial t (rowByRow (f a)) Q s')
    (herror : ∀ e s', P (.error e) s' → ∀ s, Q (.error e) s) :
    Wp key calls initial t (rowByRow (p >>= f)) Q s := by
  rw [rowByRow_bind]
  refine wp_bind hinv (wp_mono ?_ hp)
  intro out s' hinv' h
  cases out with
  | ok a => exact hok a s' hinv' h
  | error e => exact fun s'' _ _ => herror e s' h s''

/-- A query that does not offer the key. -/
def Aside (key : String) (q : Query) : Prop := Spares key q ∧ inserts key q = none

theorem Aside.allowed {q : Query} {call : Call} (h : Aside key q) : Allowed key call q :=
  ⟨h.1, fun x hx => by rw [h.2] at hx; cases hx⟩

theorem knows_aside {q : Query} {r : QueryReply q} {v : Tables} (hinv : Sound key calls initial s)
    (hq : Aside key q) (hdoes : q.Does (s.1.seen t) r v) (h : Knows t key own read s) :
    Knows t key own read (s.1.change t q v, s.2) := by
  refine ⟨?_, told_change hinv hq.1 hdoes h.2⟩
  have hbegun := begun_change hinv hq.1 hdoes h.1
  simpa only [hq.2, Option.isSome_none, Bool.and_false, Bool.or_false] using hbegun

/-- A part of a body that does not offer the key. -/
abbrev Avoids (key : String) (p : Program α) : Prop :=
  p.follows (Aside key) (fun _ _ => True) fun _ => True

theorem avoids_translate {p : Program α} (hp : Avoids key p) : Avoids key (p.translate byRow) := by
  have hbyRow : ∀ q, Aside key q → Avoids key (byRow q) := by
    intro q hq
    cases q with
    | insertObjects rows =>
      show Avoids key (insertObjectRows rows)
      clear hq
      induction rows with
      | nil => trivial
      | cons row rest ih => exact ⟨⟨trivial, rfl⟩, fun _ _ => ih⟩
    | insertBindings rows =>
      have habsent : key ∉ rows.map Prod.fst := by
        rw [← firstOf_isSome, show firstOf rows key = none from hq.2]
        simp
      have hrows : ∀ found, Avoids key (insertBindingRows rows found) := by
        clear hq
        induction rows with
        | nil => exact fun _ => trivial
        | cons row rest ih =>
          rw [List.map_cons, List.mem_cons, not_or] at habsent
          exact fun found => ⟨⟨trivial, if_neg (Ne.symm habsent.1)⟩, fun _ _ => ih habsent.2 _⟩
      exact hrows []
    | deleteBindings keys =>
      refine ⟨⟨trivial, rfl⟩, fun rows _ => sends_gather ?_ []⟩
      intro chunk hchunk
      refine sends_query (q := .deleteBindings chunk) ⟨?_, rfl⟩
      obtain ⟨k, hk, rfl⟩ := List.mem_map.mp hchunk
      intro hmem
      cases List.mem_singleton.mp hmem
      exact hq.1 (List.mem_of_mem_filter hk)
    | _ => exact sends_query hq
  induction p with
  | pure a => trivial
  | fail e => trivial
  | exec q k ih => exact sends_bind (hbyRow q hp.1) fun r => ih r (hp.2 r trivial)

theorem wp_avoids {p : Program α} (hp : Avoids key p) (hs : Knows t key own read s) :
    Wp key calls initial t (rowByRow p) (fun _ s' => Knows t key own read s') s := by
  have hp := avoids_translate hp
  unfold rowByRow
  generalize p.translate byRow = p at hp ⊢
  induction p generalizing s with
  | pure a => exact wp_pure knows_stable hs fun _ _ h => h
  | fail e => exact wp_fail knows_stable hs fun _ _ h => h
  | exec q k ih =>
    refine wp_step hp.1.allowed hs ?_
    intro s r v hinv hknows hdoes _
    exact ih r (knows_aside hinv hp.1 hdoes hknows) (hp.2 r trivial)

theorem avoids_fetchObjects (chunks : List (List RowKey)) (d : Dict RowKey String) :
    Avoids key (fetchAll (fun chunk => query (.selectObjects chunk)) chunks d) := by
  refine sends_fetchAll (fun chunk _ => ?_) d
  exact sends_query (q := .selectObjects chunk) ⟨trivial, rfl⟩

theorem avoids_storeObjects (n : Nat) (objects : Dict RowKey String) :
    Avoids key (PostgresBackend.storeObjects n objects) := by
  have hinsert : ∀ chunks, Avoids key (PostgresBackend.insertObjects chunks) := by
    intro chunks
    induction chunks with
    | nil => trivial
    | cons chunk rest ih =>
      exact sends_bind (sends_query (q := .insertObjects chunk) ⟨trivial, rfl⟩) fun _ => ih
  refine sends_bind (hinsert _) fun _ => ?_
  refine sends_bind (avoids_fetchObjects _ _) fun stored => ?_
  cases PostgresBackend.compareObjects stored objects.items <;> trivial

/-! ## What the calls report -/

/-- What the body of a call says of the key is what its transaction would find. -/
def Answered (t : T) (key : String) (call : Call) (out : Except StoreError Reply)
    (s : Watched T) : Prop :=
  ∀ x own, reported key call out = some (x, own) → Offered t x own (s.1.bindings key)

/-- Reading the key back tells what the transaction would find. -/
theorem told_select {q : Query} {r : QueryReply q} {v : Tables} {x : Option RowKey}
    (hinv : Sound key calls initial s) (hq : Spares key q) (hdoes : q.Does (s.1.seen t) r v)
    (hbegun : Begun t key own s) (hx : ∀ y, x = some y → (s.1.bindings key).view t = some y) :
    Told t key own x (s.1.change t q v, s.2) :=
  told_change hinv hq hdoes fun y hy => hbegun.told hinv (hx y hy)

omit [DecidableEq T] in
theorem knows_begun (hs : Begun t key own s) : Knows t key own none s := by
  refine ⟨hs, ?_⟩
  intro x hx
  cases hx

theorem aside_select (key' : String) : Aside key (.selectBinding key') := ⟨trivial, rfl⟩

theorem aside_selects (keys : List String) : Aside key (.selectBindings keys) := ⟨trivial, rfl⟩

theorem spares_insert (key' : String) (reference : RowKey) :
    Spares key (.insertBinding key' reference) := trivial

theorem wp_bindCall {schema contentHash key' : String}
    (hcall : calls t = .bind key' schema contentHash) (hs : Begun t key false s) :
    Wp key calls initial t (rowByRow (do
      return .bind (← insertThenRead key' (schema, contentHash))))
      (fun out s' => Answered t key (.bind key' schema contentHash) out s') s := by
  have hallowed : Allowed key (calls t) (.insertBinding key' (schema, contentHash)) := by
    rw [hcall]
    exact ⟨spares_insert _ _, fun x hx => hx⟩
  refine wp_query rfl hallowed (knows_begun hs) ?_
  intro s inserted v hinv hknows hdoes hinv'
  have hinserted : inserted = ((s.1.bindings key').view t).isNone := hdoes.1
  have hbegun := begun_change hinv (spares_insert _ _) hdoes hknows.1
  refine wp_query rfl (aside_select key').allowed (knows_begun hbegun) ?_
  intro s' row v' hinv' hknows' hdoes' _
  have hrow : row = (s'.1.bindings key').view t := hdoes'.1
  have hnext := knows_aside hinv' (aside_select key') hdoes' hknows'
  cases row with
  | none => exact fun s'' _ _ x own hx => by cases hx
  | some existing =>
    by_cases hkey : key' = key
    · subst hkey
      have htold := told_select hinv' (aside_select key').1 hdoes' hknows'.1
        fun y (hy : some existing = some y) => hrow.symm.trans hy
      refine wp_pure knows_stable ⟨hnext.1, htold⟩ ?_
      intro s'' _ hknows'' x own hx
      simp only [reported, if_true, Option.some.injEq, Prod.mk.injEq] at hx
      obtain ⟨rfl, rfl⟩ := hx
      simpa only [inserts, if_true, Option.isSome_some, Bool.and_true, Bool.false_or,
        ← hinserted] using hknows''.2 existing rfl
    · intro s'' _ _ x own hx
      simp only [reported, if_neg hkey] at hx
      cases hx

/-! ### Batches -/

/-- Row after row of an insertion: among the inserted keys is `key` where the call made it. -/
theorem wp_insertBindingRows {chunk : List (String × RowKey)} {found : List String} {own : Bool}
    {f : List String → Program α} {Q : Except StoreError α → Watched T → Prop}
    (hchunk : ∀ row ∈ chunk, Allowed key (calls t) (.insertBinding row.1 row.2))
    (hs : Begun t key (own || decide (key ∈ found)) s)
    (h : ∀ found' s', Begun t key (own || decide (key ∈ found')) s' →
      Wp key calls initial t (rowByRow (f found')) Q s') :
    Wp key calls initial t
      (onConnection (insertBindingRows chunk found >>= fun r => (f r).translate byRow)) Q s := by
  induction chunk generalizing found s with
  | nil => exact h found s hs
  | cons row rest ih =>
    obtain ⟨key', reference⟩ := row
    refine wp_step (hchunk (key', reference) List.mem_cons_self) (knows_begun hs) ?_
    intro s inserted v hinv hknows hdoes _
    refine ih (fun row hrow => hchunk row (List.mem_cons_of_mem _ hrow)) ?_
    have hbegun := begun_change hinv (spares_insert _ _) hdoes hknows.1
    have hinserted : inserted = ((s.1.bindings key').view t).isNone := hdoes.1
    have hown : (own || decide (key ∈ if inserted = true then found ++ [key'] else found)) =
        ((own || decide (key ∈ found)) || ((s.1.bindings key).view t).isNone &&
          (inserts key (.insertBinding key' reference)).isSome) := by
      by_cases hkey : key' = key
      · subst hkey
        cases hi : inserted <;> simp [← hinserted, hi, inserts]
      · cases hi : inserted <;> simp [inserts, hkey, Ne.symm hkey]
    rw [hown]
    exact hbegun

theorem wp_insertBindings {chunks : List (List BoundObjectWrite)} {found : List String}
    {Q : Except StoreError (List String) → Watched T → Prop}
    (hchunks : ∀ e ∈ chunks.flatten, Allowed key (calls t) (.insertBinding e.key e.reference))
    (hs : Begun t key (decide (key ∈ found)) s)
    (h : ∀ found' s', Sound key calls initial s' → Begun t key (decide (key ∈ found')) s' →
      Q (.ok found') s') :
    Wp key calls initial t (rowByRow (gather (fun chunk =>
      query (.insertBindings (bindingPairs chunk))) chunks found)) Q s := by
  induction chunks generalizing found s with
  | nil => exact wp_pure begun_stable hs fun s' hinv hb => h found s' hinv hb
  | cons chunk rest ih =>
    have hown : Begun t key (decide (key ∈ found) || decide (key ∈ ([] : List String))) s := by
      simpa using hs
    refine wp_insertBindingRows ?_ hown ?_
    · intro row hrow
      obtain ⟨e, he, rfl⟩ := List.mem_map.mp hrow
      exact hchunks e (List.mem_append_left _ he)
    · intro keys s' hb
      refine ih (fun e he => hchunks e (List.mem_append_right _ he)) ?_
      simpa [List.mem_append, Bool.decide_or] using hb

theorem wp_fetchBindings {chunks : List (List String)} {d : Dict String RowKey}
    {Q : Except StoreError (Dict String RowKey) → Watched T → Prop}
    (hs : Knows t key own (d.get? key) s)
    (h : ∀ (d' : Dict String RowKey) s', Sound key calls initial s' →
      Knows t key own (d'.get? key) s' → Q (.ok d') s') :
    Wp key calls initial t (rowByRow (fetchAll (fun chunk =>
      query (.selectBindings chunk)) chunks d)) Q s := by
  induction chunks generalizing d s with
  | nil => exact wp_pure knows_stable hs fun s' hinv hk => h d s' hinv hk
  | cons chunk rest ih =>
    refine wp_query rfl (aside_selects chunk).allowed hs ?_
    intro s rows v hinv hknows hdoes _
    have hnext := knows_aside hinv (aside_selects chunk) hdoes hknows
    have hrows : ∀ p ∈ rows, (s.1.bindings p.1).view t = some p.2 :=
      fun p hp => ((hdoes.2 p.1 p.2).mp hp).2
    have hget : (rows.foldl (fun d p => d.set p.1 p.2) d).get? key =
        if key ∈ rows.map Prod.fst then (s.1.bindings key).view t else d.get? key :=
      @Dict.get?_foldl_set _ _ _ (fun k => (s.1.bindings k).view t) rows d hrows key
    refine ih ⟨hnext.1, ?_⟩
    rw [hget]
    split
    · exact told_select hinv (aside_selects chunk).1 hdoes hknows.1 fun y hy => hy
    · exact hnext.2

/-- A row of a batch offers the key as the batch does. -/
theorem allowed_row {entries : List BoundObjectWrite} {objects : Dict RowKey String}
    {writes : Dict String BoundObjectWrite} {e : BoundObjectWrite}
    (hd : PostgresBackend.Distinct entries objects writes) (he : e ∈ writes.values) :
    Allowed key (.putBoundObjects entries) (.insertBinding e.key e.reference) := by
  refine ⟨spares_insert _ _, ?_⟩
  intro x hx
  simp only [inserts] at hx
  split at hx
  · rename_i hkey
    cases hx
    obtain ⟨⟨k, _⟩, hitem, rfl⟩ := List.mem_map.mp he
    have hk : k = key := (hd.key_eq hitem).symm.trans hkey
    subst hk
    have hget : firstOf (PostgresBackend.writePairs entries) k = some _ :=
      hd.writes_eq ▸ Dict.get?_eq_some.mpr hitem
    have hpairs : bindingPairs entries = (PostgresBackend.writePairs entries).map
        fun p => (p.1, p.2.reference) := by
      rw [bindingPairs, PostgresBackend.writePairs, List.map_map]
      rfl
    show firstOf (bindingPairs entries) k = _
    rw [hpairs, firstOf_map, hget, Option.map_some]
  · cases hx

theorem wp_storeBindings {n : Nat} (hn : 0 < n) {entries : List BoundObjectWrite}
    {objects : Dict RowKey String} {writes : Dict String BoundObjectWrite}
    (hd : PostgresBackend.Distinct entries objects writes)
    (hcall : calls t = .putBoundObjects entries) (hinv : Sound key calls initial s)
    (hs : Begun t key false s) :
    Wp key calls initial t (rowByRow (PostgresBackend.storeBindings n writes))
      (fun out s' => ∀ outcomes, out = .ok outcomes → ∀ o, outcomes.get? key = some o →
        Offered t (o.existingSchema, o.existingContentHash) o.bound (s'.1.bindings key)) s := by
  refine wp_then (fun out s' => ∃ found, out = .ok found ∧
    Begun t key (decide (key ∈ found)) s') hinv (wp_insertBindings ?_ hs ?_) ?_ ?_
  · intro e he
    rw [chunks_flatten hn] at he
    rw [hcall]
    exact allowed_row hd he
  · exact fun found s' _ hb => ⟨found, rfl, hb⟩
  · rintro found s' hinv' ⟨_, heq, hb⟩
    cases heq
    refine wp_then (fun out s' => ∃ stored, out = .ok stored ∧
      Knows t key (decide (key ∈ found)) (stored.get? key) s') hinv'
      (wp_fetchBindings (knows_begun hb) ?_) ?_ ?_
    · exact fun stored s' _ hk => ⟨stored, rfl, hk⟩
    · rintro stored s'' hinv'' ⟨_, heq, hk⟩
      cases heq
      split
      · refine wp_pure knows_stable hk ?_
        intro s₃ _ hk outcomes heq o ho
        cases heq
        rw [Dict.get?_collect] at ho
        split at ho
        · obtain ⟨existing, hex, rfl⟩ := Option.map_eq_some_iff.mp ho
          rw [List.contains_eq_mem]
          exact hk.2 existing hex
        · cases ho
      · exact fun s₃ _ _ outcomes heq => by cases heq
    · rintro e s' ⟨_, heq, _⟩
      cases heq
  · rintro e s' ⟨_, heq, _⟩
    cases heq

theorem wp_putCall {n : Nat} (hn : 0 < n) {entries : List BoundObjectWrite}
    (hcall : calls t = .putBoundObjects entries) (hinv : Sound key calls initial s)
    (hs : Begun t key false s) :
    Wp key calls initial t (rowByRow (do
      return .outcomes (← PostgresBackend.putBoundObjectsOnConnection n entries)))
      (fun out s' => Answered t key (.putBoundObjects entries) out s') s := by
  refine wp_then (fun out s' => ∀ outcomes, out = .ok outcomes → ∀ o, outcomes.get? key = some o →
    Offered t (o.existingSchema, o.existingContentHash) o.bound (s'.1.bindings key)) hinv ?_ ?_ ?_
  · unfold PostgresBackend.putBoundObjectsOnConnection
    cases hdw : PostgresBackend.distinctWrites entries Dict.empty Dict.empty with
    | error e => exact fun _ _ _ outcomes heq => by cases heq
    | ok p =>
      obtain ⟨objects, writes⟩ := p
      rw [Prog.ofExcept_ok, Prog.pure_bind]
      refine wp_then _ hinv (wp_avoids (avoids_storeObjects n objects) (knows_begun hs)) ?_ ?_
      · intro _ s' hinv' hk
        exact wp_storeBindings hn (PostgresBackend.distinctWrites_ok hdw) hcall hinv' hk.1
      · exact fun _ _ _ _ outcomes heq => by cases heq
  · intro outcomes s' hinv' h
    refine wp_pure (A := fun s' => ∀ o, outcomes.get? key = some o →
      Offered t (o.existingSchema, o.existingContentHash) o.bound (s'.1.bindings key)) ?_
      (h outcomes rfl) ?_
    · intro s₁ s₂ hothers h o ho
      obtain ⟨_, _, u, hu, hkeeps⟩ := hothers
      exact hkeeps.row.offered hu (h o ho)
    · intro s'' _ h x own hx
      obtain ⟨o, ho, heq⟩ := Option.map_eq_some_iff.mp hx
      cases heq
      exact h o ho
  · intro e s' _ s'' x own hx
    cases hx

theorem wp_getBindingCall {key' : String} (hs : Begun t key false s) :
    Wp key calls initial t (rowByRow (do
      return .binding (← PostgresBackend.getBindingOnConnection key')))
      (fun out s' => Final t key (.getBinding key') out s') s := by
  refine wp_query rfl (aside_select key').allowed (knows_begun hs) ?_
  intro s row v hinv hknows hdoes _
  have hrow : row = (s.1.bindings key').view t := hdoes.1
  by_cases hkey : key' = key
  · subst hkey
    have htold := told_select hinv (aside_select key').1 hdoes hknows.1
      fun y (hy : row = some y) => hrow.symm.trans hy
    refine wp_pure told_stable htold ?_
    intro s' _ htold x own hx
    simp only [reported, if_true, Option.map_eq_some_iff, Prod.mk.injEq] at hx
    obtain ⟨y, hy, rfl, rfl⟩ := hx
    exact ⟨htold y hy, fun h => by cases h⟩
  · intro s' _ _ x own hx
    simp only [reported, if_neg hkey] at hx
    cases hx

theorem wp_getBoundObjectsCall {n : Nat} {keys keys' : List String}
    (hinv : Sound key calls initial s) (hs : Begun t key false s) :
    Wp key calls initial t (rowByRow (do
      return .rows (← PostgresBackend.getBoundObjectsOnConnection n keys')))
      (fun out s' => Final t key (.getBoundObjects keys) out s') s := by
  refine wp_then (fun out s' => ∀ rows : Dict String BoundObjectRow, out = .ok rows → ∀ row,
    rows.get? key = some row → (s'.1.bindings key).committed =
      some (row.bindingSchema, row.bindingContentHash)) hinv ?_ ?_ ?_
  · refine wp_then (fun out s' => ∃ bindings : Dict String RowKey, out = .ok bindings ∧
      Knows t key false (bindings.get? key) s') hinv (wp_fetchBindings (knows_begun hs) ?_) ?_ ?_
    · exact fun bindings s' _ hk => ⟨bindings, rfl, hk⟩
    · rintro bindings s' hinv' ⟨_, heq, hk⟩
      cases heq
      refine wp_then _ hinv' (wp_avoids (avoids_fetchObjects _ _) hk) ?_ ?_
      · intro objects s'' _ hk
        refine wp_pure knows_stable hk ?_
        intro s₃ _ hk rows heq row hrow
        cases heq
        rw [Dict.get?_collect] at hrow
        split at hrow
        · obtain ⟨reference, href, rfl⟩ := Option.map_eq_some_iff.mp hrow
          exact hk.2 reference href
        · cases hrow
      · exact fun _ _ _ _ rows heq => by cases heq
    · rintro e s' ⟨_, heq, _⟩
      cases heq
  · intro rows s' _ h
    refine wp_pure (A := fun s' => ∀ row, rows.get? key = some row →
      (s'.1.bindings key).committed = some (row.bindingSchema, row.bindingContentHash)) ?_
      (h rows rfl) ?_
    · intro s₁ s₂ hothers h row hrow
      obtain ⟨_, _, u, _, hkeeps⟩ := hothers
      exact hkeeps.row.committed _ (h row hrow)
    · intro s'' _ h x own hx
      obtain ⟨row, hrow, heq⟩ := Option.map_eq_some_iff.mp hx
      cases heq
      exact ⟨h row hrow, fun h => by cases h⟩
  · intro e s' _ s'' x own hx
    cases hx

/-! ## Whole calls -/

omit [DecidableEq T] in
theorem idle_stable : Stable (rules key calls initial) t (fun s => Idle t (s.1.bindings key)) := by
  intro s s' hothers h
  obtain ⟨_, _, u, hu, hkeeps⟩ := hothers
  exact hkeeps.row.idle hu h

omit [DecidableEq T] in
theorem answered_stable {call : Call} {out : Except StoreError Reply} :
    Stable (rules key calls initial) t (Answered t key call out) := by
  intro s s' hothers h x own hx
  obtain ⟨_, _, u, hu, hkeeps⟩ := hothers
  exact hkeeps.row.offered hu (h x own hx)

theorem reported_error {call : Call} (e : StoreError) :
    reported key call (.error e) = none := by
  cases call <;> rfl

omit [DecidableEq T] in
theorem final_of_none {call : Call} {out : Except StoreError Reply} {s : Watched T}
    (h : reported key call out = none) : Final t key call out s := by
  intro x own hx
  rw [h] at hx
  cases hx

/-- What the body of a transaction would find, its commit makes final. -/
theorem wp_transaction {call : Call} {body : Program Reply}
    (h : ∀ s, Sound key calls initial s → Begun t key false s →
      Wp key calls initial t (onConnection body) (fun out s' => Answered t key call out s') s)
    (hs : Idle t (s.1.bindings key)) :
    Wp key calls initial t (transaction body) (fun out s' => Final t key call out s') s := by
  refine wp_exec idle_stable hs ?_
  intro s r s' hinv hidle hstep
  obtain ⟨hinv', hkeeps, hrows⟩ := begin_keeps hinv hstep
  refine ⟨hinv', hkeeps, wp_settle hinv' (wp_mono ?_ (h s' hinv' (.inl ⟨rfl, hrows ▸ hidle⟩)))⟩
  intro out s _ hanswered
  cases out with
  | ok reply =>
    refine wp_exec answered_stable hanswered ?_
    intro s r s' hinv hanswered hstep
    obtain ⟨hinv', hkeeps, hfinal⟩ := commit_keeps hinv hstep
    refine ⟨hinv', hkeeps, wp_pure final_stable ?_ fun _ _ h => h⟩
    intro x own hx
    exact hfinal x own (hanswered x own hx)
  | error e =>
    intro s _ hinv r s' hstep
    obtain ⟨s', w⟩ := s'
    obtain ⟨hs, hw⟩ := hstep
    obtain rfl : s' = _ := hs
    obtain rfl : w = s.2 := hw
    obtain ⟨hinv', hkeeps⟩ := rollback_keeps (t := t) hinv
    exact ⟨hinv', hkeeps, fun _ _ _ => final_of_none (reported_error e)⟩

/-- A body that does not offer the key, of a call that says nothing of it. -/
theorem wp_silent {call : Call} {body : Program Reply} (hbody : Avoids key body)
    (hcall : ∀ out, reported key call out = none) (hs : Begun t key false s) :
    Wp key calls initial t (rowByRow body)
      (fun out s' => Answered t key call out s' ∧ Final t key call out s') s := by
  refine wp_mono ?_ (wp_avoids hbody (knows_begun hs))
  intro out s' _ _
  refine ⟨?_, final_of_none (hcall out)⟩
  intro x own hx
  rw [hcall out] at hx
  cases hx

theorem avoids_putObject (schema contentHash canonical : String) :
    Avoids key (PostgresBackend.putObjectOnConnection schema contentHash canonical) := by
  refine sends_bind (sends_query (q := .insertObject _ _) ⟨trivial, rfl⟩) fun inserted => ?_
  cases inserted with
  | some canonical => trivial
  | none =>
    refine sends_bind (sends_query (q := .selectObject _) ⟨trivial, rfl⟩) fun stored => ?_
    cases stored <;> trivial

/-- A deletion that spares the key deletes chunks that spare it. -/
theorem avoids_delete {n : Nat} (hn : 0 < n) {keys : List String} (hkey : key ∉ keys) :
    Avoids key (PostgresBackend.deleteBindingsOnConnection n keys.eraseDups) := by
  refine sends_gather ?_ []
  intro chunk hchunk
  refine sends_query (q := .deleteBindings chunk) ⟨?_, rfl⟩
  intro hmem
  refine hkey (List.mem_eraseDups.mp ?_)
  rw [← chunks_flatten hn keys.eraseDups]
  exact List.mem_flatten.mpr ⟨chunk, hchunk, hmem⟩

/-- What a call says of the key is final when it returns. -/
theorem call_final (b : PostgresBackend) {call : Call} (hcall : calls t = call)
    (hspare : ∀ keys, call = .deleteBindings keys → key ∉ keys)
    (hinv : Sound key calls initial s) (hs : Idle t (s.1.bindings key)) :
    Wp key calls initial t ((b.program call).translate stmtByRow)
      (fun out s' => Final t key call out s') s := by
  have hbegun : Begun t key false s := .inl ⟨rfl, hs⟩
  cases call with
  | putObject schema contentHash canonical =>
    rw [PostgresBackend.program, transaction_translate]
    refine wp_transaction ?_ hs
    intro s hinv hbegun
    refine wp_mono (fun _ _ _ h => h.1) (wp_silent ?_ (fun _ => rfl) hbegun)
    exact sends_bind (avoids_putObject schema contentHash canonical) fun _ => trivial
  | getObject schema contentHash =>
    rw [PostgresBackend.program, onConnection_translate]
    refine wp_mono (fun _ _ _ h => h.2) (wp_silent ?_ (fun _ => rfl) hbegun)
    exact sends_bind (sends_query (q := .selectByHash _ _) ⟨trivial, rfl⟩) fun _ => trivial
  | bind key' schema contentHash =>
    rw [PostgresBackend.program, transaction_translate]
    exact wp_transaction (fun s hinv hbegun => wp_bindCall hcall hbegun) hs
  | getBinding key' =>
    rw [PostgresBackend.program, onConnection_translate]
    exact wp_getBindingCall hbegun
  | getBoundObjects keys =>
    rw [PostgresBackend.program]
    split
    · exact fun _ _ _ x own hx => by cases hx
    · rw [onConnection_translate]
      exact wp_getBoundObjectsCall hinv hbegun
  | putBoundObjects entries =>
    rw [PostgresBackend.program]
    split
    · exact fun _ _ _ x own hx => by cases hx
    · rw [transaction_translate]
      exact wp_transaction (fun s hinv hbegun => wp_putCall b.positive hcall hinv hbegun) hs
  | deleteBindings keys =>
    rw [PostgresBackend.program]
    split
    · exact fun _ _ _ x own hx => by cases hx
    · rw [transaction_translate]
      refine wp_transaction ?_ hs
      intro s hinv hbegun
      refine wp_mono (fun _ _ _ h => h.1) (wp_silent ?_ (fun _ => rfl) hbegun)
      exact sends_bind (avoids_delete b.positive (hspare keys rfl)) fun _ => trivial

/-! ## Runs -/

omit [DecidableEq T] in
theorem start_sound (tables : Tables) :
    Sound key calls (tables.bindings key) ((Shared.ofTables tables : Shared T), none) where
  inserting u x hp := by cases hp
  pending u x hp := by cases hp
  committed x hx := .inl hx
  won u hu := by cases hu
  kept x hx := hx

theorem kill_keeps {s s' : Watched T} (hinv : Sound key calls initial s)
    (h : (watched key).kill t s s') : Sound key calls initial s' ∧ Keeps key t s s' := by
  obtain ⟨s', w⟩ := s'
  obtain ⟨hs, hw⟩ := h
  obtain rfl : s' = _ := hs
  obtain rfl : w = s.2 := hw
  exact rollback_keeps hinv

theorem programs_final (b : PostgresBackend) (tables : Tables)
    (hspare : ∀ t keys, calls t = .deleteBindings keys → key ∉ keys) (t : T) :
    Wp key calls (tables.bindings key) t (programs b calls t)
      (fun out s' => Final t key (calls t) out s') (Shared.ofTables tables, none) := by
  unfold programs checked
  split
  · exact fun _ _ _ => final_of_none (reported_error _)
  · exact call_final b rfl (hspare t) (start_sound tables) fun x hx => by cases hx

omit [DecidableEq T] in
theorem committed_stays {s s' : Watched T}
    (h : Relation.ReflTransGen (fun s s' => ∃ t, (rules key calls initial).guar t s s') s s')
    (x : RowKey) (hx : (s.1.bindings key).committed = some x) :
    (s'.1.bindings key).committed = some x := by
  induction h with
  | refl => exact hx
  | tail _ hstep ih =>
    obtain ⟨_, hkeeps⟩ := hstep
    exact hkeeps.row.committed x ih

/-- **Concurrent writers agree on the first.** In every run of concurrent calls, none of which
evicts the key: the binding that a call reports when it ends is the committed one; at most one
call reports that it made it, and only if the key was unbound; what is committed was bound at
the start or offered by a call, and stays. -/
theorem concurrent_writers_agree (b : PostgresBackend) (calls : T → Call) (tables : Tables)
    (key : String) (hspare : ∀ t keys, calls t = .deleteBindings keys → key ∉ keys)
    {c : Config T (Shared T) Stmt StmtReply StoreError Reply}
    (hc : Reachable readCommitted (Shared.ofTables tables) (programs b calls) c) :
    (∀ t out x own, c.prog t = some (.ofExcept out) → reported key (calls t) out = some (x, own) →
      (c.state.bindings key).committed = some x ∧
        (own = true → tables.bindings key = none ∧ offers key (calls t) = some x)) ∧
    (∀ t u out out' x y, c.prog t = some (.ofExcept out) → c.prog u = some (.ofExcept out') →
      reported key (calls t) out = some (x, true) →
      reported key (calls u) out' = some (y, true) → t = u) ∧
    (∀ x, (c.state.bindings key).committed = some x →
      (tables.bindings key = some x ∨ ∃ t, offers key (calls t) = some x) ∧
      ∀ c', Relation.ReflTransGen (Step readCommitted) c c' →
        (c'.state.bindings key).committed = some x) ∧
    ∀ x, tables.bindings key = some x → (c.state.bindings key).committed = some x := by
  obtain ⟨w, hw⟩ := reachable_watch (winner key) none hc
  have hkill : ∀ t s s', Sound key calls (tables.bindings key) s → (watched key).kill t s s' →
      Sound key calls (tables.bindings key) s' ∧ Keeps key t s s' := fun t s s' => kill_keeps
  have hwp := programs_final b tables hspare
  obtain ⟨hinv, hthreads⟩ := reachable_wp (R := rules key calls (tables.bindings key))
    (start_sound tables) hkill hwp hw
  have hfinal : ∀ t out, c.prog t = some (.ofExcept out) →
      Final t key (calls t) out (c.state, w) := fun t out hp => wp_ended hinv out (hthreads t _ hp)
  refine ⟨?_, ?_, ?_, hinv.kept⟩
  · intro t out x own hp hx
    obtain ⟨hcommitted, hwon⟩ := hfinal t out hp x own hx
    refine ⟨hcommitted, ?_⟩
    intro hown
    obtain ⟨hinitial, y, hy, hoffers⟩ := hinv.won t (hwon hown)
    rw [hcommitted] at hy
    cases hy
    exact ⟨hinitial, hoffers⟩
  · intro t u out out' x y hp hp' hx hy
    have ht : w = some t := (hfinal t out hp x true hx).2 rfl
    have hu : w = some u := (hfinal u out' hp' y true hy).2 rfl
    rw [ht] at hu
    exact Option.some.inj hu
  · intro x hx
    refine ⟨hinv.committed x hx, ?_⟩
    intro c' hsteps
    obtain ⟨w', hsteps⟩ := steps_watch (winner key) w hsteps
    have hguar := reachable_guar (start_sound tables) hkill hwp hw hsteps
    refine committed_stays hguar x hx

/-! ## Two writers -/

def rivalCalls : Bool → Call
  | true => .bind "k" "result" raceHash
  | false => .bind "k" "dataset" raceHash

def rivalTables : Tables := ⟨fun _ => none, fun _ => none⟩

theorem rivalCalls_valid (t : Bool) : (rivalCalls t).validate = .ok () := by
  cases t with
  | true => exact @validateReference_ok "result" raceHash (by decide) (by decide)
  | false => exact @validateReference_ok "dataset" raceHash (by decide) (by decide)

theorem programs_rival (t : Bool) :
    programs raceBackend rivalCalls t =
      (raceBackend.program (rivalCalls t)).translate stmtByRow := by
  rw [programs, checked, rivalCalls_valid]

theorem rivalCalls_spare (t : Bool) (keys : List String)
    (h : rivalCalls t = .deleteBindings keys) : "k" ∉ keys := by
  cases t <;> cases h

/-- The second writer waits for the first, and then finds its binding. -/
theorem rivals_agree :
    ∃ c : Config Bool (Shared Bool) Stmt StmtReply StoreError Reply,
      Reachable readCommitted (Shared.ofTables rivalTables) (programs raceBackend rivalCalls) c ∧
      c.prog true = some (.ofExcept (.ok (.bind ⟨true, "result", raceHash⟩))) ∧
      c.prog false = some (.ofExcept (.ok (.bind ⟨false, "result", raceHash⟩))) ∧
      (c.state.bindings "k").committed = some ("result", raceHash) := by
  have h0 : Reachable readCommitted (Shared.ofTables rivalTables) (programs raceBackend rivalCalls)
      (start (Shared.ofTables rivalTables) (programs raceBackend rivalCalls)) := .refl
  have h1 := h0.exec (t := true) (r := ()) (congrArg some (programs_rival true)) rfl
  have h2 := h1.exec (t := false) (r := ()) (congrArg some (programs_rival false)) rfl
  have h3 := h2.exec (t := true) (r := true) rfl
    ⟨(by rintro ⟨_, _, hp, _⟩; cases hp), _, ⟨rfl, rfl⟩, rfl⟩
  have h4 := h3.exec (t := true) (r := some ("result", raceHash)) rfl
    ⟨trivial, _, ⟨by decide, rfl⟩, rfl⟩
  have h5 := h4.exec (t := true) (r := ()) rfl rfl
  -- the first has committed: the insert of the second is skipped
  have h6 := h5.exec (t := false) (r := false) rfl
    ⟨(by rintro ⟨_, _, hp, _⟩; cases hp), _, ⟨by decide, rfl⟩, rfl⟩
  have h7 := h6.exec (t := false) (r := some ("result", raceHash)) rfl
    ⟨trivial, _, ⟨by decide, rfl⟩, rfl⟩
  have h8 := h7.exec (t := false) (r := ()) rfl rfl
  exact ⟨_, h8, rfl, rfl, ((concurrent_writers_agree raceBackend rivalCalls rivalTables "k"
    rivalCalls_spare h8).1 false (.ok (.bind ⟨false, "result", raceHash⟩)) _ false rfl rfl).1⟩

end DrStore.Store.Winners
