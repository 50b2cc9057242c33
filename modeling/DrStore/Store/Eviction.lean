import DrStore.Store.ReadCommitted

/-! # PostgreSQL writers and concurrent eviction

A writer inserts its keys and reads them back in later statements. When the insertion of a row was
skipped because its key was bound, a deletion that commits before the row is read back leaves
nothing to read, and the assertion of the read fails. `awaited` records the keys a transaction has
offered and not yet read back; as long as no deletion of an awaited key commits, no assertion
fails. -/
namespace DrStore.Store.Eviction
open DrStore.Base.Collections DrStore.Base.Pool DrStore.Base.Programs DrStore.Base.Versions
open DrStore.Store.ContentAddressing DrStore.Store.Contract DrStore.Store.Postgres
open DrStore.Store.ReadCommitted DrStore.Store.Statements

variable {T : Type} [DecidableEq T]

/-- No deletion commits of a key that another call has offered and not yet read back. -/
def Quiet (t : T) (s : Shared T) : Stmt → Prop
  | .commit => ∀ key, (s.bindings key).pending = some (t, none) →
      ∀ u, u ≠ t → key ∉ s.awaited u
  | _ => True

/-! ## What a call guarantees the others -/

/-- Pending changes to objects are insertions. A call leaves the others what they see: objects,
and the bindings they have offered and not yet read back. -/
def rules : Rules T (Shared T) where
  inv s := ∀ row u x, (s.objects row).pending = some (u, x) → x.isSome = true
  guar u s s' := ∀ t, t ≠ u → s'.awaited t = s.awaited t ∧
    (∀ row, ((s.objects row).view t).isSome = true → ((s'.objects row).view t).isSome = true) ∧
    ∀ key ∈ s.awaited t, ((s.bindings key).view t).isSome = true →
      ((s'.bindings key).view t).isSome = true

/-- Quiet runs. -/
abbrev quietRuns : System T (Shared T) Stmt StmtReply := readCommitted.restrict Quiet

theorem begin_keeps {s s' : Shared T} {t : T} {r : StmtReply .begin} (hinv : rules.inv s)
    (h : s.Effect t .begin r s') : rules.inv s' ∧ rules.guar t s s' := by
  cases h
  refine ⟨hinv, ?_⟩
  intro u hu
  exact ⟨Function.update_of_ne hu _ _, fun _ h => h, fun _ _ h => h⟩

theorem query_keeps {s s' : Shared T} {t : T} {q : Query} {r : QueryReply q}
    (hinv : rules.inv s) (h : s.Effect t (.query q) r s') :
    rules.inv s' ∧ rules.guar t s s' := by
  obtain ⟨hc, v, hdoes, rfl⟩ := h
  refine ⟨?_, ?_⟩
  · intro row u x hp
    simp only [Shared.change, Version.write] at hp
    split at hp
    · exact hinv row u x hp
    · rename_i hne
      cases hp
      exact (does_objects hdoes (Ne.symm hne)).1
  · intro u hu
    refine ⟨Function.update_of_ne hu _ _, ?_, ?_⟩
    · intro row hrow
      rwa [Shared.change, Version.view_write_other (clear_objects hc hdoes) hu]
    · intro key _ hkey
      rwa [Shared.change, Version.view_write_other (clear_bindings hc hdoes) hu]

theorem rollback_keeps {s : Shared T} {t : T} (hinv : rules.inv s) :
    rules.inv (s.rollback t) ∧ rules.guar t s (s.rollback t) := by
  refine ⟨?_, ?_⟩
  · intro row u x hp
    refine hinv row u x ?_
    simp only [Shared.rollback, Version.rollback] at hp
    split at hp
    · split at hp
      · cases hp
      · exact hp
    · exact hp
  · intro u hu
    refine ⟨Function.update_of_ne hu _ _, ?_, ?_⟩
    · intro row hrow
      rwa [Shared.rollback, Version.view_rollback_other _ hu]
    · intro key _ hkey
      rwa [Shared.rollback, Version.view_rollback_other _ hu]

theorem commit_keeps {s : Shared T} {t : T} (hinv : rules.inv s) (hq : Quiet t s .commit) :
    rules.inv (s.commit t) ∧ rules.guar t s (s.commit t) := by
  refine ⟨?_, ?_⟩
  · intro row u x hp
    refine hinv row u x ?_
    simp only [Shared.commit, Version.commit] at hp
    split at hp
    · split at hp
      · cases hp
      · exact hp
    · exact hp
  · intro u hu
    refine ⟨Function.update_of_ne hu _ _, ?_, ?_⟩
    · intro row hrow
      rcases Version.view_commit_other (s.objects row) hu with ⟨x, hp, hview⟩ | hview
      · rw [Shared.commit, hview]
        exact hinv row t x hp
      · rwa [Shared.commit, hview]
    · intro key hkey hbound
      rcases Version.view_commit_other (s.bindings key) hu with ⟨x, hp, hview⟩ | hview
      · rw [Shared.commit, hview]
        cases x with
        | some _ => rfl
        | none => exact absurd hkey (hq key hp u hu)
      · rwa [Shared.commit, hview]

/-! ## Rules for programs -/

abbrev Wp {α : Type} (t : T) (p : Prog Stmt StmtReply StoreError α)
    (Q : Except StoreError α → Shared T → Prop) (s : Shared T) : Prop :=
  wp quietRuns rules t p Q s

/-- The objects that `t` sees, and the keys it has offered and finds bound. -/
def Holds (t : T) (rows : List RowKey) (keys : List String) (s : Shared T) : Prop :=
  (∀ row ∈ rows, ((s.seen t).objects row).isSome = true) ∧
    ∀ key ∈ keys, key ∈ s.awaited t ∧ ((s.seen t).bindings key).isSome = true

theorem holds_stable (t : T) (rows : List RowKey) (keys : List String) :
    Stable rules t (Holds t rows keys) := by
  rintro s s' ⟨_, _, u, hu, hg⟩ ⟨hrows, hkeys⟩
  obtain ⟨hawaited, hobjects, hbindings⟩ := hg t (Ne.symm hu)
  refine ⟨?_, ?_⟩
  · intro row hrow
    exact hobjects row (hrows row hrow)
  · intro key hkey
    obtain ⟨hmem, hbound⟩ := hkeys key hkey
    exact ⟨hawaited ▸ hmem, hbindings key hmem hbound⟩

theorem holds_nil (t : T) (s : Shared T) : Holds t [] [] s := ⟨by simp, by simp⟩

variable {α β : Type} {t : T} {rows : List RowKey} {keys : List String} {s : Shared T}

/-- Return, knowing what holds. -/
theorem wp_return {a : α} {Q : Except StoreError α → Shared T → Prop} (hs : Holds t rows keys s)
    (h : ∀ s', rules.inv s' → Holds t rows keys s' → Q (.ok a) s') :
    Wp t (rowByRow (pure a : Program α)) Q s :=
  wp_pure (holds_stable t rows keys) hs h

/-- One query in one step, knowing what holds. -/
theorem wp_query {q : Query} {f : QueryReply q → Program α}
    {Q : Except StoreError α → Shared T → Prop} (hq : byRow q = query q) (hs : Holds t rows keys s)
    (h : ∀ s' r v, Holds t rows keys s' → q.Does (s'.seen t) r v → rules.inv (s'.change t q v) →
      Wp t (rowByRow (f r)) Q (s'.change t q v)) :
    Wp t (rowByRow (query q >>= f)) Q s := by
  rw [rowByRow_query hq]
  refine wp_exec (holds_stable t rows keys) hs ?_
  rintro s' r s'' hinv hholds ⟨heffect, _⟩
  obtain ⟨hinv', hg⟩ := query_keeps hinv heffect
  obtain ⟨_, v, hdoes, rfl⟩ := heffect
  exact ⟨hinv', hg, h s' r v hholds hdoes hinv'⟩

/-- One part of a body, then the rest. -/
theorem wp_then {p : Program α} {f : α → Program β} {Q : Except StoreError β → Shared T → Prop}
    (P : Except StoreError α → Shared T → Prop) (hinv : rules.inv s)
    (hp : Wp t (rowByRow p) P s)
    (hok : ∀ a s', P (.ok a) s' → Wp t (rowByRow (f a)) Q s')
    (herror : ∀ e s', P (.error e) s' → Wp t (rowByRow (.fail e : Program β)) Q s') :
    Wp t (rowByRow (p >>= f)) Q s := by
  rw [rowByRow_bind]
  refine wp_bind hinv (wp_mono ?_ hp)
  intro out s' _ h
  cases out with
  | ok a => exact hok a s' h
  | error e => exact herror e s' h

/-- A transaction ends as its body does. -/
theorem wp_transaction {body : Program α} {Q : Except StoreError α → Prop}
    (h : ∀ s, rules.inv s → Wp t (onConnection body) (fun out _ => Q out) s) (s : Shared T) :
    Wp t (transaction body) (fun out _ => Q out) s := by
  have hend : ∀ (op : Stmt) (out : Except StoreError α) (s : Shared T), Q out →
      (∀ s r s', rules.inv s → quietRuns.step t s op r s' → rules.inv s' ∧ rules.guar t s s') →
      Wp t (Prog.closing op out) (fun out _ => Q out) s := by
    intro op out s hout hkeeps s' _ hinv r s'' hstep
    obtain ⟨hinv', hg⟩ := hkeeps s' r s'' hinv hstep
    refine ⟨hinv', hg, ?_⟩
    cases out <;> exact fun _ _ _ => hout
  refine wp_exec (holds_stable t [] []) (holds_nil t s) ?_
  rintro s' r s'' hinv _ ⟨heffect, _⟩
  obtain ⟨hinv', hg⟩ := begin_keeps (r := r) hinv heffect
  refine ⟨hinv', hg, wp_settle hinv' (wp_mono ?_ (h s'' hinv'))⟩
  intro out s _ hout
  cases out with
  | ok a =>
    refine hend .commit (.ok a) s hout ?_
    rintro s _ _ hinv ⟨rfl, hq⟩
    exact commit_keeps hinv hq
  | error e =>
    refine hend .rollback (.error e) s hout ?_
    rintro s _ _ hinv ⟨rfl, _⟩
    exact rollback_keeps hinv

theorem holds_change {q : Query} {v : Tables}
    (hrows : ∀ row ∈ rows, (v.objects row).isSome = true)
    (hkeys : ∀ key ∈ keys, key ∈ Shared.track (s.awaited t) q ∧ (v.bindings key).isSome = true) :
    Holds t rows keys (s.change t q v) := by
  rw [Holds, Shared.seen_change, Shared.awaited_change]
  exact ⟨hrows, hkeys⟩

/-! ## Single rows -/

theorem wp_insertThenRead {key : String} {reference : RowKey}
    {Q : Except StoreError BindOutcome → Prop} (h : ∀ outcome, Q (.ok outcome)) (s : Shared T) :
    Wp t (rowByRow (insertThenRead key reference)) (fun out _ => Q out) s := by
  refine wp_query rfl (holds_nil t s) ?_
  rintro s' inserted v _ ⟨_, hv⟩ _
  -- the key is bound now, by this call or another, and stays so until it is read back
  have hholds : Holds t [] [key] (s'.change t (.insertBinding key reference) v) := by
    refine holds_change (by simp) ?_
    intro k hk
    cases List.mem_singleton.mp hk
    exact ⟨List.mem_cons_self, by simp [hv, putAbsent_self]⟩
  refine wp_query rfl hholds ?_
  rintro s'' row v hh ⟨rfl, rfl⟩ _
  obtain ⟨existing, hex⟩ := Option.isSome_iff_exists.mp (hh.2 key List.mem_cons_self).2
  rw [hex]
  exact wp_return (holds_nil t _) fun _ _ _ => h _

theorem wp_putObject {schema contentHash canonical : String}
    {Q : Except StoreError PutOutcome → Prop} (h : ∀ outcome, Q (.ok outcome)) (s : Shared T) :
    Wp t (rowByRow (PostgresBackend.putObjectOnConnection schema contentHash canonical))
      (fun out _ => Q out) s := by
  refine wp_query rfl (holds_nil t s) ?_
  rintro s' inserted v _ ⟨rfl, hv⟩ _
  cases hrow : (s'.seen t).objects (schema, contentHash) with
  | none => exact wp_return (holds_nil t _) fun _ _ _ => h _
  | some stored =>
    have hholds : Holds t [(schema, contentHash)] [] (s'.change t
        (.insertObject (schema, contentHash) canonical) v) := by
      refine holds_change ?_ (by simp)
      intro row hr
      cases List.mem_singleton.mp hr
      simp [hv, putAbsent_self]
    refine wp_query rfl hholds ?_
    rintro s'' row v hh ⟨rfl, rfl⟩ _
    obtain ⟨text, htext⟩ := Option.isSome_iff_exists.mp (hh.1 _ List.mem_cons_self)
    rw [htext]
    exact wp_return (holds_nil t _) fun _ _ _ => h _

/-! ## Batches -/

/-- Row after row of an insertion, then the rest of the body. -/
theorem wp_insertObjectRows {chunk : List (RowKey × String)} {f : Unit → Program α}
    {Q : Except StoreError α → Shared T → Prop} (hinv : rules.inv s) (hs : Holds t rows keys s)
    (h : ∀ s', rules.inv s' → Holds t (rows ++ chunk.map Prod.fst) keys s' →
      Wp t (rowByRow (f ())) Q s') :
    Wp t (rowByRow (query (.insertObjects chunk) >>= f)) Q s := by
  show Wp t (onConnection (insertObjectRows chunk >>= fun r => (f r).translate byRow)) Q s
  induction chunk generalizing rows s with
  | nil => exact h s hinv (by simpa using hs)
  | cons row rest ih =>
    refine wp_exec (holds_stable t rows keys) hs ?_
    rintro s' r s'' hinv' hholds ⟨heffect, _⟩
    obtain ⟨hinv'', hguar⟩ := query_keeps hinv' heffect
    obtain ⟨_, v, ⟨_, hv⟩, rfl⟩ := heffect
    refine ⟨hinv'', hguar, @ih (rows ++ [row.1]) _ hinv'' ?_ ?_⟩
    · refine holds_change ?_ (by simpa [hv, Shared.track] using hholds.2)
      intro row' hrow
      rcases List.mem_append.mp hrow with hrow | hrow
      · obtain ⟨text, htext⟩ := Option.isSome_iff_exists.mp (hholds.1 row' hrow)
        simp [hv, putAbsent, htext]
      · cases List.mem_singleton.mp hrow
        simp [hv, putAbsent_self]
    · intro s₃ hinv₃ hh
      exact h s₃ hinv₃ (by simpa using hh)

theorem wp_insertObjects {chunks : List (List (RowKey × String))}
    {Q : Except StoreError Unit → Shared T → Prop} (hinv : rules.inv s) (hs : Holds t rows keys s)
    (h : ∀ s', rules.inv s' → Holds t (rows ++ chunks.flatten.map Prod.fst) keys s' →
      Q (.ok ()) s') :
    Wp t (rowByRow (PostgresBackend.insertObjects chunks)) Q s := by
  induction chunks generalizing rows s with
  | nil =>
    refine wp_return hs ?_
    intro s' hinv' hh
    exact h s' hinv' (by simpa using hh)
  | cons chunk rest ih =>
    refine wp_insertObjectRows hinv hs ?_
    intro s' hinv' hh
    refine @ih (rows ++ chunk.map Prod.fst) _ hinv' hh ?_
    intro s'' hinv'' hh'
    refine h s'' hinv'' ?_
    rwa [List.flatten_cons, List.map_append, ← List.append_assoc]

theorem wp_fetchObjects {chunks : List (List RowKey)} {d : Dict RowKey String}
    {Q : Except StoreError (Dict RowKey String) → Shared T → Prop} (hs : Holds t rows keys s)
    (hsub : ∀ row ∈ chunks.flatten, row ∈ rows)
    (h : ∀ d' s', rules.inv s' → (∀ row, row ∈ chunks.flatten ∨ (d.get? row).isSome = true →
      (d'.get? row).isSome = true) → Q (.ok d') s') :
    Wp t (rowByRow (fetchAll (fun chunk => query (.selectObjects chunk)) chunks d)) Q s := by
  induction chunks generalizing d s with
  | nil =>
    refine wp_return hs ?_
    intro s' hinv _
    exact h d s' hinv (by simp)
  | cons chunk rest ih =>
    refine wp_query rfl hs ?_
    rintro s' found v hh ⟨rfl, hfound⟩ _
    refine ih ?_ ?_ ?_
    · exact holds_change hh.1 hh.2
    · intro row hrow
      exact hsub row (List.mem_append_right _ hrow)
    · intro d' s'' hinv hd'
      refine h d' s'' hinv ?_
      intro row hrow
      refine hd' row ?_
      rw [Dict.isSome_foldl_set, List.mem_map]
      rw [List.flatten_cons, List.mem_append] at hrow
      rcases hrow with (hrow | hrow) | hrow
      · -- a row this call sees is among those found
        obtain ⟨text, htext⟩ := Option.isSome_iff_exists.mp
          (hh.1 row (hsub row (List.mem_append_left _ hrow)))
        exact .inr (.inl ⟨(row, text), (hfound row text).mpr ⟨hrow, htext⟩, rfl⟩)
      · exact .inl hrow
      · exact .inr (.inr hrow)

/-- Each key is awaited from the moment its row is inserted or skipped. -/
theorem wp_insertBindingRows {chunk : List (String × RowKey)} {found : List String}
    {f : List String → Program α} {Q : Except StoreError α → Shared T → Prop}
    (hinv : rules.inv s) (hs : Holds t rows keys s)
    (h : ∀ found' s', rules.inv s' → Holds t rows (keys ++ chunk.map Prod.fst) s' →
      Wp t (rowByRow (f found')) Q s') :
    Wp t (onConnection (insertBindingRows chunk found >>= fun r => (f r).translate byRow)) Q s := by
  induction chunk generalizing keys found s with
  | nil => exact h found s hinv (by simpa using hs)
  | cons row rest ih =>
    refine wp_exec (holds_stable t rows keys) hs ?_
    rintro s' r s'' hinv' hholds ⟨heffect, _⟩
    obtain ⟨hinv'', hguar⟩ := query_keeps hinv' heffect
    obtain ⟨_, v, ⟨_, hv⟩, rfl⟩ := heffect
    refine ⟨hinv'', hguar, @ih (keys ++ [row.1]) _ _ hinv'' ?_ ?_⟩
    · refine holds_change (by simpa [hv] using hholds.1) ?_
      intro key hkey
      rcases List.mem_append.mp hkey with hkey | hkey
      · obtain ⟨hawaited, hbound⟩ := hholds.2 key hkey
        obtain ⟨reference, href⟩ := Option.isSome_iff_exists.mp hbound
        exact ⟨List.mem_cons_of_mem _ hawaited, by simp [hv, putAbsent, href]⟩
      · cases List.mem_singleton.mp hkey
        exact ⟨List.mem_cons_self, by simp [hv, putAbsent_self]⟩
    · intro found' s₃ hinv₃ hh
      exact h found' s₃ hinv₃ (by simpa using hh)

theorem wp_insertBindings {chunks : List (List BoundObjectWrite)} {found : List String}
    {Q : Except StoreError (List String) → Shared T → Prop} (hinv : rules.inv s)
    (hs : Holds t rows keys s)
    (h : ∀ found' s', rules.inv s' →
      Holds t rows (keys ++ chunks.flatten.map BoundObjectWrite.key) s' → Q (.ok found') s') :
    Wp t (rowByRow (gather (fun chunk => query (.insertBindings (bindingPairs chunk)))
      chunks found)) Q s := by
  induction chunks generalizing keys found s with
  | nil =>
    refine wp_return hs ?_
    intro s' hinv' hh
    exact h found s' hinv' (by simpa using hh)
  | cons chunk rest ih =>
    have hfst : (bindingPairs chunk).map Prod.fst = chunk.map BoundObjectWrite.key := by
      rw [bindingPairs, List.map_map]
      rfl
    refine wp_insertBindingRows hinv hs ?_
    intro inserted s' hinv' hh
    rw [hfst] at hh
    refine @ih (keys ++ chunk.map BoundObjectWrite.key) _ _ hinv' hh ?_
    intro found' s'' hinv'' hh'
    refine h found' s'' hinv'' ?_
    rwa [List.flatten_cons, List.map_append, ← List.append_assoc]

theorem wp_fetchBindings {chunks : List (List String)} {d : Dict String RowKey}
    {Q : Except StoreError (Dict String RowKey) → Shared T → Prop}
    (hnodup : chunks.flatten.Nodup) (hs : Holds t rows chunks.flatten s)
    (h : ∀ d' s', rules.inv s' → (∀ key, (d'.get? key).isSome = true ↔
      key ∈ chunks.flatten ∨ (d.get? key).isSome = true) → Q (.ok d') s') :
    Wp t (rowByRow (fetchAll (fun chunk => query (.selectBindings chunk)) chunks d)) Q s := by
  induction chunks generalizing d s with
  | nil =>
    refine wp_return hs ?_
    intro s' hinv _
    exact h d s' hinv (by simp)
  | cons chunk rest ih =>
    rw [List.flatten_cons, List.nodup_append] at hnodup
    obtain ⟨_, hrest, hdisjoint⟩ := hnodup
    refine wp_query rfl hs ?_
    rintro s' found v hh ⟨rfl, hfound⟩ _
    refine ih hrest ?_ ?_
    · -- the keys of the other chunks are still awaited
      refine holds_change hh.1 ?_
      intro key hkey
      obtain ⟨hawaited, hbound⟩ := hh.2 key (List.mem_append_right _ hkey)
      refine ⟨?_, hbound⟩
      simp only [Shared.track, List.mem_filter, decide_eq_true_eq]
      exact ⟨hawaited, fun hchunk => hdisjoint key hchunk key hkey rfl⟩
    · intro d' s'' hinv hd'
      refine h d' s'' hinv ?_
      intro key
      have hmem : key ∈ found.map Prod.fst ↔ key ∈ chunk := by
        rw [List.mem_map]
        constructor
        · rintro ⟨p, hp, rfl⟩
          exact ((hfound p.1 p.2).mp hp).1
        · intro hkey
          obtain ⟨r, hr⟩ := Option.isSome_iff_exists.mp
            (hh.2 key (List.mem_append_left _ hkey)).2
          exact ⟨(key, r), (hfound key r).mpr ⟨hkey, hr⟩, rfl⟩
      rw [hd', Dict.isSome_foldl_set, hmem, List.flatten_cons, List.mem_append]
      tauto

theorem wp_ofExcept {out : Except StoreError α} {Q : Except StoreError α → Shared T → Prop}
    (h : ∀ s', rules.inv s' → Q out s') : Wp t (rowByRow (Prog.ofExcept out)) Q s := by
  cases out with
  | ok a => exact fun s' _ hinv => h s' hinv
  | error e => exact fun s' _ hinv => h s' hinv

theorem wp_storeObjects {n : Nat} (hn : 0 < n) {objects : Dict RowKey String}
    (hinv : rules.inv s) :
    Wp t (rowByRow (PostgresBackend.storeObjects n objects)) (fun out s' => rules.inv s' ∧
      (out = .ok () ∨ ∃ schema contentHash, out = .error (.objectConflict schema contentHash)))
      s := by
  refine wp_then (fun out s' => out = .ok () ∧ rules.inv s' ∧ Holds t objects.keys [] s') hinv
    (wp_insertObjects hinv (holds_nil t s) ?_) ?_ ?_
  · intro s' hinv' hh
    rw [chunks_flatten hn] at hh
    exact ⟨rfl, hinv', hh⟩
  · rintro _ s' ⟨_, hinv', hh⟩
    refine wp_then (fun out s'' => ∃ stored, out = .ok stored ∧ rules.inv s'' ∧
      ∀ row ∈ objects.keys, (stored.get? row).isSome = true) hinv'
      (wp_fetchObjects hh ?_ ?_) ?_ ?_
    · intro row hrow
      rwa [chunks_flatten hn] at hrow
    · intro stored s'' hinv'' hstored
      rw [chunks_flatten hn] at hstored
      exact ⟨stored, rfl, hinv'', fun row hrow => hstored row (.inl hrow)⟩
    · rintro stored s'' ⟨_, heq, hinv'', hstored⟩
      cases heq
      refine wp_ofExcept fun s₃ hinv₃ => ⟨hinv₃, ?_⟩
      -- every offered row was read back: only its text can differ
      rcases PostgresBackend.compareObjects_spec stored objects.items
        (fun p hp => hstored p.1 (List.mem_map_of_mem hp)) with ⟨heq, _⟩ | ⟨⟨sch, hash, heq⟩, _⟩
      · exact .inl heq
      · exact .inr ⟨sch, hash, heq⟩
    · rintro e s'' ⟨_, heq, _⟩
      cases heq
  · rintro e s' ⟨heq, _⟩
    cases heq

theorem wp_storeBindings {n : Nat} (hn : 0 < n) {entries : List BoundObjectWrite}
    {objects : Dict RowKey String} {writes : Dict String BoundObjectWrite}
    (hd : PostgresBackend.Distinct entries objects writes) (hinv : rules.inv s) :
    Wp t (rowByRow (PostgresBackend.storeBindings n writes)) (fun out _ =>
      ∃ outcomes : Dict String BindOutcome, out = .ok outcomes ∧
        ∀ key ∈ writes.keys, (outcomes.get? key).isSome = true) s := by
  refine wp_then (fun out s' => ∃ inserted, out = .ok inserted ∧ rules.inv s' ∧
    Holds t [] writes.keys s') hinv (wp_insertBindings hinv (holds_nil t s) ?_) ?_ ?_
  · intro inserted s' hinv' hh
    rw [chunks_flatten hn, hd.keys_eq] at hh
    exact ⟨inserted, rfl, hinv', hh⟩
  · rintro inserted s' ⟨_, heq, hinv', hh⟩
    cases heq
    have hflat : (chunks n writes.keys).flatten = writes.keys := chunks_flatten hn _
    refine wp_then (fun out s'' => ∃ stored : Dict String RowKey, out = .ok stored ∧
      ∀ key, (stored.get? key).isSome = true ↔ key ∈ writes.keys) hinv'
      (wp_fetchBindings (by rw [hflat]; exact writes.nodup) (by rw [hflat]; exact hh) ?_) ?_ ?_
    · intro stored s'' _ hstored
      rw [hflat] at hstored
      exact ⟨stored, rfl, fun key => (hstored key).trans (by simp)⟩
    · rintro stored s'' ⟨_, heq, hstored⟩
      cases heq
      have hsame : PostgresBackend.sameKeys stored writes = true := by
        rw [PostgresBackend.sameKeys, Bool.and_eq_true, List.all_eq_true, List.all_eq_true]
        refine ⟨?_, ?_⟩
        · intro key hkey
          exact Dict.contains_iff.mpr ((hstored key).mp (Dict.contains_iff.mpr hkey))
        · intro key hkey
          exact (hstored key).mpr hkey
      rw [if_pos hsame]
      refine wp_return (holds_nil t _) fun _ _ _ => ⟨_, rfl, ?_⟩
      intro key hkey
      rw [Dict.get?_collect, if_pos hkey, Option.isSome_map]
      exact (hstored key).mpr hkey
    · rintro e s'' ⟨_, heq, _⟩
      cases heq
  · rintro e s' ⟨_, heq, _⟩
    cases heq

theorem wp_putBoundObjects {n : Nat} (hn : 0 < n) {entries : List BoundObjectWrite}
    (hinv : rules.inv s) :
    Wp t (rowByRow (PostgresBackend.putBoundObjectsOnConnection n entries)) (fun out _ =>
      (∃ outcomes : Dict String BindOutcome, out = .ok outcomes ∧
        ∀ e ∈ entries, (outcomes.get? e.key).isSome = true) ∨
      ∃ schema contentHash, out = .error (.objectConflict schema contentHash)) s := by
  unfold PostgresBackend.putBoundObjectsOnConnection
  cases hdw : PostgresBackend.distinctWrites entries Dict.empty Dict.empty with
  | error err =>
    obtain ⟨⟨schema, contentHash, rfl⟩, _⟩ := PostgresBackend.distinctWrites_error hdw
    exact fun _ _ _ => .inr ⟨schema, contentHash, rfl⟩
  | ok p =>
    obtain ⟨objects, writes⟩ := p
    have hd := PostgresBackend.distinctWrites_ok hdw
    rw [Prog.ofExcept_ok, Prog.pure_bind]
    refine wp_then _ hinv (wp_storeObjects hn hinv) ?_ ?_
    · rintro _ s' ⟨hinv', _⟩
      refine wp_mono ?_ (wp_storeBindings hn hd hinv')
      rintro _ _ _ ⟨outcomes, rfl, ho⟩
      exact .inl ⟨outcomes, rfl, fun e he =>
        ho e.key (hd.mem_keys.mpr (List.mem_map_of_mem he))⟩
    · rintro e s' ⟨_, heq | ⟨schema, contentHash, heq⟩⟩
      · cases heq
      · cases heq
        exact fun _ _ _ => .inr ⟨schema, contentHash, rfl⟩

/-! ## Calls -/

/-- A body without a failing branch. -/
theorem wp_returns {p : Program α} {Q : Except StoreError α → Prop} (hp : p.Returns)
    (h : ∀ a, Q (.ok a)) (s : Shared T) : Wp t (rowByRow p) (fun out _ => Q out) s := by
  have hp := returns_translate hp
  unfold rowByRow
  generalize p.translate byRow = p at hp ⊢
  induction p generalizing s with
  | pure a => exact fun _ _ _ => h a
  | fail e => cases hp
  | exec q k ih =>
    rintro s' _ hinv r s'' ⟨heffect, _⟩
    obtain ⟨hinv', hg⟩ := query_keeps hinv heffect
    exact ⟨hinv', hg, ih r s'' (hp r)⟩

/-- The call raised nothing but what its arguments or an object conflict account for, and a
writer has an outcome for every key it was asked for. -/
def Completes (call : Call) : Except StoreError Reply → Prop
  | .error e => call.validate = .error e ∨ ∃ entries schema contentHash,
      call = .putBoundObjects entries ∧ e = .objectConflict schema contentHash
  | .ok reply => match call with
    | .putObject _ _ _ => ∃ outcome, reply = .put outcome
    | .bind _ _ _ => ∃ outcome, reply = .bind outcome
    | .putBoundObjects entries => ∃ outcomes, reply = .outcomes outcomes ∧
        ∀ e ∈ entries, (outcomes.get? e.key).isSome = true
    | .deleteBindings _ => ∃ deleted, reply = .deleted deleted
    | _ => True

/-- A body whose result is wrapped as a reply. -/
theorem wp_wrapped {p : Program α} {f : α → Reply} {Q : Except StoreError Reply → Prop}
    (h : Wp t (rowByRow p) (fun out _ => Q (out.map f)) s) (hinv : rules.inv s) :
    Wp t (rowByRow (do return f (← p))) (fun out _ => Q out) s := by
  refine wp_then _ hinv h ?_ ?_
  · exact fun a s' hQ _ _ _ => hQ
  · exact fun e s' hQ _ _ _ => hQ

theorem call_completes (b : PostgresBackend) (call : Call) (s : Shared T) :
    Wp t ((b.program call).translate stmtByRow) (fun out _ => Completes call out) s := by
  cases call with
  | putObject schema contentHash canonical =>
    rw [PostgresBackend.program, transaction_translate]
    refine wp_transaction (fun s hinv => wp_wrapped ?_ hinv) s
    exact wp_putObject (fun outcome => ⟨outcome, rfl⟩) s
  | bind key schema contentHash =>
    rw [PostgresBackend.program, transaction_translate]
    refine wp_transaction (fun s hinv => wp_wrapped ?_ hinv) s
    exact wp_insertThenRead (fun outcome => ⟨outcome, rfl⟩) s
  | getObject schema contentHash =>
    rw [PostgresBackend.program, onConnection_translate]
    exact wp_returns ((returns_query _).bind fun _ => returns_pure _) (fun _ => trivial) s
  | getBinding key =>
    rw [PostgresBackend.program, onConnection_translate]
    exact wp_returns ((returns_query _).bind fun _ => returns_pure _) (fun _ => trivial) s
  | getBoundObjects keys =>
    rw [PostgresBackend.program]
    split
    · exact fun _ _ _ => trivial
    · rw [onConnection_translate]
      refine wp_returns (Prog.Returns.bind ?_ fun _ => returns_pure _) (fun _ => trivial) s
      refine (returns_fetchAll (fun _ => returns_query _) _ _).bind fun bindings => ?_
      exact (returns_fetchAll (fun _ => returns_query _) _ _).bind fun objects => returns_pure _
  | putBoundObjects entries =>
    rw [PostgresBackend.program]
    split
    · rename_i h
      subst h
      exact fun _ _ _ => ⟨_, rfl, by simp⟩
    · rw [transaction_translate]
      refine wp_transaction (fun s hinv => wp_wrapped ?_ hinv) s
      refine wp_mono ?_ (wp_putBoundObjects b.positive hinv)
      rintro _ _ _ (⟨outcomes, rfl, ho⟩ | ⟨schema, contentHash, rfl⟩)
      · exact ⟨outcomes, rfl, ho⟩
      · exact .inr ⟨entries, schema, contentHash, rfl, rfl⟩
  | deleteBindings keys =>
    rw [PostgresBackend.program]
    split
    · exact fun _ _ _ => ⟨_, rfl⟩
    · rw [transaction_translate]
      refine wp_transaction (fun s hinv => wp_wrapped ?_ hinv) s
      exact wp_returns (returns_gather (fun _ => returns_query _) _ _)
        (fun deleted => ⟨deleted, rfl⟩) s

theorem checked_completes (b : PostgresBackend) (call : Call) (s : Shared T) :
    Wp t ((checked call (b.program call)).translate stmtByRow) (fun out _ => Completes call out)
      s := by
  unfold checked
  split
  · rename_i e hv
    exact fun _ _ _ => .inl hv
  · exact call_completes b call s

/-! ## Runs -/

/-- **Writers survive every eviction that spares the keys they await.** In every run of
concurrent calls in which no deletion commits of a key that another call has offered and not
yet read back, a call that has ended has completed. One that has not can go on, or waits in the end
for one that can, unless calls wait for each other in a circle. -/
theorem writers_survive_quiet_evictions (b : PostgresBackend) (calls : T → Call)
    (tables : Tables) {c : Calls T}
    (hc : Reachable (readCommitted.restrict Quiet) (Shared.ofTables tables) (programs b calls) c) :
    (∀ t out, c.prog t = some (.ofExcept out) → Completes (calls t) out) ∧
      (Finite T → ¬ Deadlocked c → ∀ t op k, c.prog t = some (.exec op k) →
        ∃ u op k r s', Relation.ReflTransGen (WaitsFor c) t u ∧ c.prog u = some (.exec op k) ∧
          readCommitted.step u c.state op r s') := by
  have hinv : rules.inv (Shared.ofTables tables : Shared T) := by
    intro row u x hp
    cases hp
  have hkill : ∀ (t : T) s s', rules.inv s → quietRuns.kill t s s' →
      rules.inv s' ∧ rules.guar t s s' := by
    rintro t s _ hinv rfl
    exact rollback_keeps hinv
  obtain ⟨hinv', hthreads⟩ := reachable_wp (Q := fun t out _ => Completes (calls t) out) hinv
    hkill (fun t => checked_completes b (calls t) _) hc
  refine ⟨?_, ?_⟩
  · intro t out hp
    exact wp_ended hinv' out (hthreads t _ hp)
  · intro hfinite hdeadlock t op k hp
    exact calls_go_on hc.unrestrict hdeadlock hp

/-! ## A race -/

def raceHash : String := "e3b0c44298fc1c149afbf4c8996fb92427ae41e4649b934ca495991b7852b855"

/-- One call binds a key that is bound already, another evicts it. -/
def raceCalls : Bool → Call
  | true => .bind "k" "result" raceHash
  | false => .deleteBindings ["k"]

def raceTables : Tables :=
  ⟨fun _ => none, fun key => if key = "k" then some ("result", raceHash) else none⟩

def raceBackend : PostgresBackend := ⟨512, by decide⟩

theorem raceCalls_valid (t : Bool) : (raceCalls t).validate = .ok () := by
  cases t with
  | true => exact @validateReference_ok "result" raceHash (by decide) (by decide)
  | false => rfl

theorem programs_race (t : Bool) :
    programs raceBackend raceCalls t = (raceBackend.program (raceCalls t)).translate stmtByRow := by
  rw [programs, checked, raceCalls_valid]

section

variable {s : Shared Bool} (hrow : s.bindings "k" = .settled (some ("result", raceHash)))

include hrow

/-- What the deletion finds, and may delete at once. -/
theorem race_finds (key : String) (reference : RowKey) :
    (key, reference) ∈ [("k", "result", raceHash)] ↔
      key ∈ ["k"] ∧ (s.seen false).bindings key = some reference := by
  constructor
  · intro hmem
    cases List.mem_singleton.mp hmem
    exact ⟨List.mem_singleton.mpr rfl, by simp [Shared.seen, hrow]⟩
  · intro h
    obtain ⟨hkey, hfound⟩ := h
    cases List.mem_singleton.mp hkey
    simp only [Shared.seen, hrow, Version.view_settled, Option.some.injEq] at hfound
    rw [← hfound]
    exact List.mem_singleton.mpr rfl

theorem race_clear : s.Clear false (.deleteBindings ["k"]) := by
  intro key hkey _ hbusy
  obtain ⟨_, _, hp, _⟩ := hbusy
  cases List.mem_singleton.mp hkey
  rw [hrow] at hp
  cases hp

theorem race_deletes (key : String) :
    key ∈ ["k"] ↔ key ∈ ["k"] ∧ ((s.seen false).bindings key).isSome = true := by
  refine ⟨fun hkey => ⟨hkey, ?_⟩, And.left⟩
  cases List.mem_singleton.mp hkey
  simp [Shared.seen, hrow]

end

/-- The eviction commits after the read: the writer completes. -/
theorem writers_survive_late_eviction :
    ∃ c : Calls Bool,
      Reachable (readCommitted.restrict Quiet) (Shared.ofTables raceTables)
        (programs raceBackend raceCalls) c ∧
      c.prog true = some (.ofExcept (.ok (.bind ⟨false, "result", raceHash⟩))) ∧
      c.prog false = some (.ofExcept (.ok (.deleted ["k"]))) ∧
      Completes (raceCalls true) (.ok (.bind ⟨false, "result", raceHash⟩)) := by
  have h0 : Reachable (readCommitted.restrict Quiet) (Shared.ofTables raceTables)
      (programs raceBackend raceCalls)
      (start (Shared.ofTables raceTables) (programs raceBackend raceCalls)) := .refl
  have h1 := h0.exec (t := true) (r := ()) (congrArg some (programs_race true)) ⟨rfl, trivial⟩
  have h2 := h1.exec (t := true) (r := false) rfl
    ⟨⟨(by rintro ⟨_, _, hp, _⟩; cases hp), _, ⟨rfl, rfl⟩, rfl⟩, trivial⟩
  have h3 := h2.exec (t := false) (r := ()) (congrArg some (programs_race false)) ⟨rfl, trivial⟩
  have h4 := h3.exec (t := false) (r := [("k", "result", raceHash)]) rfl
    ⟨⟨trivial, _, ⟨rfl, fun key reference => race_finds rfl key reference⟩, rfl⟩, trivial⟩
  have h5 := h4.exec (t := false) (r := ["k"]) rfl
    ⟨⟨race_clear rfl, _, ⟨race_deletes rfl, rfl⟩, rfl⟩, trivial⟩
  -- the deletion is pending: the writer still sees the row
  have h6 := h5.exec (t := true) (r := some ("result", raceHash)) rfl
    ⟨⟨trivial, _, ⟨by decide, rfl⟩, rfl⟩, trivial⟩
  have h7 := h6.exec (t := true) (r := ()) rfl ⟨rfl, by
    intro key _ u hu hmem
    cases u with
    | true => exact hu rfl
    | false => cases hmem⟩
  have h8 := h7.exec (t := false) (r := ()) rfl ⟨rfl, by
    intro key _ u hu hmem
    cases u with
    | true => cases hmem
    | false => exact hu rfl⟩
  exact ⟨_, h8, rfl, rfl,
    (writers_survive_quiet_evictions raceBackend raceCalls raceTables h8).1 true _ rfl⟩

/-- The eviction commits between the skipped insert and the read: the assertion fails. -/
theorem eviction_breaks_bind :
    ∃ c : Calls Bool,
      Reachable readCommitted (Shared.ofTables raceTables) (programs raceBackend raceCalls) c ∧
      c.prog true = some (.ofExcept (.error .assertionError)) ∧
      ¬ Completes (raceCalls true) (.error .assertionError) := by
  have h0 : Reachable readCommitted (Shared.ofTables raceTables) (programs raceBackend raceCalls)
      (start (Shared.ofTables raceTables) (programs raceBackend raceCalls)) := .refl
  have h1 := h0.exec (t := true) (r := ()) (congrArg some (programs_race true)) rfl
  -- the key is bound: the insert is skipped
  have h2 := h1.exec (t := true) (r := false) rfl
    ⟨(by rintro ⟨_, _, hp, _⟩; cases hp), _, ⟨rfl, rfl⟩, rfl⟩
  have h3 := h2.exec (t := false) (r := ()) (congrArg some (programs_race false)) rfl
  have h4 := h3.exec (t := false) (r := [("k", "result", raceHash)]) rfl
    ⟨trivial, _, ⟨rfl, fun key reference => race_finds rfl key reference⟩, rfl⟩
  have h5 := h4.exec (t := false) (r := ["k"]) rfl
    ⟨race_clear rfl, _, ⟨race_deletes rfl, rfl⟩, rfl⟩
  have h6 := h5.exec (t := false) (r := ()) rfl rfl
  -- the row is gone when the writer reads it back
  have h7 := h6.exec (t := true) (r := none) rfl ⟨trivial, _, ⟨by decide, rfl⟩, rfl⟩
  have h8 := h7.exec (t := true) (r := ()) rfl rfl
  refine ⟨_, h8, rfl, ?_⟩
  rintro (hv | ⟨_, _, _, heq, _⟩)
  · rw [raceCalls_valid] at hv
    cases hv
  · cases heq

end DrStore.Store.Eviction
