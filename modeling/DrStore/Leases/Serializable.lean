import DrStore.Base.Pool
import DrStore.Leases.Refinement

/-! # Concurrent PostgreSQL transactions on one key

`Cell` is what READ COMMITTED keeps for one key: the committed row, the transaction that locks
it (by SELECT … FOR UPDATE, by an update, or by an insert nobody else sees yet) and that
transaction's uncommitted row. Statements that would have to wait have no step. The log lists
the committed transactions in order with the row each left behind; it is history, no statement
reads it. Rows of other keys are not tracked: a statement on one may reply anything. -/
namespace DrStore.Leases.Serializable
open DrStore.Base.Calendar DrStore.Base.Programs DrStore.Base.Pool
open DrStore.Leases.Models DrStore.Leases.Authority DrStore.Leases.Protocol
open DrStore.Leases.RowEncoding DrStore.Leases.SqlStores DrStore.Leases.Refinement
open DrStore.Leases.Failures DrStore.Leases.History

variable {T : Type} [DecidableEq T]

/-! ## The engine -/

structure Cell (T : Type) where
  committed : Option RawRow
  holder : Option T
  dirty : Option RawRow
  log : List (T × Option RawRow)

/-- The row transaction `t` sees: its own uncommitted one, else the committed one. -/
def Cell.visible (s : Cell T) (t : T) : Option RawRow :=
  if s.holder = some t then s.dirty.or s.committed else s.committed

/-- No other transaction locks the row. -/
def Cell.Free (s : Cell T) (t : T) : Prop := s.holder = none ∨ s.holder = some t

def Cell.release (s : Cell T) (t : T) : Cell T :=
  if s.holder = some t then { s with holder := none, dirty := none } else s

def Cell.commit (s : Cell T) (t : T) : Cell T :=
  { s.release t with committed := s.visible t, log := s.log ++ [(t, s.visible t)] }

def cellStep (key : String) (t : T) (s : Cell T) :
    (stmt : Stmt) → StmtReply stmt → Cell T → Prop
  | .begin, _, s' => s' = s
  | .selectNow, reply, s' => s' = s ∧ ∃ now : Datetime, reply = some (.text now.isoformat)
  | .selectRow k, reply, s' =>
    (k ≠ key ∧ s' = s) ∨
    -- nothing visible, nothing to lock: in particular, an uncommitted insert is not waited for
    (k = key ∧ s.visible t = none ∧ reply = none ∧ s' = s) ∨
    (k = key ∧ s.Free t ∧ ∃ row, s.visible t = some row ∧ reply = some row ∧
      s' = { s with holder := some t })
  | .insertIfAbsent k row, reply, s' =>
    (k ≠ key ∧ s' = s) ∨
    (k = key ∧ checkRow row = false ∧ reply = .error checkError ∧ s' = s) ∨
    (k = key ∧ checkRow row = true ∧ (s.visible t).isSome = true ∧ reply = .ok false ∧ s' = s) ∨
    -- waits while another transaction's insert is uncommitted
    (k = key ∧ checkRow row = true ∧ s.visible t = none ∧ s.Free t ∧ reply = .ok true ∧
      s' = { s with holder := some t, dirty := some row })
  | .updateRow k row expected, reply, s' =>
    (k ≠ key ∧ s' = s) ∨
    (k = key ∧ s.visible t = none ∧ reply = .ok 0 ∧ s' = s) ∨
    (k = key ∧ s.Free t ∧ s.visible t ≠ some expected ∧ reply = .ok 0 ∧ s' = s) ∨
    (k = key ∧ s.Free t ∧ s.visible t = some expected ∧ checkRow row = false ∧
      reply = .error checkError ∧ s' = s) ∨
    (k = key ∧ s.Free t ∧ s.visible t = some expected ∧ checkRow row = true ∧ reply = .ok 1 ∧
      s' = { s with holder := some t, dirty := some row })
  | .commit, _, s' => s' = s.commit t
  | .rollback, _, s' => s' = s.release t
  -- SQLite's statement
  | .insertRow _ _, _, _ => False

/-- Transactions on `key`; one that aborts releases its lock and its uncommitted row. -/
def engine (key : String) : System T (Cell T) Stmt StmtReply where
  step := cellStep key
  kill t s s' := s' = s.release t

/-! ## Serial runs -/

/-- The row value after the transactions of a log. -/
def lastValue (first : Option RawRow) (log : List (T × Option RawRow)) : Option RawRow :=
  (log.getLast?.map Prod.snd).getD first

omit [DecidableEq T] in
@[simp] theorem lastValue_concat (first : Option RawRow) (log : List (T × Option RawRow)) (t : T)
    (v : Option RawRow) : lastValue first (log ++ [(t, v)]) = v := by
  simp [lastValue]

section
variable (codec : Codec) (key : String) (tr : T → Transition Reply) (first : Option LeaseRow)

/-- `t` ran after the transactions of `before`, on the row they left, and left `v`. -/
def RanAfter (before : List (T × Option RawRow)) (t : T) (v : Option RawRow) (result : Reply) :
    Prop :=
  ∃ row row' now, lastValue (first.map (rowUpdateValues codec)) before =
      row.map (rowUpdateValues codec) ∧ v = row'.map (rowUpdateValues codec) ∧
    tr t row now = .ok (row', result)

/-- The log is a serial run of the transitions. -/
def Serial (log : List (T × Option RawRow)) : Prop :=
  ∀ before t v after, log = before ++ (t, v) :: after →
    ∃ result, RanAfter codec tr first before t v result

/-- The call of `t` returned `result`, which is its transition's result at its place in the
serial run. -/
def Served (t : T) (result : Reply) (s : Cell T) : Prop :=
  ∃ before v after, s.log = before ++ (t, v) :: after ∧ RanAfter codec tr first before t v result

/-- The call of `t` raised its transition's error, and is not in the serial run. -/
def Rejected (t : T) (e : LeaseError) (s : Cell T) : Prop :=
  t ∉ s.log.map Prod.fst ∧ ∃ row now, RowOk key row ∧ tr t row now = .error e

structure CellInv (s : Cell T) : Prop where
  clean : s.holder = none → s.dirty = none
  serial : Serial codec tr first s.log
  nodup : (s.log.map Prod.fst).Nodup
  last : s.committed = lastValue (first.map (rowUpdateValues codec)) s.log
  legal : ∃ row, RowOk key row ∧ s.committed = row.map (rowUpdateValues codec)

/-- What transaction `t` may do to the cell: it appends only itself to the log, leaves a cell
that another transaction locks alone, takes locks only for itself, and never removes the row. -/
structure Guar (t : T) (s s' : Cell T) : Prop where
  log : s'.log = s.log ∨ ∃ v, s'.log = s.log ++ [(t, v)]
  locked : ∀ u, u ≠ t → s.holder = some u →
    s'.holder = s.holder ∧ s'.dirty = s.dirty ∧ s'.committed = s.committed
  takes : ∀ u, u ≠ t → s'.holder = some u → s.holder = some u
  keeps : s.committed.isSome = true → s'.committed.isSome = true

def rules : Rules T (Cell T) := ⟨CellInv codec key tr first, Guar⟩

end

/-! ## What the others leave alone -/

variable {codec : Codec} {key : String} {tr : T → Transition Reply} {first : Option LeaseRow}
variable {t : T} {s s' : Cell T}

/-- `t` holds no lock and has not committed. -/
structure Idle (t : T) (s : Cell T) : Prop where
  unlocked : s.holder ≠ some t
  uncommitted : t ∉ s.log.map Prod.fst

/-- `t` has locked the committed row `old` and not written. -/
structure Locked (codec : Codec) (t : T) (old : LeaseRow) (s : Cell T) : Prop where
  holder : s.holder = some t
  dirty : s.dirty = none
  committed : s.committed = some (rowUpdateValues codec old)
  uncommitted : t ∉ s.log.map Prod.fst

/-- `t` holds the lock and sees the row its transition left; a commit makes it the row. -/
structure Ready (codec : Codec) (key : String) (tr : T → Transition Reply) (t : T)
    (result : Reply) (s : Cell T) : Prop where
  holder : s.holder = some t
  uncommitted : t ∉ s.log.map Prod.fst
  ran : ∃ row row' now, RowOk key row' ∧ s.committed = row.map (rowUpdateValues codec) ∧
    s.visible t = row'.map (rowUpdateValues codec) ∧ tr t row now = .ok (row', result)

omit [DecidableEq T] in
theorem Guar.not_mem_log {u : T} (hg : Guar u s s') (hu : u ≠ t) (h : t ∉ s.log.map Prod.fst) :
    t ∉ s'.log.map Prod.fst := by
  rcases hg.log with hlog | ⟨v, hlog⟩
  · rw [hlog]
    exact h
  · rw [hlog]
    simp only [List.map_append, List.map_cons, List.map_nil, List.mem_append, List.mem_singleton,
      not_or]
    exact ⟨h, Ne.symm hu⟩

omit [DecidableEq T] in
theorem stable_idle : Stable (rules codec key tr first) t (Idle t) := by
  rintro s s' ⟨-, -, u, hu, hg⟩ h
  exact ⟨fun hh => h.unlocked (hg.takes t (Ne.symm hu) hh), hg.not_mem_log hu h.uncommitted⟩

omit [DecidableEq T] in
theorem stable_present : Stable (rules codec key tr first) t
    (fun s => s.committed.isSome = true) := by
  rintro s s' ⟨-, -, u, -, hg⟩ h
  exact hg.keeps h

omit [DecidableEq T] in
theorem stable_locked (old : LeaseRow) :
    Stable (rules codec key tr first) t (Locked codec t old) := by
  rintro s s' ⟨-, -, u, hu, hg⟩ h
  obtain ⟨h1, h2, h3⟩ := hg.locked t (Ne.symm hu) h.holder
  exact ⟨h1.trans h.holder, h2.trans h.dirty, h3.trans h.committed, hg.not_mem_log hu h.uncommitted⟩

theorem stable_ready (result : Reply) :
    Stable (rules codec key tr first) t (Ready codec key tr t result) := by
  rintro s s' ⟨-, -, u, hu, hg⟩ h
  obtain ⟨h1, h2, h3⟩ := hg.locked t (Ne.symm hu) h.holder
  have hv : s'.visible t = s.visible t := by
    rw [Cell.visible, Cell.visible, h1, h2, h3]
  refine ⟨h1.trans h.holder, hg.not_mem_log hu h.uncommitted, ?_⟩
  rw [h3, hv]
  exact h.ran

omit [DecidableEq T] in
theorem stable_rejected (e : LeaseError) :
    Stable (rules codec key tr first) t (Rejected key tr t e) := by
  rintro s s' ⟨-, -, u, hu, hg⟩ ⟨h, herr⟩
  exact ⟨hg.not_mem_log hu h, herr⟩

omit [DecidableEq T] in
theorem stable_served (result : Reply) :
    Stable (rules codec key tr first) t (Served codec tr first t result) := by
  rintro s s' ⟨-, -, u, -, hg⟩ ⟨before, v, after, hlog, hran⟩
  rcases hg.log with hlog' | ⟨w, hlog'⟩
  · exact ⟨before, v, after, hlog'.trans hlog, hran⟩
  · refine ⟨before, v, after ++ [(u, w)], ?_, hran⟩
    rw [hlog', hlog]
    simp

/-! ## What each statement guarantees -/

omit [DecidableEq T] in
theorem guar_refl (t : T) (s : Cell T) : Guar t s s :=
  ⟨Or.inl rfl, fun _ _ _ => ⟨rfl, rfl, rfl⟩, fun _ _ h => h, fun h => h⟩

omit [DecidableEq T] in
/-- Locking a free row, with or without a write, is within the guarantee. -/
theorem guar_lock {d : Option RawRow} (hf : s.Free t) :
    Guar t s { s with holder := some t, dirty := d } where
  log := Or.inl rfl
  locked := by
    intro u hu hs
    rcases hf with h | h <;> rw [h] at hs <;> cases hs
    exact absurd rfl hu
  takes := by
    intro u hu hs
    cases hs
    exact absurd rfl hu
  keeps := fun h => h

omit [DecidableEq T] in
theorem inv_lock {d : Option RawRow} (h : CellInv codec key tr first s) :
    CellInv codec key tr first { s with holder := some t, dirty := d } :=
  ⟨(fun hn => by cases hn), h.serial, h.nodup, h.last, h.legal⟩

theorem release_spec (h : CellInv codec key tr first s) :
    CellInv codec key tr first (s.release t) ∧ Guar t s (s.release t) ∧
      (s.release t).log = s.log ∧ (s.release t).holder ≠ some t := by
  unfold Cell.release
  split
  · rename_i hh
    refine ⟨⟨fun _ => rfl, h.serial, h.nodup, h.last, h.legal⟩, ⟨Or.inl rfl, ?_, ?_, fun h => h⟩,
      rfl, by simp⟩
    · intro u hu hs
      rw [hh] at hs
      cases hs
      exact absurd rfl hu
    · intro u hu hs
      cases hs
  · rename_i hh
    exact ⟨h, guar_refl t s, rfl, hh⟩

/-- A ready transaction that commits becomes the last of the serial run. -/
theorem commit_spec {result : Reply} (h : CellInv codec key tr first s)
    (hr : Ready codec key tr t result s) :
    CellInv codec key tr first (s.commit t) ∧ Guar t s (s.commit t) ∧
      Served codec tr first t result (s.commit t) := by
  obtain ⟨row, row', now, hok, hcommitted, hvisible, htr⟩ := hr.ran
  have hrelease : s.release t = { s with holder := none, dirty := none } := if_pos hr.holder
  have hstate : s.commit t = ⟨s.visible t, none, none, s.log ++ [(t, s.visible t)]⟩ := by
    rw [Cell.commit, hrelease]
  have hran : RanAfter codec tr first s.log t (s.visible t) result :=
    ⟨row, row', now, by rw [← h.last, hcommitted], hvisible, htr⟩
  rw [hstate]
  refine ⟨⟨fun _ => rfl, ?_, ?_, ?_, row', hok, hvisible⟩, ⟨Or.inr ⟨_, rfl⟩, ?_, ?_, ?_⟩,
    ⟨s.log, _, [], rfl, hran⟩⟩
  · intro before u v after hlog
    rcases List.eq_nil_or_concat after with rfl | ⟨after', last, rfl⟩
    · obtain ⟨hbefore, hlast⟩ := List.append_inj' hlog rfl
      cases hlast
      rw [← hbefore]
      exact ⟨result, hran⟩
    · rw [List.concat_eq_append, ← List.cons_append, ← List.append_assoc] at hlog
      obtain ⟨hbefore, -⟩ := List.append_inj' hlog rfl
      exact h.serial before u v after' hbefore
  · simp only [List.map_append, List.map_cons, List.map_nil]
    rw [List.nodup_append]
    refine ⟨h.nodup, by simp, ?_⟩
    intro a ha b hb heq
    simp only [List.mem_singleton] at hb
    exact hr.uncommitted (hb ▸ heq ▸ ha)
  · simp
  · intro u hu hs
    rw [hr.holder] at hs
    cases hs
    exact absurd rfl hu
  · intro u hu hs
    cases hs
  · intro hsome
    simp only [Cell.visible, if_pos hr.holder]
    cases s.dirty with
    | none => exact hsome
    | some d => rfl

/-! ## The transaction program -/

/-- How a transaction stands when its body has ended. -/
def BodyEnd (codec : Codec) (key : String) (tr : T → Transition Reply) (t : T) :
    Except LeaseError Reply → Cell T → Prop
  | .ok result, s => Ready codec key tr t result s
  | .error e, s => Rejected key tr t e s

theorem wp_ready {result : Reply} (h : Ready codec key tr t result s) :
    wp (engine key) (rules codec key tr first) t (.pure result : SqlProg Reply)
      (BodyEnd codec key tr t) s :=
  wp_pure (stable_ready result) h fun _ _ h => h

theorem wp_rejected {e : LeaseError} (h : Rejected key tr t e s) :
    wp (engine key) (rules codec key tr first) t (.fail e : SqlProg Reply)
      (BodyEnd codec key tr t) s :=
  wp_fail (stable_rejected e) h fun _ _ h => h

/-- Reading the clock keeps whatever the others keep. -/
theorem wp_databaseNow {A : Cell T → Prop} {f : Datetime → SqlProg Reply}
    {Q : Except LeaseError Reply → Cell T → Prop} (hA : Stable (rules codec key tr first) t A)
    (hs : A s)
    (h : ∀ now s', CellInv codec key tr first s' → A s' →
      wp (engine key) (rules codec key tr first) t (f now) Q s') :
    wp (engine key) (rules codec key tr first) t (PostgreSQLStore.databaseNow codec >>= f) Q s := by
  refine wp_exec hA hs ?_
  rintro s' r s'' hinv hA' ⟨rfl, now, rfl⟩
  refine ⟨hinv, guar_refl t _, ?_⟩
  show wp _ _ _ (Prog.ofExcept (readNow codec "PostgreSQL" (some (.text now.isoformat))) >>= f) _ _
  rw [readNow_isoformat]
  exact h now s'' hinv hA'

/-- What the transitions of authority calls do on legal rows: they leave a present, legal row,
and one that compares equal only if it is the same. -/
def Lawful (key : String) (tr : Transition Reply) : Prop :=
  ∀ row now row' result, RowOk key row → tr row now = .ok (row', result) →
    RowOk key row' ∧ Writes row row' ∧ ∃ new, row' = some new

theorem callStep_present {host call key now row row' reply}
    (h : CallStep host call key now row row' reply) : ∃ new, row' = some new := by
  cases h with
  | acquire h => cases h <;> exact ⟨_, rfl⟩
  | renew h => cases h <;> exact ⟨_, rfl⟩
  | succeed _ h | fail _ h | verify _ h => cases h <;> exact ⟨_, rfl⟩

theorem prepare_lawful {host : Host} {kind : StoreKind} {call : Call} {tr : Transition Reply}
    (hp : call.prepare host kind = .ok (key, tr)) : Lawful key tr := by
  intro row now row' result hrow htr
  have h := prepare_step hp (fun x hx => (hrow x hx).1) htr
  exact ⟨h.rowOk hrow, CallStep.writes h, callStep_present h⟩

theorem Locked.visible {old : LeaseRow} (h : Locked codec t old s) :
    s.visible t = some (rowUpdateValues codec old) := by
  rw [Cell.visible, if_pos h.holder, h.dirty, h.committed]
  rfl

/-- On a locked row the end of the body leaves the transaction ready: the update it issues
cannot miss. -/
theorem wp_finish {old : LeaseRow} {updated : Option LeaseRow} {now : Datetime} {result : Reply}
    (hlaw : Lawful key (tr t)) (hold : RowOk key (some old)) (hs : Locked codec t old s)
    (htr : tr t (some old) now = .ok (updated, result)) :
    wp (engine key) (rules codec key tr first) t
      (if rowEq updated (some old) then pure result
        else PostgreSQLStore.updateRow codec key old updated result)
      (BodyEnd codec key tr t) s := by
  obtain ⟨hrow, hw, new, rfl⟩ := hlaw _ _ _ _ hold htr
  rcases hw with hsame | ⟨hne, -⟩
  · rw [hsame, rowEq_refl, if_pos rfl]
    rw [hsame] at htr
    exact wp_ready ⟨hs.holder, hs.uncommitted, some old, some old, now, hold, hs.committed,
      hs.visible, htr⟩
  · rw [hne, if_neg (by decide)]
    have hcheck : checkRow (rowUpdateValues codec new) = true := checkRow_columns (hrow new rfl).1
    refine wp_exec (stable_locked old) hs ?_
    rintro s' r s'' hinv hl (⟨hk, -⟩ | ⟨-, hv, -⟩ | ⟨-, -, hv, -⟩ | ⟨-, -, -, hc, -⟩ |
      ⟨-, hf, -, -, rfl, rfl⟩)
    · exact absurd rfl hk
    · rw [hl.visible] at hv
      cases hv
    · exact absurd hl.visible hv
    · rw [hcheck] at hc
      cases hc
    · refine ⟨inv_lock hinv, guar_lock hf, wp_ready ⟨rfl, hl.uncommitted, ?_⟩⟩
      refine ⟨some old, some new, now, hrow, hl.committed, ?_, htr⟩
      simp [Cell.visible]

/-- A SELECT … FOR UPDATE locks the committed row, which decodes. -/
theorem wp_selectRow {A : Cell T → Prop} {f : Option LeaseRow → SqlProg Reply}
    {Q : Except LeaseError Reply → Cell T → Prop} (hc : codec.Faithful)
    (hA : Stable (rules codec key tr first) t A) (hs : A s) (hidle : ∀ s, A s → Idle t s)
    (habsent : ∀ s', CellInv codec key tr first s' → A s' → s'.committed = none →
      wp (engine key) (rules codec key tr first) t (f none) Q s')
    (hpresent : ∀ s' old, CellInv codec key tr first s' → RowOk key (some old) →
      Locked codec t old s' → wp (engine key) (rules codec key tr first) t (f (some old)) Q s') :
    wp (engine key) (rules codec key tr first) t
      (Sql.selectRow key >>= fun raw => Prog.ofExcept (decodeRow codec key raw) >>= f) Q s := by
  refine wp_exec hA hs ?_
  intro s' r s'' hinv hA' hstep
  have hidle' := hidle s' hA'
  have hvisible : s'.visible t = s'.committed := if_neg hidle'.unlocked
  obtain ⟨row, hrow, hcommitted⟩ := hinv.legal
  rcases hstep with ⟨hk, -⟩ | ⟨-, hv, rfl, rfl⟩ | ⟨-, hf, raw, hv, rfl, rfl⟩
  · exact absurd rfl hk
  · exact ⟨hinv, guar_refl t _, habsent _ hinv hA' (hvisible.symm.trans hv)⟩
  · rw [hvisible] at hv
    have hnone : s'.holder = none := by
      rcases hf with h | h
      · exact h
      · exact absurd h hidle'.unlocked
    have hsame : { s' with holder := some t } = { s' with holder := some t, dirty := none } := by
      rw [hinv.clean hnone]
    rw [hcommitted] at hv
    cases row with
    | none => cases hv
    | some old =>
      cases hv
      have hdecode : decodeRow codec key (some (rowUpdateValues codec old)) = .ok (some old) :=
        decodeRow_columns hc hrow
      have hlocked : Locked codec t old { s' with holder := some t, dirty := none } :=
        ⟨rfl, rfl, hcommitted, hidle'.uncommitted⟩
      rw [hsame]
      refine ⟨inv_lock hinv, guar_lock hf, ?_⟩
      show wp _ _ _ (Prog.ofExcept (decodeRow codec key (some (rowUpdateValues codec old))) >>= f) _ _
      rw [hdecode]
      exact hpresent _ old (inv_lock hinv) hrow hlocked

/-- The rest of a transaction that has locked `old`: time, transition, write. -/
theorem wp_locked {old : LeaseRow} (hlaw : Lawful key (tr t)) (hold : RowOk key (some old))
    (hs : Locked codec t old s) :
    wp (engine key) (rules codec key tr first) t
      (PostgreSQLStore.databaseNow codec >>= fun now =>
        Prog.ofExcept (tr t (some old) now) >>= fun out =>
          if rowEq out.1 (some old) then pure out.2
          else PostgreSQLStore.updateRow codec key old out.1 out.2)
      (BodyEnd codec key tr t) s := by
  refine wp_databaseNow (stable_locked old) hs ?_
  intro now s' _ hl
  cases htr : tr t (some old) now with
  | error e => exact wp_rejected ⟨hl.uncommitted, some old, now, hold, htr⟩
  | ok out => exact wp_finish hlaw hold hl htr

theorem wp_retry (hc : codec.Faithful) (hlaw : Lawful key (tr t)) (hidle : Idle t s)
    (hpresent : s.committed.isSome = true) :
    wp (engine key) (rules codec key tr first) t (PostgreSQLStore.retry codec key (tr t))
      (BodyEnd codec key tr t) s := by
  refine wp_selectRow hc (stable_idle.and stable_present) ⟨hidle, hpresent⟩ (fun _ h => h.1) ?_ ?_
  · -- the row that won the insert is committed, and rows are never removed
    intro s' _ hA hnone
    rw [hnone] at hA
    cases hA.2
  · intro s' old _ hold hl
    exact wp_locked hlaw hold hl

theorem wp_body (hc : codec.Faithful) (hlaw : Lawful key (tr t)) (hidle : Idle t s) :
    wp (engine key) (rules codec key tr first) t (PostgreSQLStore.body codec key (tr t))
      (BodyEnd codec key tr t) s := by
  refine wp_selectRow hc stable_idle hidle (fun _ h => h) ?_ ?_
  · intro s' _ hi _
    refine wp_databaseNow stable_idle hi ?_
    intro now s₂ _ hi₂
    cases htr : tr t none now with
    | error e => exact wp_rejected ⟨hi₂.uncommitted, none, now, rowOk_none key, htr⟩
    | ok out =>
      obtain ⟨updated, result⟩ := out
      obtain ⟨hrow, -, new, rfl⟩ := hlaw _ _ _ _ (rowOk_none key) htr
      obtain ⟨hshape, hkey⟩ := hrow new rfl
      have hcheck : checkRow (rowInsertValues codec new).2 = true := checkRow_columns hshape
      refine wp_exec stable_idle hi₂ ?_
      rintro s₃ r s₄ hinv hi₃ (⟨hk, -⟩ | ⟨-, hf, -⟩ | ⟨-, -, hv, rfl, rfl⟩ |
        ⟨-, -, hv, hf, rfl, rfl⟩)
      · exact absurd hkey hk
      · rw [hcheck] at hf
        cases hf
      · have hcommitted : s₄.committed.isSome = true := by
          rw [← hv, Cell.visible, if_neg hi₃.unlocked]
        exact ⟨hinv, guar_refl t _, wp_retry hc hlaw hi₃ hcommitted⟩
      · have hcommitted : s₃.committed = none := by
          rw [← hv, Cell.visible, if_neg hi₃.unlocked]
        refine ⟨inv_lock hinv, guar_lock hf, wp_ready ⟨rfl, hi₃.uncommitted, ?_⟩⟩
        refine ⟨none, some new, now, hrow, hcommitted, ?_, htr⟩
        simp [Cell.visible, rowUpdateValues]
  · intro s' old _ hold hl
    exact wp_locked hlaw hold hl

/-- How a transaction has ended. -/
def TransactionEnd (codec : Codec) (key : String) (tr : T → Transition Reply)
    (first : Option LeaseRow) (t : T) : Except LeaseError Reply → Cell T → Prop
  | .ok result, s => Served codec tr first t result s
  | .error e, s => Rejected key tr t e s

theorem wp_transaction (hc : codec.Faithful) (hlaw : Lawful key (tr t)) (hidle : Idle t s) :
    wp (engine key) (rules codec key tr first) t (PostgreSQLStore.transaction codec key (tr t))
      (TransactionEnd codec key tr first t) s := by
  refine wp_exec stable_idle hidle ?_
  rintro s' r s'' hinv' hi rfl
  refine ⟨hinv', guar_refl t _, ?_⟩
  show wp _ _ _ ((PostgreSQLStore.body codec key (tr t)).settle _) _ _
  refine wp_settle hinv' ?_
  have hbody := @wp_body T _ codec key tr first t s'' hc hlaw hi
  refine wp_mono ?_ hbody
  intro out s₁ _ hend
  cases out with
  | error e =>
    refine wp_exec (stable_rejected e) hend ?_
    rintro s₂ r s₃ hinv₂ hrej rfl
    obtain ⟨hi', hg, hlog, -⟩ := @release_spec T _ codec key tr first t s₂ hinv₂
    refine ⟨hi', hg, wp_fail (stable_rejected e) ?_ fun _ _ h => h⟩
    rw [Rejected, hlog]
    exact hrej
  | ok result =>
    refine wp_exec (stable_ready result) hend ?_
    rintro s₂ r s₃ hinv₂ hready rfl
    obtain ⟨hi', hg, hserved⟩ := commit_spec hinv₂ hready
    exact ⟨hi', hg, wp_pure (stable_served result) hserved fun _ _ h => h⟩

/-! ## Every interleaving -/

def freshCell (codec : Codec) (first : Option LeaseRow) : Cell T :=
  ⟨first.map (rowUpdateValues codec), none, none, []⟩

omit [DecidableEq T] in
theorem freshCell_inv (hfirst : RowOk key first) :
    CellInv codec key tr first (freshCell codec first) where
  clean := fun _ => rfl
  serial := by
    intro before t v after h
    simp [freshCell] at h
  nodup := List.nodup_nil
  last := rfl
  legal := ⟨first, hfirst, rfl⟩

/-- A configuration of concurrent calls is explained by the serial run in its log. -/
structure SerialHistory (codec : Codec) (key : String) (tr : T → Transition Reply)
    (first : Option LeaseRow) (c : Config T (Cell T) Stmt StmtReply LeaseError Reply) : Prop where
  serial : Serial codec tr first c.state.log
  each_once : (c.state.log.map Prod.fst).Nodup
  nothing_lost : c.state.committed = lastValue (first.map (rowUpdateValues codec)) c.state.log
  returned : ∀ t result, c.prog t = some (.pure result) →
    Served codec tr first t result c.state
  raised : ∀ t e, c.prog t = some (.fail e) → Rejected key tr t e c.state ∧ internal e = false

/-- **Lease transactions on one key are serializable**, under any interleaving of any number of
calls, any of which may abort at any point. -/
theorem lease_transactions_serializable (host : Host) (codec : Codec) (hc : codec.Faithful)
    (key : String) (calls : T → Call) (tr : T → Transition Reply)
    (hp : ∀ t, (calls t).prepare host .postgresql = .ok (key, tr t)) (first : Option LeaseRow)
    (hfirst : RowOk key first) {c : Config T (Cell T) Stmt StmtReply LeaseError Reply}
    (hreach : Reachable (engine key) (freshCell codec first)
      (fun t => PostgreSQLStore.transaction codec key (tr t)) c) :
    SerialHistory codec key tr first c := by
  have hfresh : CellInv codec key tr first (freshCell codec first) := freshCell_inv hfirst
  obtain ⟨hinv, hthreads⟩ := @reachable_wp _ _ _ _ _ _ (engine key) (rules codec key tr first) _ _ _
    (TransactionEnd codec key tr first) hfresh
    (fun t s s' hi hkill => by
      cases hkill
      obtain ⟨hi', hg, -, -⟩ := @release_spec T _ codec key tr first t s hi
      exact ⟨hi', hg⟩)
    (fun t => wp_transaction hc (prepare_lawful (hp t))
      ⟨by simp [freshCell], by simp [freshCell]⟩) c hreach
  refine ⟨hinv.serial, hinv.nodup, hinv.last, ?_, ?_⟩
  · intro t result hpure
    exact wp_ended hinv (.ok result) (hthreads t _ hpure)
  · intro t e hfail
    have hrej : Rejected key tr t e c.state := wp_ended hinv (.error e) (hthreads t _ hfail)
    obtain ⟨-, row, now, hrow, htr⟩ := id hrej
    exact ⟨hrej, (clean_transition (hp t) fun x hx => (hrow x hx).1).raises e htr⟩

/-! Two first acquirers of one key: neither finds a row, `true` inserts and commits, and `false`,
whose insert is lost, runs again on the row it reads. -/

def sampleCall (first : Bool) : Call := (sampleAcquire (if first then "a" else "b") 0).call

def sampleTransition (first : Bool) : Transition Reply :=
  (acquireTransition sampleHost (sampleRequest .idempotent) (if first then "a" else "b") "1"
    ⟨10000⟩).map .acquired

def sampleNow : Datetime := (sampleClock 0).wall

def sampleRow : RawRow := rowUpdateValues parserCodec (.leased sampleLease)

theorem sample_acquires :
    ∃ r r' : AcquireResult, r.lease = some sampleLease ∧ r'.outcome = .busy ∧
      Reachable (engine "job") (freshCell parserCodec none)
        (fun t => PostgreSQLStore.transaction parserCodec "job" (sampleTransition t))
        (both ⟨some sampleRow, none, none, [(true, some sampleRow), (false, some sampleRow)]⟩
          (.pure (.acquired r)) (.pure (.acquired r'))) := by
  have hrow : decodeRow parserCodec "job" (some sampleRow) = .ok (some (.leased sampleLease)) :=
    decodeRow_leased sampleLease
  have h : Reachable (engine "job") (freshCell parserCodec none)
      (fun t => PostgreSQLStore.transaction parserCodec "job" (sampleTransition t)) _ := .both_start
  replace h := h.exec_true () rfl
  replace h := h.exec_false () rfl
  -- neither sees a row
  replace h := h.exec_true none (.inr (.inl ⟨rfl, rfl, rfl, rfl⟩))
  replace h := h.exec_false none (.inr (.inl ⟨rfl, rfl, rfl, rfl⟩))
  replace h := h.exec_true (some (.text sampleNow.isoformat)) ⟨rfl, sampleNow, rfl⟩
  replace h := h.exec_false (some (.text sampleNow.isoformat)) ⟨rfl, sampleNow, rfl⟩
  simp only [Prog.settle, readNow_isoformat] at h
  replace h := h.exec_true (.ok true) (.inr (.inr (.inr ⟨rfl, rfl, rfl, .inl rfl, rfl, rfl⟩)))
  replace h := h.exec_true () rfl
  -- the insert of `false` is lost, and it locks the winner's row
  replace h := h.exec_false (.ok false) (.inr (.inr (.inl ⟨rfl, rfl, rfl, rfl, rfl⟩)))
  replace h := h.exec_false (some sampleRow) (.inr (.inr ⟨rfl, .inl rfl, _, rfl, rfl, rfl⟩))
  simp only [Prog.settle, hrow] at h
  replace h := h.exec_false (some (.text sampleNow.isoformat)) ⟨rfl, sampleNow, rfl⟩
  simp only [Prog.settle, readNow_isoformat] at h
  replace h := h.exec_false () rfl
  exact ⟨_, _, rfl, rfl, h⟩

theorem lease_transactions_serializable_sample :
    ∃ (c : Config Bool (Cell Bool) Stmt StmtReply LeaseError Reply) (r r' : AcquireResult),
      c.prog true = some (.pure (.acquired r)) ∧ r.lease = some sampleLease ∧
      c.prog false = some (.pure (.acquired r')) ∧ r'.outcome = .busy ∧
      SerialHistory parserCodec "job" sampleTransition none c := by
  obtain ⟨r, r', hlease, hbusy, hreach⟩ := sample_acquires
  have hcalls (t : Bool) :
      (sampleCall t).prepare sampleHost .postgresql = .ok ("job", sampleTransition t) := by
    cases t <;> rfl
  have hserial := lease_transactions_serializable sampleHost parserCodec parserCodec_faithful "job"
    sampleCall sampleTransition hcalls none (rowOk_none "job") hreach
  exact ⟨_, r, r', rfl, hlease, rfl, hbusy, hserial⟩

end DrStore.Leases.Serializable
