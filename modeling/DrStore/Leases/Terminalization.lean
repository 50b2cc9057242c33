import DrStore.Leases.Renewal
import DrStore.Leases.History

/-! # The calls of a maintenance handle

Each call ends with the handle outside a publication. Once the caller's thread has joined the
renewer, the handle and the log are its own until it starts the next one. -/
namespace DrStore.Leases.Terminalization
open DrStore.Base.Programs DrStore.Base.Pool
open DrStore.Store.ContentAddressing DrStore.Leases.Models DrStore.Leases.Maintenance
open DrStore.Leases.Renewal
open DrStore.Leases.History (sampleLease sampleReference sampleTerminal)

variable {A : Type} (S : Service A) (initial : Lease) (setting : Setting)

def rules : Rules Party (World A) := ⟨Sound S initial setting, Guarantee⟩

variable {S initial setting} {s : World A} {t : Party}

/-- One step of `t` from where `B` holds, which the others keep. -/
theorem wp_step {α : Type} {op : Op} {k : Reply op → Script α}
    {Q : Except Raised α → World A → Prop} {B : World A → Prop}
    (hB : Stable (rules S initial setting) t B) (hs : B s)
    (hop : ∀ s, Sound S initial setting s → B s → Permitted initial setting s t op)
    (h : ∀ s r s', Sound S initial setting s → B s → Effect S s t op r s' →
      Sound S initial setting s' → wp (maintenanceSystem S) (rules S initial setting) t (k r) Q s') :
    wp (maintenanceSystem S) (rules S initial setting) t (.exec op k) Q s := by
  refine wp_exec hB hs ?_
  intro s' r s'' hinv hb heffect
  have hkept := effect_kept hinv (hop s' hinv hb) heffect
  exact ⟨hkept.1, hkept.2, h s' r s'' hinv hb heffect hkept.1⟩

/-! ## What the caller's thread knows -/

/-- With the renewer ended, or not started. -/
def Alone (B : Handle → List (Event A) → Nat → Prop) (s : World A) : Prop :=
  Idle s.handle ∧ B s.handle s.log s.turn

theorem stable_alone (B : Handle → List (Event A) → Nat → Prop) :
    Stable (rules S initial setting) .main (Alone B) := by
  intro s s' hothers h
  obtain ⟨_, _, u, hu, hguar⟩ := hothers
  have hguar : Guarantee u s s' := hguar
  obtain ⟨hhandle, hlog⟩ := hguar.frozen hu h.1
  have hturn := (hguar.own hu).1
  unfold Alone
  rw [hhandle, hlog, hturn]
  exact h

/-- Between two calls, or at the start of one. -/
structure Ready (setting : Setting) (rest : List Call) (s : World A) : Prop where
  calls : setting.calls.drop s.turn = rest
  terminalizing : s.handle.terminalizing = false
  returned : s.handle.terminalized = true → Returned s.log
  first : ∀ i l q r a a', .published i l q r a a' ∈ s.log → i < s.turn
  started : s.handle.entered = true → s.handle.thread ≠ .unstarted
  exited : s.handle.exited = true → ∃ k < s.turn, ∃ clean, setting.calls[k]? = some (.exit clean)
  unentered : s.handle.entered = false → ∀ i l q r a a', .published i l q r a a' ∉ s.log

/-- At the end of a call. -/
structure Done (initial : Lease) (setting : Setting) (call : Call) (rest : List Call)
    (out : Except Raised (Option Terminal)) (s : World A) : Prop where
  calls : setting.calls.drop s.turn = call :: rest
  terminalizing : s.handle.terminalizing = false
  returned : s.handle.terminalized = true → Returned s.log ∨ ∃ p t, call = .publish p ∧ out = .ok t
  first : ∀ i l q r a a', .published i l q r a a' ∈ s.log → i ≤ s.turn
  started : s.handle.entered = true → s.handle.thread ≠ .unstarted
  exited : s.handle.exited = true → ∃ k ≤ s.turn, ∃ clean, setting.calls[k]? = some (.exit clean)
  unentered : s.handle.entered = false → ∀ i l q r a a', .published i l q r a a' ∉ s.log
  settled : closing call out = true → Settled s.handle
  exit : ∀ clean, call = .exit clean → Idle s.handle ∧
    (clean = true → (Returned s.log → out = .ok none) ∧
      ∀ t, out = .ok t → Returned s.log ∧ ∀ l e a, .renewed l (.error e) a ∉ s.log)
  outcome : ∀ p, call = .publish p → Outcome setting s.log s.turn p out ∧
    ∀ t, out = .ok t → s.handle.terminalizationStarted = true

/-- The others add no publication. -/
theorem published_old {u : Party} {s' : World A} (hguar : Guarantee u s s') (hu : u ≠ .main)
    {i : Nat} {l : Lease} {q : Publication} {r : Except Raised Terminal} {a a' : A}
    (hev : .published i l q r a a' ∈ s'.log) : .published i l q r a a' ∈ s.log := by
  obtain hold | hrenewer := hguar.added hu _ hev
  · exact hold
  · exact hrenewer.elim

theorem returned_kept {u : Party} {s' : World A} (hguar : Guarantee u s s')
    (h : Returned s.log) : Returned s'.log := by
  obtain ⟨turn, p, t, a, hev⟩ := h
  exact ⟨turn, p, t, a, hguar.kept _ hev⟩

theorem stable_ready (rest : List Call) :
    Stable (rules S initial setting) .main (Ready setting rest) := by
  intro s s' hothers h
  obtain ⟨_, _, u, hu, hguar⟩ := hothers
  have hguar : Guarantee u s s' := hguar
  obtain ⟨hturn, hentered, hexited, hterminalizing, _, hterminalized⟩ := hguar.own hu
  refine ⟨?_, ?_, ?_, ?_, ?_, ?_, ?_⟩
  · rw [hturn]
    exact h.calls
  · exact hterminalizing.trans h.terminalizing
  · rw [hterminalized]
    exact fun ht => returned_kept hguar (h.returned ht)
  · intro i l q r a a' hev
    rw [hturn]
    exact h.first i l q r a a' (published_old hguar hu hev)
  · rw [hentered]
    exact fun he => hguar.started hu (h.started he)
  · rw [hexited, hturn]
    exact h.exited
  · intro he i l q r a a' hev
    rw [hentered] at he
    exact h.unentered he i l q r a a' (published_old hguar hu hev)

theorem stable_done (call : Call) (rest : List Call) (out : Except Raised (Option Terminal)) :
    Stable (rules S initial setting) .main (Done initial setting call rest out) := by
  intro s s' hothers h
  obtain ⟨_, _, u, hu, hguar⟩ := hothers
  have hguar : Guarantee u s s' := hguar
  obtain ⟨hturn, hentered, hexited, hterminalizing, hstarted, hterminalized⟩ := hguar.own hu
  refine ⟨?_, ?_, ?_, ?_, ?_, ?_, ?_, ?_, ?_, ?_⟩
  · rw [hturn]
    exact h.calls
  · exact hterminalizing.trans h.terminalizing
  · rw [hterminalized]
    exact fun ht => (h.returned ht).imp_left (returned_kept hguar)
  · intro i l q r a a' hev
    rw [hturn]
    exact h.first i l q r a a' (published_old hguar hu hev)
  · rw [hentered]
    exact fun he => hguar.started hu (h.started he)
  · rw [hexited, hturn]
    exact h.exited
  · intro he i l q r a a' hev
    rw [hentered] at he
    exact h.unentered he i l q r a a' (published_old hguar hu hev)
  · exact fun hcloses => hguar.settled hu (h.settled hcloses)
  · intro clean hcall
    obtain ⟨hidle, hclean⟩ := h.exit clean hcall
    obtain ⟨hhandle, hlog⟩ := hguar.frozen hu hidle
    rw [hhandle, hlog]
    exact ⟨hidle, hclean⟩
  · intro p hcall
    obtain ⟨houtcome, hok⟩ := h.outcome p hcall
    rw [hturn, hstarted]
    exact ⟨houtcome.mono hguar.kept fun i l q r a a' hev => .inl (published_old hguar hu hev), hok⟩

theorem Ready.done {call : Call} {rest : List Call} {out : Except Raised (Option Terminal)}
    (h : Ready setting (call :: rest) s)
    (hsettled : closing call out = true → Settled s.handle)
    (hexit : ∀ clean, call ≠ .exit clean)
    (houtcome : ∀ p, call = .publish p → Outcome setting s.log s.turn p out ∧ ∃ e, out = .error e) :
    Done initial setting call rest out s where
  calls := h.calls
  terminalizing := h.terminalizing
  returned := fun ht => .inl (h.returned ht)
  first := fun i l q r a a' hev => (h.first i l q r a a' hev).le
  started := h.started
  exited := by
    intro he
    obtain ⟨k, hk, hclean⟩ := h.exited he
    exact ⟨k, hk.le, hclean⟩
  unentered := h.unentered
  settled := hsettled
  exit := fun clean hcall => absurd hcall (hexit clean)
  outcome := by
    intro p hp
    obtain ⟨ho, e, rfl⟩ := houtcome p hp
    exact ⟨ho, fun t ht => by cases ht⟩

theorem Ready.call {call : Call} {rest : List Call} (h : Ready setting (call :: rest) s) :
    setting.calls[s.turn]? = some call := by
  have := congrArg (·[0]?) h.calls
  simpa using this

/-- The end of a call is noted, and the next one begins. -/
theorem wp_ended {call : Call} {rest : List Call} {out : Except Raised (Option Terminal)}
    {k : Script Unit} {Q : Except Raised Unit → World A → Prop}
    (h : Done initial setting call rest out s)
    (hk : ∀ s, Sound S initial setting s → Ready setting rest s →
      wp (maintenanceSystem S) (rules S initial setting) .main k Q s) :
    wp (maintenanceSystem S) (rules S initial setting) .main (.exec (.ended call out) fun _ => k) Q
      s := by
  have hcall : ∀ s : World A, Done initial setting call rest out s →
      setting.calls[s.turn]? = some call := by
    intro s h
    have := congrArg (·[0]?) h.calls
    simpa using this
  refine wp_step (stable_done call rest out) h ?_ ?_
  · intro s _ h
    refine ⟨rfl, hcall s h, h.settled, ?_, h.outcome⟩
    cases call with
    | exit clean =>
      cases clean with
      | true => exact (h.exit true rfl).2 rfl
      | false => trivial
    | _ => trivial
  · intro s _ s' _ h heffect hsound
    obtain rfl : s' = _ := heffect
    have hrest := congrArg List.tail h.calls
    refine hk _ hsound ⟨?_, h.terminalizing, ?_, ?_, h.started, ?_, ?_⟩
    · rw [List.tail_drop] at hrest
      exact hrest
    · intro ht
      obtain ⟨turn, p, t, a, hev⟩ | ⟨p, t, rfl, rfl⟩ := h.returned ht
      · exact ⟨turn, p, t, a, List.mem_append_left _ hev⟩
      · exact ⟨s.turn, p, t, s.authority, List.mem_append_right _ (List.mem_singleton.mpr rfl)⟩
    · intro i l q r a a' hev
      exact Nat.lt_succ_of_le (h.first i l q r a a' (by simpa [World.note] using hev))
    · intro he
      obtain ⟨k, hk, hclean⟩ := h.exited he
      exact ⟨k, Nat.lt_succ_of_le hk, hclean⟩
    · intro he i l q r a a' hev
      exact h.unentered he i l q r a a' (by simpa [World.note] using hev)

theorem wp_enter {rest : List Call} (h : Ready setting (.enter :: rest) s) :
    wp (maintenanceSystem S) (rules S initial setting) .main (enter : Script Unit)
      (fun out s => Done initial setting .enter rest (out.map fun _ => none) s) s := by
  refine wp_step (stable_ready _) h (fun _ _ _ => rfl) ?_
  intro s r s' hsound h heffect hsound'
  simp only [Effect] at heffect
  split at heffect
  · obtain ⟨rfl, rfl⟩ := heffect
    exact wp_fail (stable_ready _) h fun s _ h =>
      h.done (fun hcloses => by cases hcloses) (fun _ h => by cases h)
        (fun _ h => by cases h)
  · rename_i hentered
    obtain ⟨rfl, rfl⟩ := heffect
    rw [Bool.not_eq_true] at hentered
    have hunstarted := hsound.flags.unentered hentered
    have hpublished := h.unentered hentered
    refine wp_step (stable_alone fun h' log n => h'.thread = .unstarted ∧ h'.entered = true ∧
      h'.terminalizing = false ∧ (h'.terminalized = true → Returned log) ∧
      setting.calls.drop n = .enter :: rest ∧
      (h'.exited = true → ∃ k < n, ∃ clean, setting.calls[k]? = some (.exit clean)) ∧
      ∀ i l q r a a', .published i l q r a a' ∉ log) ?_ ?_ ?_
    · refine ⟨.inl hunstarted, hunstarted, rfl, h.terminalizing, ?_, h.calls, h.exited, ?_⟩
      · intro ht
        obtain ⟨turn, p, t, a, hev⟩ := h.returned ht
        exact ⟨turn, p, t, a, List.mem_append_left _ hev⟩
      · intro i l q r a a' hev
        exact hpublished i l q r a a' (by simpa [World.note] using hev)
    · intro s _ h
      exact ⟨rfl, h.2.1, h.2.2.1⟩
    · intro s _ s' _ h heffect _
      obtain ⟨_, _, hentered, hterminalizing, hreturned, hcalls, hexited, hpublished⟩ := h
      obtain rfl : s' = _ := heffect
      have hready : Ready setting (.enter :: rest) { s with handle.thread := .waiting } :=
        ⟨hcalls, hterminalizing, hreturned, fun i l q r a a' hev => absurd hev
          (hpublished i l q r a a'), fun _ => by simp, hexited,
          fun _ => hpublished⟩
      exact wp_pure (stable_ready _) hready fun s _ h =>
        h.done (fun hcloses => by cases hcloses) (fun _ h => by cases h)
          (fun _ h => by cases h)

theorem wp_check {rest : List Call} (h : Ready setting (.check :: rest) s) :
    wp (maintenanceSystem S) (rules S initial setting) .main (check : Script Unit)
      (fun out s => Done initial setting .check rest (out.map fun _ => none) s) s := by
  have hdone : ∀ (out : Except Raised (Option Terminal)) (s : World A),
      Ready setting (.check :: rest) s → Done initial setting .check rest out s := fun out s h =>
    h.done (fun hcloses => by cases hcloses) (fun _ h => by cases h)
      (fun _ h => by cases h)
  refine wp_step (stable_ready _) h (fun _ _ _ => trivial) ?_
  intro s r s' _ h heffect _
  obtain ⟨_, rfl⟩ := heffect
  cases r with
  | none => exact wp_pure (stable_ready _) h fun s _ h => hdone _ s h
  | some loss => exact wp_fail (stable_ready _) h fun s _ h => hdone _ s h

/-! ## Publications -/

/-- The locked section of `_prepare_for_terminalization` outside a publication. -/
theorem prepare_cases {h : Handle} (hterminalizing : h.terminalizing = false) :
    (∃ message, h.prepare = (.error (.runtimeError message), h) ∧
      (h.terminalizationStarted = true ∨
        h.loss = none ∧ (h.entered = false ∨ h.exited = true ∨ h.stop = true))) ∨
    (∃ loss, h.prepare = (.ok (some loss), h) ∧ h.loss = some loss ∧
      h.terminalizationStarted = false) ∨
    (h.prepare = (.ok none, { h with terminalizing := true, stop := true }) ∧
      h.terminalizationStarted = false ∧ h.loss = none ∧ h.entered = true ∧ h.exited = false) := by
  unfold Handle.prepare
  cases hstarted : h.terminalizationStarted with
  | true => exact .inl ⟨_, rfl, .inl rfl⟩
  | false =>
    cases hloss : h.loss with
    | some loss =>
      refine .inr (.inl ⟨loss, ?_, rfl, rfl⟩)
      simp [hterminalizing]
    | none =>
      cases hrefused : !h.entered || h.exited || h.stop with
      | true =>
        refine .inl ⟨"terminal publication requires an active maintenance context", ?_,
          .inr ⟨rfl, ?_⟩⟩
        · simp [hterminalizing]
        · simpa [or_assoc] using hrefused
      | false =>
        simp only [Bool.or_eq_false_iff, Bool.not_eq_false'] at hrefused
        refine .inr (.inr ⟨?_, rfl, rfl, hrefused.1.1, hrefused.1.2⟩)
        simp [hterminalizing]

/-- A publication that has stopped the renewer. -/
structure Stopping (setting : Setting) (p : Publication) (rest : List Call) (s : World A) :
    Prop where
  calls : setting.calls.drop s.turn = .publish p :: rest
  terminalizing : s.handle.terminalizing = true
  uncommitted : s.handle.terminalizationStarted = false
  entered : s.handle.entered = true
  exited : s.handle.exited = false
  started : s.handle.thread ≠ .unstarted
  first : ∀ i l q r a a', .published i l q r a a' ∈ s.log → i < s.turn
  transient : Transient s.log

theorem stable_stopping (p : Publication) (rest : List Call) :
    Stable (rules S initial setting) .main (Stopping setting p rest) := by
  intro s s' hothers h
  obtain ⟨_, _, u, hu, hguar⟩ := hothers
  have hguar : Guarantee u s s' := hguar
  obtain ⟨hturn, hentered, hexited, hterminalizing, hstarted, _⟩ := hguar.own hu
  refine ⟨?_, ?_, ?_, ?_, ?_, hguar.started hu h.started, ?_, ?_⟩
  · rw [hturn]
    exact h.calls
  · exact hterminalizing.trans h.terminalizing
  · exact hstarted.trans h.uncommitted
  · exact hentered.trans h.entered
  · exact hexited.trans h.exited
  · intro i l q r a a' hev
    rw [hturn]
    exact h.first i l q r a a' (published_old hguar hu hev)
  · exact fun i l q r a a' hev => h.transient i l q r a a' (published_old hguar hu hev)

/-- A publication that has joined the renewer. -/
def Joined (setting : Setting) (p : Publication) (rest : List Call) (B : Handle → Prop)
    (s : World A) : Prop :=
  Alone (fun h log n => h.thread = .ended ∧ B h ∧ ∀ a, Stopping setting p rest ⟨h, a, log, n⟩) s

theorem Stopping.joined {p : Publication} {rest : List Call} {B : Handle → Prop}
    (h : Stopping setting p rest s) (hended : s.handle.thread = .ended) (hB : B s.handle) :
    Joined setting p rest B s :=
  ⟨.inr hended, hended, hB, fun _ => ⟨h.calls, h.terminalizing, h.uncommitted, h.entered, h.exited,
    h.started, h.first, h.transient⟩⟩

theorem Joined.stopping {p : Publication} {rest : List Call} {B : Handle → Prop}
    (h : Joined setting p rest B s) : Stopping setting p rest s :=
  h.2.2.2 s.authority

theorem stable_joined (p : Publication) (rest : List Call) (B : Handle → Prop) :
    Stable (rules S initial setting) .main (Joined setting p rest B) :=
  stable_alone _

/-- A publication that found a loss does not reach the authority. -/
theorem Stopping.lost {p : Publication} {rest : List Call} {loss : Raised}
    (h : Stopping setting p rest s) (hsound : Sound S initial setting s)
    (hloss : s.handle.loss = some loss) :
    Done initial setting (.publish p) rest (.error loss.surfaced)
      { s with handle := { s.handle with terminalizing := false } } := by
  obtain ⟨ev, hev, hcause⟩ := hsound.recorded.loss loss (.inl hloss)
  refine ⟨h.calls, rfl, ?_, fun i l q r a a' hev => (h.first i l q r a a' hev).le,
    fun _ => h.started, ?_, ?_, ?_, ?_, ?_⟩
  · intro ht
    have := hsound.flags.terminalized ht
    rw [h.uncommitted] at this
    cases this
  · intro he
    cases h.exited.symm.trans he
  · intro he
    cases h.entered.symm.trans he
  · exact fun _ => ⟨rfl, .inr ⟨.inr (by simp [hloss]), hsound.flags.lost (by simp [hloss])⟩⟩
  · exact fun _ hcall => by cases hcall
  · intro q hq
    cases hq
    refine ⟨.lost loss ev hev hcause ?_, fun t ht => by cases ht⟩
    intro i l q r a a' heq
    subst heq
    exact h.first i l q r a a' hev

theorem Ready.lost {p : Publication} {rest : List Call} {loss : Raised}
    (h : Ready setting (.publish p :: rest) s) (hsound : Sound S initial setting s)
    (hloss : s.handle.loss = some loss) :
    Done initial setting (.publish p) rest (.error loss.surfaced) s := by
  obtain ⟨ev, hev, hcause⟩ := hsound.recorded.loss loss (.inl hloss)
  refine h.done ?_ (fun _ hcall => by cases hcall) ?_
  · exact fun _ => ⟨h.terminalizing,
      .inr ⟨.inr (by simp [hloss]), hsound.flags.lost (by simp [hloss])⟩⟩
  · intro q hq
    cases hq
    refine ⟨.lost loss ev hev hcause ?_, _, rfl⟩
    intro i l q r a a' heq
    subst heq
    exact h.first i l q r a a' hev

theorem Ready.refused {p : Publication} {rest : List Call} {message : String}
    (h : Ready setting (.publish p :: rest) s) (hsound : Sound S initial setting s)
    (hrefused : s.handle.terminalizationStarted = true ∨ s.handle.loss = none ∧
      (s.handle.entered = false ∨ s.handle.exited = true ∨ s.handle.stop = true)) :
    Done initial setting (.publish p) rest (.error (.runtimeError message)) s := by
  refine h.done (fun hcloses => by cases hcloses) (fun _ hcall => by cases hcall) ?_
  intro q hq
  cases hq
  refine ⟨.refused message ?_, _, rfl⟩
  have hreturned : s.handle.terminalizationStarted = true →
      ∃ k < s.turn, ∃ q t a, .ended k (.publish q) (.ok t) a ∈ s.log := by
    intro hstarted
    obtain ⟨turn, q, t, a, hev⟩ := h.returned (hsound.flags.committed hstarted).1
    exact ⟨turn, (hsound.ledger.ended _ _ _ _ hev).1, q, t, a, hev⟩
  obtain hstarted | ⟨hloss, hentered | hexited | hstop⟩ := hrefused
  · exact .inl (hreturned hstarted)
  · exact .inr (.inr fun i l q r a a' hev => absurd hev (h.unentered hentered i l q r a a'))
  · exact .inr (.inl (h.exited hexited))
  · obtain hlost | hexited | hterminalizing | hstarted := hsound.flags.stopped hstop
    · exact absurd hloss hlost
    · exact .inr (.inl (h.exited hexited))
    · rw [h.terminalizing] at hterminalizing
      cases hterminalizing
    · exact .inl (hreturned hstarted)

theorem stable_lost {B : World A → Prop} (hB : Stable (rules S initial setting) t B)
    (loss : Raised) : Stable (rules S initial setting) t (fun s => B s ∧ s.handle.loss = some loss) := by
  intro s s' hothers h
  refine ⟨hB s s' hothers h.1, ?_⟩
  obtain ⟨_, _, u, _, hguar⟩ := hothers
  have hguar : Guarantee u s s' := hguar
  rw [hguar.loss (by simp [h.2])]
  exact h.2

/-- An abort that leaves the renewer stopped. -/
theorem wp_abort_lost {α : Type} {loss error : Raised} {Q : Except Raised α → World A → Prop}
    {B : World A → Prop} (hB : Stable (rules S initial setting) .main B) (hs : B s)
    (hloss : s.handle.loss = some loss)
    (hstarted : ∀ s, B s → s.handle.terminalizationStarted = false)
    (h : ∀ s, Sound S initial setting s → B s → s.handle.loss = some loss →
      wp (maintenanceSystem S) (rules S initial setting) .main (.fail error : Script α) Q
        { s with handle := { s.handle with terminalizing := false } }) :
    wp (maintenanceSystem S) (rules S initial setting) .main
      (abortTerminalization error >>= fun _ => .fail error) Q s := by
  refine wp_step (stable_lost hB loss) ⟨hs, hloss⟩ ?_ ?_
  · intro s _ h
    refine ⟨rfl, ?_, fun _ => by simp [h.2]⟩
    intro _ hnone
    rw [h.2] at hnone
    cases hnone
  · intro s r s' hsound hb heffect _
    obtain ⟨rfl, rfl⟩ := heffect
    rw [abort_lost (hstarted s hb.1) (by simp [hb.2])]
    exact h s hsound hb.1 hb.2

/-- Stop the renewer and join it, or find that it has lost the lease. -/
theorem wp_prepare {p : Publication} {rest : List Call}
    (h : Ready setting (.publish p :: rest) s) :
    wp (maintenanceSystem S) (rules S initial setting) .main prepareForTerminalization
      (fun out s => match out with
        | .ok lease => Joined setting p rest (fun h => h.loss = none ∧ h.lease = lease) s
        | .error e => Done initial setting (.publish p) rest (.error e) s) s := by
  refine wp_step (stable_ready _) h (fun _ _ _ => rfl) ?_
  intro s r s' hsound h heffect hsound'
  obtain ⟨rfl, rfl⟩ := heffect
  obtain ⟨message, hprepare, hrefused⟩ | ⟨loss, hprepare, hloss, hstarted⟩ |
    ⟨hprepare, hstarted, hloss, hentered, hexited⟩ := prepare_cases h.terminalizing
  · rw [hprepare]
    exact wp_fail (stable_done _ _ _) (h.refused hsound hrefused) fun _ _ h => h
  · rw [hprepare]
    -- the recorded loss is raised again, and nothing changes
    have hB : Stable (rules S initial setting) .main (fun s => Ready setting (.publish p :: rest) s ∧
        s.handle.terminalizationStarted = false) := by
      intro s s' hothers h
      refine ⟨stable_ready _ s s' hothers h.1, ?_⟩
      obtain ⟨_, _, u, hu, hguar⟩ := hothers
      have hguar : Guarantee u s s' := hguar
      rw [(hguar.own hu).2.2.2.2.1]
      exact h.2
    refine wp_step (stable_lost hB loss) ⟨⟨h, hstarted⟩, hloss⟩ (fun _ _ _ => trivial) ?_
    intro s r s' _ h heffect _
    obtain ⟨rfl, rfl⟩ := heffect
    rw [h.2]
    refine wp_abort_lost hB h.1 h.2 (fun _ h => h.2) ?_
    intro s hsound h hloss
    have hsame : { s with handle := { s.handle with terminalizing := false } } = s := by
      rw [← h.1.terminalizing]
    rw [hsame]
    exact wp_fail (stable_done _ _ _) (h.1.lost hsound hloss) fun _ _ h => h
  · rw [hprepare] at hsound' ⊢
    have htransient : Transient s.log := by
      obtain htransient | hlost | hbusy | hdone := hsound.recorded.answered
      · exact htransient
      · exact absurd hloss hlost
      · cases h.terminalizing.symm.trans hbusy
      · cases hstarted.symm.trans hdone
    have hstopping : Stopping setting p rest
        { s with handle := { s.handle with terminalizing := true, stop := true } } :=
      ⟨h.calls, rfl, hstarted, hentered, hexited, h.started hentered, h.first, htransient⟩
    refine wp_step (stable_stopping p rest) hstopping (fun _ _ _ => trivial) ?_
    intro s r s' _ h heffect _
    obtain ⟨⟨hended, rfl⟩ | ⟨hunstarted, rfl⟩, rfl⟩ := heffect
    · refine wp_step (stable_joined p rest fun _ => True) (h.joined hended trivial)
        (fun _ _ _ => trivial) ?_
      intro s r s' _ h heffect _
      obtain ⟨rfl, rfl⟩ := heffect
      cases hloss : s'.handle.loss with
      | none =>
        refine wp_step (stable_joined p rest fun h => h.loss = none)
          (h.stopping.joined h.2.1 hloss) (fun _ _ _ => trivial) ?_
        intro s r s' _ h heffect _
        obtain ⟨rfl, rfl⟩ := heffect
        exact wp_pure (stable_joined p rest fun h' => h'.loss = none ∧ h'.lease = s'.handle.lease)
          (h.stopping.joined h.2.1 ⟨h.2.2.1, rfl⟩) fun _ _ h => h
      | some loss =>
        refine wp_abort_lost (stable_stopping p rest) h.stopping hloss
          (fun _ h => h.uncommitted) ?_
        intro s hsound h hloss
        exact wp_fail (stable_done _ _ _) (h.lost hsound hloss) fun _ _ h => h
    · exact absurd hunstarted h.started

/-- A publication that the authority has answered, until it starts the renewer again. -/
structure Answered (setting : Setting) (p : Publication) (rest : List Call)
    (r : Except Raised Terminal) (h : Handle) (log : List (Event A)) (n : Nat) : Prop where
  calls : setting.calls.drop n = .publish p :: rest
  uncommitted : h.terminalizationStarted = false
  entered : h.entered = true
  exited : h.exited = false
  loss : h.loss = none
  first : ∀ i l q r a a', .published i l q r a a' ∈ log → i ≤ n
  asked : ∃ lease a a', .published n lease p r a a' ∈ log
  transient : ∀ e, r = .error e → e.definitive = false → Transient log

/-- The end of an answered publication that did not commit. -/
theorem Answered.done {p : Publication} {rest : List Call} {e : Raised} {h : Handle}
    (ha : Answered setting p rest (.error e) h s.log s.turn)
    (hterminalizing : s.handle.terminalizing = false) (hterminalized : s.handle.terminalized = false)
    (hentered : s.handle.entered = h.entered) (hexited : s.handle.exited = h.exited)
    (hthread : s.handle.thread ≠ .unstarted)
    (hsettled : e.definitive = true → Settled s.handle) :
    Done initial setting (.publish p) rest (.error e) s := by
  obtain ⟨lease, a, a', hev⟩ := ha.asked
  refine ⟨ha.calls, hterminalizing, ?_, ha.first, fun _ => hthread, ?_, ?_, hsettled, ?_, ?_⟩
  · intro ht
    cases hterminalized.symm.trans ht
  · intro he
    cases (hexited.trans ha.exited).symm.trans he
  · intro he
    cases (hentered.trans ha.entered).symm.trans he
  · exact fun _ hcall => by cases hcall
  · intro q hq
    cases hq
    exact ⟨.asked lease (.error e) a a' hev, fun t ht => by cases ht⟩

/-- After a transient failure the renewer starts again. -/
theorem wp_restart {p : Publication} {rest : List Call} {e : Raised} {α : Type}
    {Q : Except Raised α → World A → Prop} (hd : e.definitive = false)
    (h : Alone (fun h log n => Answered setting p rest (.error e) h log n ∧ h.thread = .ended ∧
      h.terminalizing = false ∧ h.stop = false) s)
    (hQ : ∀ s, Done initial setting (.publish p) rest (.error e) s → Q (.error e) s) :
    wp (maintenanceSystem S) (rules S initial setting) .main
      (restartRenewer >>= fun _ => (.fail e : Script α)) Q s := by
  refine wp_step (stable_alone _) h ?_ ?_
  · intro s _ h
    obtain ⟨_, ha, hended, _, hstop⟩ := h
    exact ⟨rfl, hended, ha.loss, ha.uncommitted, hstop, ha.entered⟩
  · intro s _ s' hsound h heffect _
    obtain ⟨_, ha, _, hterminalizing, _⟩ := h
    obtain rfl : s' = _ := heffect
    refine wp_step (stable_alone fun h log n => Answered setting p rest (.error e) h log n ∧
      h.thread = .unstarted ∧ h.terminalizing = false) ?_ ?_ ?_
    · exact ⟨.inl rfl, ⟨ha.calls, ha.uncommitted, ha.entered, ha.exited, ha.loss, ha.first, ha.asked,
        ha.transient⟩, rfl, hterminalizing⟩
    · intro s _ h
      obtain ⟨_, ha, hthread, _⟩ := h
      exact ⟨rfl, hthread, ha.entered⟩
    · intro s _ s' hsound h heffect _
      obtain ⟨_, ha, _, hterminalizing⟩ := h
      obtain rfl : s' = _ := heffect
      have hterminalized : s.handle.terminalized = false := by
        by_contra hne
        have := hsound.flags.terminalized (by simpa using hne)
        cases ha.uncommitted.symm.trans this
      refine wp_fail (stable_done (.publish p) rest (.error e)) ?_ fun s _ h => hQ s h
      refine @Answered.done _ _ _ _ p rest e s.handle ha hterminalizing hterminalized rfl rfl
        (by simp) ?_
      intro hdefinitive
      cases hd.symm.trans hdefinitive

theorem wp_publish {p : Publication} {rest : List Call} (hsound : Sound S initial setting s)
    (h : Ready setting (.publish p :: rest) s) :
    wp (maintenanceSystem S) (rules S initial setting) .main (publish p)
      (fun out s => Done initial setting (.publish p) rest (out.map some) s) s := by
  refine wp_bind hsound (wp_mono ?_ (wp_prepare h))
  intro out s _ hout
  cases out with
  | error e => exact wp_fail (stable_done _ _ _) hout fun _ _ h => h
  | ok lease =>
    refine wp_step (stable_joined p rest _) hout ?_ ?_
    · intro s _ h
      exact ⟨rfl, h.2.1, h.2.2.1.2.symm⟩
    · intro s _ s' _ h heffect _
      obtain rfl : s' = _ := heffect
      have hs := h.stopping
      have hjoined : Joined setting p rest (fun h => h.loss = none ∧ h.lease = lease)
          (s.note (.publishing lease p)) := by
        refine Stopping.joined ⟨hs.calls, hs.terminalizing, hs.uncommitted, hs.entered, hs.exited,
          hs.started, ?_, ?_⟩ h.2.1 h.2.2.1
        · exact fun i l q r a a' hev => hs.first i l q r a a' (by simpa [World.note] using hev)
        · exact fun i l q r a a' hev => hs.transient i l q r a a' (by simpa [World.note] using hev)
      refine wp_step (stable_joined p rest _) hjoined ?_ ?_
      · intro s _ h
        have hs := h.stopping
        have hcall := congrArg (·[0]?) hs.calls
        exact ⟨rfl, h.2.1, h.2.2.1.2.symm, h.2.2.1.1, hs.uncommitted, hs.terminalizing,
          by simpa using hcall, hs.transient, hs.first⟩
      · intro s r s' _ h heffect _
        obtain ⟨a, _, rfl⟩ := heffect
        have hs := h.stopping
        have hanswered : Answered setting p rest r s.handle
            (s.log ++ [.published s.turn lease p r s.authority a]) s.turn := by
          refine ⟨hs.calls, hs.uncommitted, hs.entered, hs.exited, h.2.2.1.1, ?_,
            ⟨lease, s.authority, a, by simp⟩, ?_⟩
          · intro i l q r' b b' hev
            obtain hev | hev := List.mem_append.mp hev
            · exact (hs.first i l q r' b b' hev).le
            · cases List.mem_singleton.mp hev
              exact le_rfl
          · intro e hr hd i l q r' b b' hev
            obtain hev | hev := List.mem_append.mp hev
            · exact hs.transient i l q r' b b' hev
            · cases List.mem_singleton.mp hev
              exact ⟨e, hr, hd⟩
        have halone : Alone (fun h log n => Answered setting p rest r h log n ∧ h.thread = .ended ∧
            h.terminalizing = true)
            (({ s with authority := a }).note (.published s.turn lease p r s.authority a)) :=
          ⟨.inr h.2.1, hanswered, h.2.1, hs.terminalizing⟩
        cases r with
        | ok terminal =>
          refine wp_step (stable_alone _) halone ?_ ?_
          · intro s _ h
            obtain ⟨_, ha, hended, hterminalizing⟩ := h
            exact ⟨rfl, hended, ha.loss, hterminalizing⟩
          · intro s _ s' _ h heffect _
            obtain ⟨_, ha, hended, _⟩ := h
            obtain rfl : s' = _ := heffect
            obtain ⟨lease, b, b', hev⟩ := ha.asked
            refine wp_pure (stable_done (.publish p) rest (.ok (some terminal))) ?_ fun _ _ h => h
            refine ⟨ha.calls, rfl, fun _ => .inr ⟨p, _, rfl, rfl⟩, ha.first, ?_, ?_, ?_, ?_, ?_, ?_⟩
            · intro _
              simp [hended]
            · intro he
              cases ha.exited.symm.trans he
            · intro he
              cases ha.entered.symm.trans he
            · exact fun _ => ⟨rfl, .inr ⟨.inl rfl, .inr hended⟩⟩
            · exact fun _ hcall => by cases hcall
            · intro q hq
              cases hq
              exact ⟨.asked lease (.ok terminal) b b' hev, fun _ _ => rfl⟩
        | error e =>
          refine wp_step (stable_alone _) halone ?_ ?_
          · intro s _ h
            obtain ⟨_, ha, hended, hterminalizing⟩ := h
            refine ⟨rfl, fun _ _ => ⟨hended, ?_, ha.transient e rfl⟩, ?_⟩
            · intro hd
              obtain ⟨lease, b, b', hev⟩ := ha.asked
              exact ⟨_, hev, if_pos hd⟩
            · intro hidle
              cases hidle.symm.trans hterminalizing
          · intro s b s' hsound h heffect _
            obtain ⟨_, ha, hended, hterminalizing⟩ := h
            obtain ⟨rfl, rfl⟩ := heffect
            have hterminalized : s.handle.terminalized = false := by
              by_contra hne
              have := hsound.flags.terminalized (by simpa using hne)
              cases ha.uncommitted.symm.trans this
            cases hd : e.definitive with
            | true =>
              rw [abort_definitive ha.uncommitted ha.loss hd]
              refine wp_fail (stable_done (.publish p) rest (.error e)) ?_ fun _ _ h => h
              refine @Answered.done _ _ _ _ p rest e s.handle ha rfl hterminalized rfl rfl ?_ ?_
              · simp [hended]
              · exact fun _ => ⟨rfl, .inr ⟨.inr (by simp), .inr hended⟩⟩
            | false =>
              rw [abort_transient ha.uncommitted ha.loss hd hterminalizing]
              simp only [ha.exited, Bool.not_false, Bool.and_false]
              refine wp_restart hd ?_ fun _ h => h
              exact ⟨.inr hended, ⟨ha.calls, ha.uncommitted, ha.entered, rfl, ha.loss, ha.first,
                ha.asked, ha.transient⟩, hended, rfl, rfl⟩

/-! ## Leaving the context -/

/-- `__exit__` after its locked section. -/
structure Leaving (setting : Setting) (clean : Bool) (rest : List Call) (h : Handle)
    (log : List (Event A)) (n : Nat) : Prop where
  calls : setting.calls.drop n = .exit clean :: rest
  terminalizing : h.terminalizing = false
  returned : h.terminalized = true → Returned log
  first : ∀ i l q r a a', .published i l q r a a' ∈ log → i < n
  started : h.entered = true → h.thread ≠ .unstarted
  exited : h.exited = true
  unentered : h.entered = false → ∀ i l q r a a', .published i l q r a a' ∉ log

theorem stable_leaving (clean : Bool) (rest : List Call) : Stable (rules S initial setting) .main
    (fun s : World A => Leaving setting clean rest s.handle s.log s.turn) := by
  intro s s' hothers h
  obtain ⟨_, _, u, hu, hguar⟩ := hothers
  have hguar : Guarantee u s s' := hguar
  obtain ⟨hturn, hentered, hexited, hterminalizing, _, hterminalized⟩ := hguar.own hu
  refine ⟨?_, ?_, ?_, ?_, ?_, ?_, ?_⟩
  · rw [hturn]
    exact h.calls
  · exact hterminalizing.trans h.terminalizing
  · rw [hterminalized]
    exact fun ht => returned_kept hguar (h.returned ht)
  · intro i l q r a a' hev
    rw [hturn]
    exact h.first i l q r a a' (published_old hguar hu hev)
  · rw [hentered]
    exact fun he => hguar.started hu (h.started he)
  · exact hexited.trans h.exited
  · intro he i l q r a a' hev
    rw [hentered] at he
    exact h.unentered he i l q r a a' (published_old hguar hu hev)

theorem Leaving.done {clean : Bool} {rest : List Call} {out : Except Raised (Option Terminal)}
    (h : Leaving setting clean rest s.handle s.log s.turn) (hsound : Sound S initial setting s)
    (hidle : Idle s.handle)
    (hclean : clean = true → (Returned s.log → out = .ok none) ∧
      ∀ t, out = .ok t → Returned s.log ∧ ∀ l e a, .renewed l (.error e) a ∉ s.log) :
    Done initial setting (.exit clean) rest out s := by
  have hcall := congrArg (·[0]?) h.calls
  refine ⟨h.calls, h.terminalizing, fun ht => .inl (h.returned ht),
    fun i l q r a a' hev => (h.first i l q r a a' hev).le, h.started, ?_, h.unentered, ?_, ?_,
    fun _ hq => by cases hq⟩
  · exact fun _ => ⟨s.turn, le_rfl, clean, by simpa using hcall⟩
  · refine fun _ => ⟨h.terminalizing, .inl ⟨h.exited, hsound.flags.exited h.exited, ?_⟩⟩
    obtain hunstarted | hended := hidle
    · exact .inl hunstarted
    · exact .inr (.inr (.inr hended))
  · intro clean' hcall
    cases hcall
    exact ⟨hidle, hclean⟩

theorem wp_exit {clean : Bool} {rest : List Call} (h : Ready setting (.exit clean :: rest) s) :
    wp (maintenanceSystem S) (rules S initial setting) .main (exit clean)
      (fun out s => Done initial setting (.exit clean) rest (out.map fun _ => none) s) s := by
  refine wp_step (stable_ready _) h (fun _ _ _ => rfl) ?_
  intro s _ s' _ h heffect _
  obtain rfl : s' = _ := heffect
  have hleaving : Leaving setting clean rest { s.handle with exited := true, stop := true }
      (s.log ++ [.exiting]) s.turn := by
    refine ⟨h.calls, h.terminalizing, ?_, ?_, h.started, rfl, ?_⟩
    · intro ht
      obtain ⟨turn, p, t, a, hev⟩ := h.returned ht
      exact ⟨turn, p, t, a, List.mem_append_left _ hev⟩
    · exact fun i l q r a a' hev => h.first i l q r a a' (by simpa using hev)
    · exact fun he i l q r a a' hev => h.unentered he i l q r a a' (by simpa using hev)
  refine wp_step (stable_leaving clean rest) hleaving (fun _ _ _ => trivial) ?_
  intro s r s' hsound h heffect _
  obtain ⟨⟨hended, rfl⟩ | ⟨hunstarted, rfl⟩, rfl⟩ := heffect
  · have halone : Alone (fun h log n => Leaving setting clean rest h log n ∧ h.thread = .ended)
        s' := ⟨.inr hended, h, hended⟩
    refine wp_step (stable_alone _) halone (fun _ _ _ => trivial) ?_
    intro s r s' hsound h heffect _
    obtain ⟨rfl, rfl⟩ := heffect
    cases clean with
    | false =>
      refine wp_pure (stable_alone _) h ?_
      intro s hsound h
      exact h.2.1.done hsound h.1 fun hclean => by cases hclean
    | true =>
      have halone : Alone (fun h log n => (Leaving setting true rest h log n ∧ h.thread = .ended) ∧
          h.terminalized = s'.handle.terminalized) s' := ⟨h.1, h.2, rfl⟩
      generalize s'.handle.terminalized = terminalized at halone
      refine wp_step (stable_alone _) halone (fun _ _ _ => trivial) ?_
      intro s r s' hsound h heffect _
      obtain ⟨rfl, rfl⟩ := heffect
      cases hloss : s'.handle.loss with
      | some loss =>
        have halone : Alone (fun h log n => (Leaving setting true rest h log n ∧
            h.thread = .ended) ∧ h.loss = some loss) s' := ⟨h.1, h.2.1, hloss⟩
        refine wp_fail (stable_alone _) halone ?_
        intro s hsound h
        obtain ⟨hidle, ⟨hleaving, _⟩, hloss⟩ := h
        refine hleaving.done hsound hidle fun _ => ⟨?_, fun t ht => by cases ht⟩
        intro hreturned
        have := (hsound.flags.committed (hsound.recorded.returned hreturned)).2.1
        cases hloss.symm.trans this
      | none =>
        have halone : Alone (fun h log n => (Leaving setting true rest h log n ∧
            h.thread = .ended) ∧ h.loss = none ∧ h.terminalized = terminalized) s' :=
          ⟨h.1, h.2.1, hloss, h.2.2⟩
        cases terminalized with
        | true =>
          refine wp_pure (stable_alone _) halone ?_
          intro s hsound h
          obtain ⟨hidle, ⟨hleaving, hended⟩, hloss, hterminalized⟩ := h
          refine hleaving.done hsound hidle fun _ => ⟨fun _ => rfl, ?_⟩
          refine fun t _ => ⟨hleaving.returned hterminalized, ?_⟩
          intro l e a hev
          have := hsound.recorded.renewals l e a hev
          simp [hloss, hended] at this
        | false =>
          refine wp_fail (stable_alone _) halone ?_
          intro s hsound h
          obtain ⟨hidle, ⟨hleaving, _⟩, _, hterminalized⟩ := h
          refine hleaving.done hsound hidle fun _ => ⟨?_, fun t ht => by cases ht⟩
          intro hreturned
          have := (hsound.flags.committed (hsound.recorded.returned hreturned)).1
          cases hterminalized.symm.trans this
  · have halone : Alone (fun h log n => Leaving setting clean rest h log n ∧ h.thread = .unstarted)
        s' := ⟨.inl hunstarted, h, hunstarted⟩
    refine wp_fail (stable_alone _) halone ?_
    intro s hsound h
    obtain ⟨hidle, hleaving, hunstarted⟩ := h
    refine hleaving.done hsound hidle fun _ => ⟨?_, fun t ht => by cases ht⟩
    intro hreturned
    have := (hsound.flags.committed (hsound.recorded.returned hreturned)).2.2.1
    cases hunstarted.symm.trans this

/-! ## The threads -/

/-- The running renewer of a generation, and the lease in the handle. -/
def At (n : Nat) (phase : Renewer) (lease : Option Lease) (s : World A) : Prop :=
  s.handle.renewerGeneration = n ∧ s.handle.thread = phase ∧
    ∀ l, lease = some l → s.handle.lease = l

theorem stable_at {n : Nat} {phase : Renewer} (lease : Option Lease)
    (hphase : phase ≠ .unstarted ∧ phase ≠ .ended) :
    Stable (rules S initial setting) (.renewer n) (At n phase lease) := by
  intro s s' hothers h
  obtain ⟨_, _, u, hu, hguar⟩ := hothers
  have hguar : Guarantee u s s' := hguar
  obtain ⟨hgeneration, hthread, hlease⟩ := h
  have hidle : ¬ Idle s.handle := by
    rw [Idle, hthread]
    exact fun h => h.elim hphase.1 hphase.2
  obtain ⟨hgeneration', hthread', hlease'⟩ := hguar.running n hu hgeneration hidle
  exact ⟨hgeneration', hthread'.trans hthread, fun l hl => hlease'.trans (hlease l hl)⟩

theorem wp_run {n : Nat} (wakeups : Nat) (h : At n .waiting none s) :
    wp (maintenanceSystem S) (rules S initial setting) (.renewer n) (run wakeups)
      (fun _ _ => True) s := by
  induction wakeups generalizing s with
  | zero =>
    refine wp_step (stable_at none (by simp)) h (fun _ _ _ => trivial) ?_
    intro s _ s' _ _ heffect
    exact heffect.elim
  | succ wakeups ih =>
    refine wp_step (stable_at none (by simp)) h (fun s _ h => ⟨by rw [h.1], h.2.1⟩) ?_
    intro s r s' _ h heffect _
    obtain ⟨rfl, rfl⟩ := heffect
    obtain ⟨hgeneration, _, _⟩ := h
    cases s.handle.stop with
    | true =>
      have hleaving : At n .leaving none { s with handle.thread := .leaving } :=
        ⟨hgeneration, rfl, fun _ hl => by cases hl⟩
      refine wp_step (stable_at none (by simp)) hleaving (fun s _ h => ⟨by rw [h.1], h.2.1⟩) ?_
      exact fun _ _ _ _ _ _ _ _ _ _ => trivial
    | false =>
      have hawake : At n .awake none { s with handle.thread := .awake } :=
        ⟨hgeneration, rfl, fun _ hl => by cases hl⟩
      refine wp_step (stable_at none (by simp)) hawake (fun _ _ _ => trivial) ?_
      intro s lease s' _ h heffect _
      obtain ⟨rfl, rfl⟩ := heffect
      have hawake : At n .awake (some s'.handle.lease) s' :=
        ⟨h.1, h.2.1, fun l hl => Option.some.inj hl⟩
      generalize s'.handle.lease = lease at hawake
      refine wp_step (stable_at (some lease) (by simp)) hawake
        (fun s _ h => ⟨by rw [h.1], h.2.1⟩) ?_
      intro s _ s' _ h heffect _
      obtain rfl : s' = _ := heffect
      have hrenewing : At n .renewing (some lease)
          (({ s with handle.thread := .renewing }).note (.renewing lease)) :=
        ⟨h.1, rfl, h.2.2⟩
      refine wp_step (stable_at (some lease) (by simp)) hrenewing
        (fun s _ h => ⟨by rw [h.1], h.2.1, (h.2.2 lease rfl).symm⟩) ?_
      intro s r s' _ h heffect _
      obtain ⟨a, _, rfl⟩ := heffect
      obtain ⟨hgeneration, _, _⟩ := h
      cases r with
      | ok renewed =>
        have hstoring : At n (.storing renewed) none
            (({ s with authority := a, handle.thread := .storing renewed }).note
              (.renewed lease (.ok renewed) s.authority)) :=
          ⟨hgeneration, rfl, fun _ hl => by cases hl⟩
        refine wp_step (stable_at none (by simp)) hstoring (fun s _ h => ⟨by rw [h.1], h.2.1⟩) ?_
        intro s _ s' _ h heffect _
        obtain rfl : s' = _ := heffect
        exact ih ⟨h.1, rfl, fun _ hl => by cases hl⟩
      | error e =>
        have hlosing : At n (.losing e) none
            (({ s with authority := a, handle.thread := .losing e }).note
              (.renewed lease (.error e) s.authority)) :=
          ⟨hgeneration, rfl, fun _ hl => by cases hl⟩
        refine wp_step (stable_at none (by simp)) hlosing (fun s _ h => ⟨by rw [h.1], h.2.1⟩) ?_
        intro s _ s' _ h heffect _
        obtain rfl : s' = _ := heffect
        have hleaving : At n .leaving none { s with handle := { s.handle with
            loss := some e, thread := .leaving } } := ⟨h.1, rfl, fun _ hl => by cases hl⟩
        refine wp_step (stable_lost (stable_at none (by simp)) e) ⟨hleaving, rfl⟩
          (fun s _ h => ⟨by rw [h.1.1], h.1.2.1, by simp [h.2]⟩) ?_
        intro s _ s' _ h heffect _
        obtain rfl : s' = _ := heffect
        have hleaving : At n .leaving none { s with handle.stop := true } :=
          ⟨h.1.1, h.1.2.1, fun _ hl => by cases hl⟩
        refine wp_step (stable_at none (by simp)) hleaving (fun s _ h => ⟨by rw [h.1], h.2.1⟩) ?_
        exact fun _ _ _ _ _ _ _ _ _ _ => trivial

/-- A call that returns `f` of what its body returns. -/
theorem wp_return {β : Type} {p : Script β} {f : β → Option Terminal} {call : Call}
    {rest : List Call} (hsound : Sound S initial setting s)
    (h : wp (maintenanceSystem S) (rules S initial setting) .main p
      (fun out s => Done initial setting call rest (out.map f) s) s) :
    wp (maintenanceSystem S) (rules S initial setting) .main (p >>= fun b => return f b)
      (fun out s => Done initial setting call rest out s) s := by
  refine wp_bind hsound (wp_mono ?_ h)
  intro out s _ h
  cases out with
  | ok b => exact wp_pure (stable_done _ _ _) h fun _ _ h => h
  | error e => exact wp_fail (stable_done _ _ _) h fun _ _ h => h

theorem wp_call {call : Call} {rest : List Call} (hsound : Sound S initial setting s)
    (h : Ready setting (call :: rest) s) :
    wp (maintenanceSystem S) (rules S initial setting) .main call.script
      (fun out s => Done initial setting call rest out s) s := by
  cases call with
  | enter => exact wp_return hsound (wp_enter h)
  | check => exact wp_return hsound (wp_check h)
  | exit clean => exact wp_return hsound (wp_exit h)
  | publish p =>
    cases p with
    | succeed resultRef => exact wp_return hsound (wp_publish hsound h)
    | fail resultRef failure => exact wp_return hsound (wp_publish hsound h)

theorem wp_client (calls : List Call) (hsound : Sound S initial setting s)
    (h : Ready setting calls s) :
    wp (maintenanceSystem S) (rules S initial setting) .main (client calls) (fun _ _ => True) s := by
  induction calls generalizing s with
  | nil => exact fun _ _ _ => trivial
  | cons call rest ih =>
    refine wp_settle hsound (wp_mono ?_ (wp_call hsound h))
    intro out s _ hdone
    exact wp_ended hdone fun s hsound h => ih hsound h

theorem stable_true (t : Party) :
    Stable (rules S initial setting) t (fun _ : World A => True) :=
  fun _ _ _ _ => trivial

theorem wp_others (n : Nat) : wp (maintenanceSystem S) (rules S initial setting) .other (others n)
    (fun _ _ => True) s := by
  induction n generalizing s with
  | zero => exact fun _ _ _ => trivial
  | succ n ih =>
    refine wp_step (stable_true _) trivial (fun _ _ _ => rfl) ?_
    exact fun _ _ _ _ _ _ _ => ih

theorem sound_init (a : A) : Sound S initial setting (.init initial a) := by
  refine ⟨?_, ⟨rfl, ?_, ?_, ?_, ?_, ?_, lawful_nil initial⟩, ⟨.refl, ?_⟩, ?_⟩
  · constructor <;> simp [World.init, Handle.init]
  · simp [World.init, Handle.init]
  · simp [World.init]
  · exact .inl fun _ _ _ _ _ _ hev => by cases hev
  · exact fun ⟨_, _, _, _, hev⟩ => by cases hev
  · exact fun ⟨_, hev, _⟩ => by cases hev
  · simp [World.init, Handle.init]
  · constructor <;> simp [World.init]

theorem wp_threads (a : A) (t : Party) : wp (maintenanceSystem S) (rules S initial setting) t
    (setting.script t) (fun _ _ => True) (.init initial a) := by
  cases t with
  | main =>
    refine wp_client setting.calls (sound_init a) ⟨rfl, rfl, ?_, ?_, ?_, ?_, ?_⟩ <;>
      simp [World.init, Handle.init]
  | other => exact wp_others setting.elsewhere
  | renewer n =>
    refine wp_step (stable_true _) trivial (fun _ _ _ => trivial) ?_
    intro s _ s' _ _ heffect _
    obtain ⟨hgeneration, hthread, rfl⟩ := heffect
    cases hgeneration
    exact wp_run _ ⟨rfl, hthread, fun _ hl => by cases hl⟩

theorem runs_sound {a : A} {c : Run A} (hc : Runs S initial a setting c) :
    Sound S initial setting c.state :=
  (reachable_wp (R := rules S initial setting) (sound_init a) (fun _ _ _ _ (h : False) => h.elim)
    (wp_threads a) hc).1

/-- **Maintenance stops before it publishes.** In every run, whatever the authority answers: after
a publication that returned or was refused for good, and after the end of the context, no renewal
is called; each published lease is the last one that `renew` returned; and a clean `__exit__` after
a returned publication returns, and returns only then, with no renewal lost. -/
theorem maintenance_stops_before_publishing (S : Service A) (initial : Lease) (a : A)
    (setting : Setting) (c : Run A) (hc : Runs S initial a setting c) :
    (∀ before e after, c.state.log = before ++ e :: after → closes e = true →
      ∀ lease, .renewing lease ∉ after) ∧
    (∀ before lease p after, c.state.log = before ++ .publishing lease p :: after →
      lease = lastLease initial before) ∧
    (∀ before turn out b after, c.state.log = before ++ .ended turn (.exit true) out b :: after →
      Returned before → out = .ok none) ∧
    (∀ before turn t b after, c.state.log = before ++ .ended turn (.exit true) (.ok t) b :: after →
      Returned before ∧ ∀ lease e b, .renewed lease (.error e) b ∉ before) := by
  have hlawful := (runs_sound hc).recorded.lawful
  refine ⟨?_, ?_, ?_, ?_⟩
  · intro before e after hlog hcloses lease hrenewing
    obtain ⟨between, later, rfl⟩ := List.append_of_mem hrenewing
    have hallowed := hlawful (before ++ e :: between) (.renewing lease) later (by simp [hlog])
    have hopen := hallowed e (by simp)
    rw [hcloses] at hopen
    cases hopen
  · exact fun before lease p after hlog => hlawful before _ after hlog
  · exact fun before turn out b after hlog => (hlawful before _ after hlog).1
  · exact fun before turn t b after hlog => (hlawful before _ after hlog).2 t rfl

/-! ## A run to a clean exit -/

theorem Runs.step {a : A} {c : Run A} (hc : Runs S initial a setting c) (t : Party) (op : Op)
    (r : Reply op) {k : Reply op → Script Unit} {s' : World A} (hp : c.prog t = some (.exec op k))
    (hs : Effect S c.state t op r s') :
    Runs S initial a setting ⟨s', Function.update c.prog t (some (k r))⟩ :=
  Reachable.exec hc hp hs

/-- An authority that grants everything. -/
def grantingService : Service Unit where
  renew _ lease r _ := r = .ok lease
  publish _ _ _ r _ := r = .ok sampleTerminal
  elsewhere _ _ := False

def sampleSetting : Setting where
  calls := [.enter, .publish (.succeed sampleReference), .exit true]
  wakeups _ := 2
  elsewhere := 0

/-- One renewal, a publication and a clean exit. -/
theorem maintenance_stops_before_publishing_sample : ∃ c,
    Runs grantingService sampleLease () sampleSetting c ∧
    ∃ before, c.state.log = before ++ [.ended 2 (.exit true) (.ok none) ()] ∧
      Returned before := by
  have h : Runs grantingService sampleLease () sampleSetting (start _ _) := .refl
  have h := Runs.step h .main .enter (.ok ()) rfl ⟨rfl, rfl⟩
  have h := Runs.step h .main .startThread () rfl rfl
  have h := Runs.step h .main (.ended .enter (.ok none)) () rfl rfl
  have h := Runs.step h (.renewer 0) .begin () rfl ⟨rfl, rfl, rfl⟩
  have h := Runs.step h (.renewer 0) .wait false rfl ⟨rfl, rfl⟩
  have h := Runs.step h (.renewer 0) .readLease sampleLease rfl ⟨rfl, rfl⟩
  have h := Runs.step h (.renewer 0) (.callRenew sampleLease) () rfl rfl
  have h := Runs.step h (.renewer 0) (.renew sampleLease) (.ok sampleLease) rfl ⟨(), rfl, rfl⟩
  have h := Runs.step h (.renewer 0) (.storeLease sampleLease) () rfl rfl
  have h := Runs.step h .main .prepare (.ok none) rfl ⟨rfl, rfl⟩
  have h := Runs.step h (.renewer 0) .wait true rfl ⟨rfl, rfl⟩
  have h := Runs.step h (.renewer 0) .finish () rfl rfl
  have h := Runs.step h .main .join true rfl ⟨.inl ⟨rfl, rfl⟩, rfl⟩
  have h := Runs.step h .main .readLoss none rfl ⟨rfl, rfl⟩
  have h := Runs.step h .main .readLease sampleLease rfl ⟨rfl, rfl⟩
  have h := Runs.step h .main (.callPublish sampleLease (.succeed sampleReference)) () rfl rfl
  have h := Runs.step h .main (.publish sampleLease (.succeed sampleReference)) (.ok sampleTerminal)
    rfl ⟨(), rfl, rfl⟩
  have h := Runs.step h .main .commit () rfl rfl
  have h := Runs.step h .main (.ended (.publish (.succeed sampleReference))
    (.ok (some sampleTerminal))) () rfl rfl
  have h := Runs.step h .main .exit () rfl rfl
  have h := Runs.step h .main .join true rfl ⟨.inl ⟨rfl, rfl⟩, rfl⟩
  have h := Runs.step h .main .readTerminalized true rfl ⟨rfl, rfl⟩
  have h := Runs.step h .main .readLoss none rfl ⟨rfl, rfl⟩
  have h := Runs.step h .main (.ended (.exit true) (.ok none)) () rfl rfl
  have hexit := (maintenance_stops_before_publishing _ _ _ _ _ h).2.2.2 _ 2 none () [] rfl
  exact ⟨_, h, _, rfl, hexit.1⟩

end DrStore.Leases.Terminalization
