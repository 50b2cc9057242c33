import DrStore.Leases.Maintenance

/-! # Maintenance stops before it publishes

While the renewer runs, the caller's thread is outside a publication or waits for it; once it has
ended, nobody but the caller's thread touches the handle. So the flags, the stop event and the
log stay in step, whatever the authority answers. -/
namespace DrStore.Leases.Renewal
open DrStore.Base.Programs DrStore.Base.Pool
open DrStore.Store.ContentAddressing DrStore.Leases.Models DrStore.Leases.Maintenance

variable {A : Type}

/-! ## The log -/

/-- A publication that returned or was refused for good, or the end of the context. -/
def closing : Call → Except Raised (Option Terminal) → Bool
  | .publish _, .ok _ => true
  | .publish _, .error e => e.definitive
  | .exit _, _ => true
  | _, _ => false

def closes : Event A → Bool
  | .ended _ call out _ => closing call out
  | _ => false

def renewal? : Event A → Option Lease
  | .renewed _ (.ok renewed) _ => some renewed
  | _ => none

def loss? : Event A → Option Raised
  | .renewed _ (.error e) _ => some e
  | .published _ _ _ (.error e) _ _ => if e.definitive then some e else none
  | _ => none

/-- The last lease that `renew` returned. -/
def lastLease (initial : Lease) (log : List (Event A)) : Lease :=
  (log.filterMap renewal?).getLast?.getD initial

def Returned (log : List (Event A)) : Prop :=
  ∃ turn p t a, .ended turn (.publish p) (.ok t) a ∈ log

/-- Publications have only failed so far, and might still succeed. -/
def Transient (log : List (Event A)) : Prop :=
  ∀ i l p r a a', .published i l p r a a' ∈ log → ∃ e, r = .error e ∧ e.definitive = false

theorem lastLease_append (initial : Lease) (log : List (Event A)) (e : Event A) :
    lastLease initial (log ++ [e]) = (renewal? e).getD (lastLease initial log) := by
  unfold lastLease
  rw [List.filterMap_append]
  cases h : renewal? e with
  | none => simp [h]
  | some l => simp [h]

/-- What may happen after `before`. -/
def Allowed (initial : Lease) (before : List (Event A)) : Event A → Prop
  | .renewing _ => ∀ e ∈ before, closes e = false
  | .publishing lease _ => lease = lastLease initial before
  | .ended _ (.exit true) out _ => (Returned before → out = .ok none) ∧
      (∀ t, out = .ok t → Returned before ∧ ∀ lease e a, .renewed lease (.error e) a ∉ before)
  | _ => True

def Lawful (initial : Lease) (log : List (Event A)) : Prop :=
  ∀ before e after, log = before ++ e :: after → Allowed initial before e

theorem lawful_nil (initial : Lease) : Lawful initial ([] : List (Event A)) := by
  intro before e after h
  simp at h

theorem Lawful.append {initial : Lease} {log : List (Event A)} (h : Lawful initial log)
    {e : Event A} (he : Allowed initial log e) : Lawful initial (log ++ [e]) := by
  intro before e' after heq
  rcases List.eq_nil_or_concat after with rfl | ⟨after', last, rfl⟩
  · obtain ⟨rfl, hlast⟩ := List.append_inj' heq rfl
    cases hlast
    exact he
  · have heq : log ++ [e] = (before ++ e' :: after') ++ [last] := by
      rw [heq]
      simp
    obtain ⟨rfl, _⟩ := List.append_inj' heq rfl
    exact h before e' after' rfl

/-! ## The authority -/

/-- One step of the authority, whoever makes it. -/
def Move (S : Service A) (a a' : A) : Prop :=
  S.elsewhere a a' ∨ (∃ lease r, S.renew a lease r a') ∨ ∃ lease p r, S.publish a lease p r a'

abbrev Moves (S : Service A) : A → A → Prop := Relation.ReflTransGen (Move S)

/-- The second lease comes from the first by renewals. -/
abbrev Renewals (S : Service A) : Lease → Lease → Prop :=
  Relation.ReflTransGen fun l l' => ∃ a a', S.renew a l (.ok l') a'

/-! ## The invariant -/

/-- No renewal will be called any more. -/
def Settled (h : Handle) : Prop :=
  h.terminalizing = false ∧
    ((h.exited = true ∧ h.stop = true ∧ (h.thread = .unstarted ∨ h.thread = .waiting ∨
        h.thread = .leaving ∨ h.thread = .ended)) ∨
      ((h.terminalizationStarted = true ∨ h.loss ≠ none) ∧
        (h.thread = .leaving ∨ h.thread = .ended)))

/-- The flags among themselves. -/
structure Flags (h : Handle) : Prop where
  lost : h.loss ≠ none → h.thread = .leaving ∨ h.thread = .ended
  committed : h.terminalizationStarted = true →
    h.terminalized = true ∧ h.loss = none ∧ h.thread = .ended ∧ h.terminalizing = false
  terminalized : h.terminalized = true → h.terminalizationStarted = true
  stopped : h.stop = true → h.loss ≠ none ∨ h.exited = true ∨ h.terminalizing = true ∨
    h.terminalizationStarted = true
  exited : h.exited = true → h.stop = true
  unentered : h.entered = false → h.thread = .unstarted

/-- The handle and the log. -/
structure Recorded (initial : Lease) (h : Handle) (log : List (Event A)) : Prop where
  lease : lastLease initial log = match h.thread with
    | .storing renewed => renewed
    | _ => h.lease
  loss : ∀ e, h.loss = some e ∨ h.thread = .losing e → ∃ ev ∈ log, loss? ev = some e
  renewals : ∀ l e a, .renewed l (.error e) a ∈ log → h.loss ≠ none ∨ ∃ e', h.thread = .losing e'
  answered : Transient log ∨ h.loss ≠ none ∨ h.terminalizing = true ∨
    h.terminalizationStarted = true
  returned : Returned log → h.terminalizationStarted = true
  closed : (∃ ev ∈ log, closes ev = true) → Settled h
  lawful : Lawful initial log

variable (S : Service A) (initial : Lease) (setting : Setting)

/-- How the `j`-th call, a publication of `p`, came to its end. -/
inductive Outcome (log : List (Event A)) (j : Nat) (p : Publication) :
    Except Raised (Option Terminal) → Prop
  | refused (message : String) :
      (∃ k < j, ∃ q t a, .ended k (.publish q) (.ok t) a ∈ log) ∨
        (∃ k < j, ∃ clean, setting.calls[k]? = some (.exit clean)) ∨
        (∀ i l q r a a', .published i l q r a a' ∈ log → j < i) →
      Outcome log j p (.error (.runtimeError message))
  | lost (e : Raised) (ev : Event A) : ev ∈ log → loss? ev = some e →
      (∀ i l q r a a', ev = .published i l q r a a' → i < j) → Outcome log j p (.error e.surfaced)
  | asked (l : Lease) (r : Except Raised Terminal) (a a' : A) :
      .published j l p r a a' ∈ log → Outcome log j p (r.map some)

/-- The log and the authority. -/
structure Ledger (authority : A) (turn : Nat) (log : List (Event A)) : Prop where
  published : ∀ i l p r a a', .published i l p r a a' ∈ log → S.publish a l p r a' ∧
    Renewals S initial l ∧ Moves S a' authority ∧ i ≤ turn ∧
    setting.calls[i]? = some (.publish p)
  renewed : ∀ l r a, .renewed l r a ∈ log → ∃ a', S.renew a l r a' ∧ Renewals S initial l ∧
    Moves S a' authority
  ended : ∀ j call out a, .ended j call out a ∈ log → j < turn ∧ setting.calls[j]? = some call ∧
    Moves S a authority ∧ ∀ p, call = .publish p → Outcome setting log j p out
  unique : ∀ i l p r a a' l' p' r' b b', .published i l p r a a' ∈ log →
    .published i l' p' r' b b' ∈ log → r = r'
  ordered : ∀ i l p r a a' j l' p' r' b b', .published i l p r a a' ∈ log →
    .published j l' p' r' b b' ∈ log → i < j → Moves S a' b ∧ ∃ e, r = .error e ∧
      e.definitive = false
  before : ∀ i l p r a a' l' e b, .published i l p r a a' ∈ log →
    .renewed l' (.error e) b ∈ log → Moves S a' b

structure Sound (s : World A) : Prop where
  flags : Flags s.handle
  recorded : Recorded initial s.handle s.log
  leases : Renewals S initial s.handle.lease ∧
    ∀ renewed, s.handle.thread = .storing renewed → Renewals S initial renewed
  ledger : Ledger S initial setting s.authority s.turn s.log

/-- A thread that has not started or has ended. -/
def Idle (h : Handle) : Prop := h.thread = .unstarted ∨ h.thread = .ended

/-- The events of a renewer. -/
def ofRenewer : Event A → Prop
  | .renewing _ | .renewed _ _ _ => True
  | _ => False

/-- What a step of `t` leaves alone. -/
structure Guarantee (t : Party) (s s' : World A) : Prop where
  own : t ≠ .main → s'.turn = s.turn ∧ s'.handle.entered = s.handle.entered ∧
    s'.handle.exited = s.handle.exited ∧ s'.handle.terminalizing = s.handle.terminalizing ∧
    s'.handle.terminalizationStarted = s.handle.terminalizationStarted ∧
    s'.handle.terminalized = s.handle.terminalized
  frozen : t ≠ .main → Idle s.handle → s'.handle = s.handle ∧ s'.log = s.log
  started : t ≠ .main → s.handle.thread ≠ .unstarted → s'.handle.thread ≠ .unstarted
  settled : t ≠ .main → Settled s.handle → Settled s'.handle
  loss : s.handle.loss ≠ none → s'.handle.loss = s.handle.loss
  kept : ∀ ev ∈ s.log, ev ∈ s'.log
  added : t ≠ .main → ∀ ev ∈ s'.log, ev ∈ s.log ∨ ofRenewer ev
  running : ∀ n, t ≠ .renewer n → s.handle.renewerGeneration = n → ¬ Idle s.handle →
    s'.handle.renewerGeneration = n ∧ s'.handle.thread = s.handle.thread ∧
      s'.handle.lease = s.handle.lease

/-- What the code knows where it makes a step. -/
def Permitted (s : World A) (t : Party) : Op → Prop
  | .enter | .prepare | .exit => t = .main
  | .startThread => t = .main ∧ s.handle.thread = .unstarted ∧ s.handle.entered = true
  | .callPublish lease _ => t = .main ∧ s.handle.thread = .ended ∧ lease = s.handle.lease
  | .publish lease p => t = .main ∧ s.handle.thread = .ended ∧ lease = s.handle.lease ∧
      s.handle.loss = none ∧ s.handle.terminalizationStarted = false ∧
      s.handle.terminalizing = true ∧ setting.calls[s.turn]? = some (.publish p) ∧
      Transient s.log ∧ ∀ i l q r a a', .published i l q r a a' ∈ s.log → i < s.turn
  | .abort error => t = .main ∧
      (s.handle.terminalizing = true → s.handle.loss = none → s.handle.thread = .ended ∧
        (error.definitive = true → ∃ ev ∈ s.log, loss? ev = some error) ∧
        (error.definitive = false → Transient s.log)) ∧
      (s.handle.terminalizing = false → s.handle.loss ≠ none)
  | .newThread => t = .main ∧ s.handle.thread = .ended ∧ s.handle.loss = none ∧
      s.handle.terminalizationStarted = false ∧ s.handle.stop = false ∧ s.handle.entered = true
  | .commit => t = .main ∧ s.handle.thread = .ended ∧ s.handle.loss = none ∧
      s.handle.terminalizing = true
  | .ended call out => t = .main ∧ setting.calls[s.turn]? = some call ∧
      (closing call out = true → Settled s.handle) ∧
      Allowed initial s.log (.ended s.turn call out s.authority) ∧
      (∀ p, call = .publish p → Outcome setting s.log s.turn p out ∧
        ∀ r, out = .ok r → s.handle.terminalizationStarted = true)
  | .wait => t = .renewer s.handle.renewerGeneration ∧ s.handle.thread = .waiting
  | .callRenew _ => t = .renewer s.handle.renewerGeneration ∧ s.handle.thread = .awake
  | .renew lease => t = .renewer s.handle.renewerGeneration ∧ s.handle.thread = .renewing ∧
      lease = s.handle.lease
  | .recordLoss error => t = .renewer s.handle.renewerGeneration ∧ s.handle.thread = .losing error
  | .stopRenewer => t = .renewer s.handle.renewerGeneration ∧ s.handle.thread = .leaving ∧
      s.handle.loss ≠ none
  | .storeLease renewed => t = .renewer s.handle.renewerGeneration ∧
      s.handle.thread = .storing renewed
  | .finish => t = .renewer s.handle.renewerGeneration ∧ s.handle.thread = .leaving
  | .elsewhere => t = .other
  | .join | .readLoss | .readLease | .readTerminalized | .begin | .sleep => True

def Kept (t : Party) (s s' : World A) : Prop := Sound S initial setting s' ∧ Guarantee t s s'

/-! ### The locked section of an abort, case by case -/

section Abort

variable {h : Handle} {error : Raised}

theorem abort_started (hstarted : h.terminalizationStarted = true) : h.abort error = (false, h) := by
  simp [Handle.abort, hstarted]

theorem abort_lost (hstarted : h.terminalizationStarted = false) (hloss : h.loss ≠ none) :
    h.abort error = (false, { h with terminalizing := false }) := by
  obtain ⟨loss, hsome⟩ := Option.ne_none_iff_exists'.mp hloss
  simp [Handle.abort, hstarted, hsome]

theorem abort_definitive (hstarted : h.terminalizationStarted = false) (hloss : h.loss = none)
    (hd : error.definitive = true) :
    h.abort error = (false, { h with terminalizing := false, loss := some error }) := by
  simp [Handle.abort, hstarted, hloss, hd]

theorem abort_transient (hstarted : h.terminalizationStarted = false) (hloss : h.loss = none)
    (hd : error.definitive = false) (hterminalizing : h.terminalizing = true) :
    h.abort error = (!h.exited, { h with
      terminalizing := false, stop := h.stop && h.exited }) := by
  cases he : h.exited <;> simp [Handle.abort, hstarted, hloss, hd, hterminalizing, he]

end Abort

variable {S initial setting}

/-! ### The ledger grows -/

theorem Outcome.mono {log log' : List (Event A)} {j : Nat} {p : Publication}
    {out : Except Raised (Option Terminal)} (h : Outcome setting log j p out)
    (hkept : ∀ ev ∈ log, ev ∈ log')
    (hlate : ∀ i l q r a a', .published i l q r a a' ∈ log' →
      .published i l q r a a' ∈ log ∨ j < i) : Outcome setting log' j p out := by
  cases h with
  | refused message h =>
    refine .refused message ?_
    obtain ⟨k, hk, q, t, a, hev⟩ | hexit | hnone := h
    · exact .inl ⟨k, hk, q, t, a, hkept _ hev⟩
    · exact .inr (.inl hexit)
    · refine .inr (.inr ?_)
      intro i l q r a a' hev
      obtain hold | hlt := hlate i l q r a a' hev
      · exact hnone i l q r a a' hold
      · exact hlt
  | lost e ev hev hloss hearlier => exact .lost e ev (hkept _ hev) hloss hearlier
  | asked l r a a' hev => exact .asked l r a a' (hkept _ hev)

namespace Ledger

variable {authority a : A} {turn : Nat} {log : List (Event A)}

/-- An event that is not about the authority, nor the end of a call. -/
def Plain : Event A → Prop
  | .entered | .exiting | .renewing _ | .publishing _ _ => True
  | _ => False

theorem plain (h : Ledger S initial setting authority turn log) {e : Event A} (he : Plain e) :
    Ledger S initial setting authority turn (log ++ [e]) := by
  have hmem : ∀ ev, ¬ Plain ev → ev ∈ log ++ [e] → ev ∈ log := by
    intro ev hev hin
    obtain hin | hin := List.mem_append.mp hin
    · exact hin
    · rw [List.mem_singleton.mp hin] at hev
      exact absurd he hev
  have hpublished : ∀ i l p r b b', .published i l p r b b' ∈ log ++ [e] →
      .published i l p r b b' ∈ log := fun i l p r b b' => hmem _ id
  have hrenewed : ∀ l r b, .renewed l r b ∈ log ++ [e] → .renewed l r b ∈ log :=
    fun l r b => hmem _ id
  refine ⟨?_, ?_, ?_, ?_, ?_, ?_⟩
  · exact fun i l p r b b' hev => h.published i l p r b b' (hpublished i l p r b b' hev)
  · exact fun l r b hev => h.renewed l r b (hrenewed l r b hev)
  · intro j call out b hev
    obtain ⟨hj, hcall, hmoves, houtcome⟩ := h.ended j call out b (hmem _ id hev)
    refine ⟨hj, hcall, hmoves, ?_⟩
    intro p hp
    exact (houtcome p hp).mono (fun _ hold => List.mem_append_left _ hold)
      fun i l q r b b' hnew => .inl (hpublished i l q r b b' hnew)
  · grind [h.unique]
  · grind [h.ordered]
  · grind [h.before]

theorem moved (h : Ledger S initial setting authority turn log) (hmove : Move S authority a) :
    Ledger S initial setting a turn log := by
  refine ⟨?_, ?_, ?_, h.unique, h.ordered, h.before⟩
  · intro i l p r b b' hev
    obtain ⟨hpublish, hl, hmoves, hi⟩ := h.published i l p r b b' hev
    exact ⟨hpublish, hl, hmoves.tail hmove, hi⟩
  · intro l r b hev
    obtain ⟨b', hrenew, hl, hmoves⟩ := h.renewed l r b hev
    exact ⟨b', hrenew, hl, hmoves.tail hmove⟩
  · intro j call out b hev
    obtain ⟨hj, hcall, hmoves, houtcome⟩ := h.ended j call out b hev
    exact ⟨hj, hcall, hmoves.tail hmove, houtcome⟩

theorem append_renewed (h : Ledger S initial setting authority turn log) {l : Lease}
    {r : Except Raised Lease} (hrenew : S.renew authority l r a) (hl : Renewals S initial l) :
    Ledger S initial setting a turn (log ++ [.renewed l r authority]) := by
  have hmoved := h.moved (.inr (.inl ⟨l, r, hrenew⟩))
  have hpublished : ∀ i l' p r' b b', .published i l' p r' b b' ∈ log ++ [.renewed l r authority] →
      .published i l' p r' b b' ∈ log := by
    intro i l' p r' b b' hev
    simpa using hev
  refine ⟨?_, ?_, ?_, ?_, ?_, ?_⟩
  · exact fun i l' p r' b b' hev => hmoved.published i l' p r' b b' (hpublished i l' p r' b b' hev)
  · intro l' r' b hev
    obtain hev | hev := List.mem_append.mp hev
    · exact hmoved.renewed l' r' b hev
    · cases List.mem_singleton.mp hev
      exact ⟨a, hrenew, hl, .refl⟩
  · intro j call out b hev
    obtain ⟨hj, hcall, hmoves, houtcome⟩ := hmoved.ended j call out b (by simpa using hev)
    refine ⟨hj, hcall, hmoves, ?_⟩
    intro p hp
    exact (houtcome p hp).mono (fun _ hold => List.mem_append_left _ hold)
      fun i l q r b b' hnew => .inl (hpublished i l q r b b' hnew)
  · grind [h.unique]
  · grind [h.ordered]
  · intro i l' p r' b b' l'' e c hpub hev
    obtain hev | hev := List.mem_append.mp hev
    · exact h.before i l' p r' b b' l'' e c (hpublished i l' p r' b b' hpub) hev
    · cases List.mem_singleton.mp hev
      exact (h.published i l' p r' b b' (hpublished i l' p r' b b' hpub)).2.2.1

theorem append_published (h : Ledger S initial setting authority turn log) {l : Lease}
    {p : Publication} {r : Except Raised Terminal} (hpublish : S.publish authority l p r a)
    (hl : Renewals S initial l) (hcall : setting.calls[turn]? = some (.publish p))
    (hfirst : ∀ i l q r a a', .published i l q r a a' ∈ log → i < turn)
    (htransient : Transient log)
    (hrenewed : ∀ l e b, .renewed l (.error e) b ∉ log) :
    Ledger S initial setting a turn (log ++ [.published turn l p r authority a]) := by
  have hmoved := h.moved (.inr (.inr ⟨l, p, r, hpublish⟩))
  have hcases : ∀ i l' q r' b b', .published i l' q r' b b' ∈
      log ++ [.published turn l p r authority a] → .published i l' q r' b b' ∈ log ∨
        (i = turn ∧ l' = l ∧ q = p ∧ r' = r ∧ b = authority ∧ b' = a) := by
    intro i l' q r' b b' hev
    simpa using hev
  refine ⟨?_, ?_, ?_, ?_, ?_, ?_⟩
  · intro i l' q r' b b' hev
    obtain hev | ⟨rfl, rfl, rfl, rfl, rfl, rfl⟩ := hcases i l' q r' b b' hev
    · exact hmoved.published i l' q r' b b' hev
    · exact ⟨hpublish, hl, .refl, le_rfl, hcall⟩
  · intro l' r' b hev
    exact hmoved.renewed l' r' b (by simpa using hev)
  · intro j call out b hev
    obtain ⟨hj, hcall, hmoves, houtcome⟩ := hmoved.ended j call out b (by simpa using hev)
    refine ⟨hj, hcall, hmoves, ?_⟩
    intro q hq
    refine (houtcome q hq).mono (fun _ hold => List.mem_append_left _ hold) ?_
    intro i l' q r' b b' hnew
    obtain hold | ⟨rfl, _⟩ := hcases i l' q r' b b' hnew
    · exact .inl hold
    · exact .inr hj
  · intro i l₁ p₁ r₁ b₁ b₁' l₂ p₂ r₂ b₂ b₂' h₁ h₂
    have := hcases _ _ _ _ _ _ h₁
    have := hcases _ _ _ _ _ _ h₂
    grind [h.unique]
  · intro i l₁ p₁ r₁ b₁ b₁' j l₂ p₂ r₂ b₂ b₂' h₁ h₂ hij
    obtain hold₂ | ⟨rfl, rfl, rfl, rfl, rfl, rfl⟩ := hcases _ _ _ _ _ _ h₂
    · obtain hold₁ | ⟨rfl, _⟩ := hcases _ _ _ _ _ _ h₁
      · exact h.ordered i l₁ p₁ r₁ b₁ b₁' j l₂ p₂ r₂ b₂ b₂' hold₁ hold₂ hij
      · have := hfirst j l₂ p₂ r₂ b₂ b₂' hold₂
        omega
    · obtain hold₁ | ⟨rfl, _⟩ := hcases _ _ _ _ _ _ h₁
      · exact ⟨(h.published i l₁ p₁ r₁ b₁ b₁' hold₁).2.2.1, htransient i l₁ p₁ r₁ b₁ b₁' hold₁⟩
      · omega
  · intro i l' q r' b b' l'' e c _ hev
    exact absurd (by simpa using hev) (hrenewed l'' e c)

theorem append_ended (h : Ledger S initial setting authority turn log) {call : Call}
    {out : Except Raised (Option Terminal)} (hcall : setting.calls[turn]? = some call)
    (houtcome : ∀ p, call = .publish p → Outcome setting log turn p out) :
    Ledger S initial setting authority (turn + 1) (log ++ [.ended turn call out authority]) := by
  have hpublished : ∀ i l p r b b', .published i l p r b b' ∈
      log ++ [.ended turn call out authority] → .published i l p r b b' ∈ log := by
    intro i l p r b b' hev
    simpa using hev
  have hmono : ∀ j p out', Outcome setting log j p out' →
      Outcome setting (log ++ [.ended turn call out authority]) j p out' :=
    fun j p out' h => h.mono (fun _ hold => List.mem_append_left _ hold)
      fun i l q r b b' hnew => .inl (hpublished i l q r b b' hnew)
  refine ⟨?_, ?_, ?_, ?_, ?_, ?_⟩
  · intro i l p r b b' hev
    obtain ⟨hpublish, hl, hmoves, hi, hcall⟩ := h.published i l p r b b' (hpublished i l p r b b' hev)
    exact ⟨hpublish, hl, hmoves, hi.trans (Nat.le_succ turn), hcall⟩
  · intro l r b hev
    exact h.renewed l r b (by simpa using hev)
  · intro j call' out' b hev
    obtain hev | hev := List.mem_append.mp hev
    · obtain ⟨hj, hcall', hmoves, hold⟩ := h.ended j call' out' b hev
      exact ⟨hj.trans (Nat.lt_succ_self turn), hcall', hmoves, fun p hp => hmono j p out' (hold p hp)⟩
    · cases List.mem_singleton.mp hev
      exact ⟨Nat.lt_succ_self turn, hcall, .refl, fun p hp => hmono turn p out (houtcome p hp)⟩
  · grind [h.unique]
  · grind [h.ordered]
  · grind [h.before]

end Ledger

namespace Kept

variable {s : World A} {t : Party}

theorem refl (h : Sound S initial setting s) : Kept S initial setting t s s :=
  ⟨h, fun _ => ⟨rfl, rfl, rfl, rfl, rfl, rfl⟩, fun _ _ => ⟨rfl, rfl⟩, fun _ h => h, fun _ h => h,
    fun _ => rfl, fun _ h => h, fun _ _ h => .inl h, fun _ _ h _ => ⟨h, rfl, rfl⟩⟩

/-- A step of the caller's thread. -/
theorem main {s' : World A} (h : Sound S initial setting s')
    (hloss : s.handle.loss ≠ none → s'.handle.loss = s.handle.loss) (hkept : ∀ ev ∈ s.log, ev ∈ s'.log)
    (hrunning : ¬ Idle s.handle → s'.handle.renewerGeneration = s.handle.renewerGeneration ∧
      s'.handle.thread = s.handle.thread ∧ s'.handle.lease = s.handle.lease) :
    Kept S initial setting .main s s' := by
  refine ⟨h, ?_, ?_, ?_, ?_, hloss, hkept, ?_, ?_⟩
  · exact fun hmain => absurd rfl hmain
  · exact fun hmain => absurd rfl hmain
  · exact fun hmain => absurd rfl hmain
  · exact fun hmain => absurd rfl hmain
  · exact fun hmain => absurd rfl hmain
  · intro n _ hn hidle
    obtain ⟨hgeneration, hsame⟩ := hrunning hidle
    exact ⟨hgeneration.trans hn, hsame⟩

theorem prepare (h : Sound S initial setting s) :
    Kept S initial setting .main s { s with handle := s.handle.prepare.2 } := by
  unfold Handle.prepare
  split
  · exact refl h
  · split
    · exact refl h
    · split
      · exact refl h
      · split
        · exact refl h
        · rename_i hstarted hterminalizing hloss hactive
          have hf := h.flags
          have hr := h.recorded
          have hopen : ¬ Settled s.handle := by grind [Settled]
          refine main ⟨?_, ?_, h.leases, h.ledger⟩ (fun _ => rfl) (fun _ h => h)
            (fun _ => ⟨rfl, rfl, rfl⟩)
          · constructor <;> grind [hf.lost, hf.committed, hf.terminalized, hf.unentered]
          · exact ⟨hr.lease, hr.loss, hr.renewals, by simp, hr.returned,
              fun hclosed => absurd (hr.closed hclosed) hopen, hr.lawful⟩

theorem abort {error : Raised} (h : Sound S initial setting s)
    (hp : Permitted initial setting s .main (.abort error)) :
    Kept S initial setting .main s { s with handle := (s.handle.abort error).2 } := by
  have hf := h.flags
  have hr := h.recorded
  obtain ⟨_, hterminalizing, hidle⟩ := hp
  have hclosed : (∃ ev ∈ s.log, closes ev = true) → s.handle.terminalizing = false :=
    fun h => (hr.closed h).1
  by_cases hstarted : s.handle.terminalizationStarted = true
  · rw [abort_started hstarted]
    exact refl h
  rw [Bool.not_eq_true] at hstarted
  by_cases hloss : s.handle.loss = none
  · have hactive : s.handle.terminalizing = true := by grind
    obtain ⟨hended, hcause, hconflict⟩ := hterminalizing hactive hloss
    cases hd : error.definitive with
    | true =>
      rw [abort_definitive hstarted hloss hd]
      refine main ⟨?_, ⟨hr.lease, ?_, ?_, ?_, hr.returned, ?_, hr.lawful⟩, h.leases, h.ledger⟩ ?_
        (fun _ h => h) (fun _ => ⟨rfl, rfl, rfl⟩)
      · constructor <;> grind [hf.committed, hf.terminalized, hf.unentered, hf.exited]
      · grind
      · exact fun _ _ _ _ => .inl (Option.some_ne_none _)
      · exact .inr (.inl (Option.some_ne_none _))
      · grind
      · grind
    | false =>
      rw [abort_transient hstarted hloss hd hactive]
      have hleft := hf.stopped
      refine main ⟨?_, ⟨hr.lease, ?_, ?_, ?_, hr.returned, ?_, hr.lawful⟩, h.leases, h.ledger⟩
        (fun _ => rfl) (fun _ h => h) (fun _ => ⟨rfl, rfl, rfl⟩)
      · constructor <;> grind [hf.committed, hf.terminalized, hf.unentered, hf.exited]
      · exact hr.loss
      · exact hr.renewals
      · exact .inl (hconflict hd)
      · grind
  · rw [abort_lost hstarted hloss]
    refine main ⟨?_, ⟨hr.lease, ?_, ?_, ?_, hr.returned, ?_, hr.lawful⟩, h.leases, h.ledger⟩
      (fun _ => rfl) (fun _ h => h) (fun _ => ⟨rfl, rfl, rfl⟩)
    · constructor <;> grind [hf.lost, hf.committed, hf.terminalized, hf.unentered, hf.exited]
    · exact hr.loss
    · exact hr.renewals
    · exact .inr (.inl hloss)
    · exact fun h => ⟨rfl, (hr.closed h).2⟩

theorem commit (h : Sound S initial setting s)
    (hp : Permitted initial setting s .main .commit) :
    Kept S initial setting .main s { s with handle := { s.handle with
      terminalizationStarted := true, terminalized := true, terminalizing := false } } := by
  obtain ⟨_, hended, hloss, hterminalizing⟩ := hp
  have hf := h.flags
  have hr := h.recorded
  refine main ⟨?_, ⟨hr.lease, hr.loss, hr.renewals, by simp, fun _ => rfl, ?_, hr.lawful⟩, h.leases,
    h.ledger⟩ (fun _ => rfl) (fun _ h => h) (fun _ => ⟨rfl, rfl, rfl⟩)
  · constructor <;> grind [hf.unentered, hf.exited]
  · intro hclosed
    have := (hr.closed hclosed).1
    rw [hterminalizing] at this
    cases this

theorem newThread (h : Sound S initial setting s)
    (hp : Permitted initial setting s .main .newThread) :
    Kept S initial setting .main s { s with
      handle.renewerGeneration := s.handle.renewerGeneration + 1, handle.thread := .unstarted } := by
  obtain ⟨_, hended, hloss, hstarted, hstop, hentered⟩ := hp
  have hf := h.flags
  have hr := h.recorded
  have hopen : ¬ Settled s.handle := by grind [Settled]
  have hrenewals := hr.renewals
  have hlease := hr.lease
  have hcauses := hr.loss
  simp only [hended, hloss] at hrenewals hlease hcauses
  refine main ⟨?_, ⟨hlease, ?_, ?_, hr.answered, hr.returned, ?_, hr.lawful⟩, ?_, h.ledger⟩
    (fun _ => rfl) (fun _ h => h) ?_
  · constructor <;> grind [hf.terminalized, hf.exited]
  · grind
  · grind
  · exact fun hclosed => absurd (hr.closed hclosed) hopen
  · exact ⟨h.leases.1, by simp⟩
  · exact fun hidle => absurd (.inr hended) hidle

theorem startThread (h : Sound S initial setting s)
    (hp : Permitted initial setting s .main .startThread) :
    Kept S initial setting .main s { s with handle.thread := .waiting } := by
  obtain ⟨_, hunstarted, hentered⟩ := hp
  have hf := h.flags
  have hr := h.recorded
  have hloss : s.handle.loss = none := by grind [hf.lost]
  have hcommitted := hf.committed
  have hrenewals := hr.renewals
  have hlease := hr.lease
  have hcauses := hr.loss
  simp only [hunstarted, hloss] at hrenewals hlease hcauses
  refine main ⟨?_, ⟨hlease, ?_, ?_, hr.answered, hr.returned, ?_, hr.lawful⟩, ?_, h.ledger⟩
    (fun _ => rfl) (fun _ h => h) ?_
  · constructor <;> grind [hf.terminalized, hf.exited, hf.stopped]
  · grind
  · grind
  · intro hclosed
    have := hr.closed hclosed
    grind [Settled]
  · exact ⟨h.leases.1, by simp⟩
  · exact fun hidle => absurd (.inl hunstarted) hidle

/-- The log grows by an event that is not about the authority, nor the end of a call. -/
theorem recorded_plain {h : Handle} {log : List (Event A)} {e : Event A}
    (hr : Recorded initial h log) (he : Ledger.Plain e) (hallowed : Allowed initial log e) :
    Recorded initial h (log ++ [e]) := by
  have hmem : ∀ ev, ¬ Ledger.Plain ev → ev ∈ log ++ [e] → ev ∈ log := by
    intro ev hev hin
    obtain hin | hin := List.mem_append.mp hin
    · exact hin
    · rw [List.mem_singleton.mp hin] at hev
      exact absurd he hev
  have hrenewal : renewal? e = none := by
    cases e <;> first | rfl | exact he.elim
  have hcloses : closes e = false := by
    cases e <;> first | rfl | exact he.elim
  refine ⟨?_, ?_, ?_, ?_, ?_, ?_, hr.lawful.append hallowed⟩
  · rw [lastLease_append, hrenewal]
    exact hr.lease
  · intro e' he'
    obtain ⟨ev, hev, hloss⟩ := hr.loss e' he'
    exact ⟨ev, List.mem_append_left _ hev, hloss⟩
  · exact fun l e' a hev => hr.renewals l e' a (hmem _ id hev)
  · refine hr.answered.imp_left ?_
    exact fun h i l p r a a' hev => h i l p r a a' (hmem _ id hev)
  · intro hreturned
    obtain ⟨turn, p, t, a, hev⟩ := hreturned
    exact hr.returned ⟨turn, p, t, a, hmem _ id hev⟩
  · intro hclosed
    obtain ⟨ev, hev, hcl⟩ := hclosed
    obtain hev | hev := List.mem_append.mp hev
    · exact hr.closed ⟨ev, hev, hcl⟩
    · rw [List.mem_singleton.mp hev, hcloses] at hcl
      cases hcl

theorem enter (h : Sound S initial setting s) :
    Kept S initial setting .main s (({ s with handle.entered := true }).note .entered) := by
  have hf := h.flags
  have hr := h.recorded
  refine main ⟨?_, recorded_plain ?_ trivial trivial, h.leases, h.ledger.plain trivial⟩
    (fun _ => rfl) (fun _ h => List.mem_append_left _ h) (fun _ => ⟨rfl, rfl, rfl⟩)
  · exact ⟨hf.lost, hf.committed, hf.terminalized, hf.stopped, hf.exited, fun h => by cases h⟩
  · exact ⟨hr.lease, hr.loss, hr.renewals, hr.answered, hr.returned, hr.closed, hr.lawful⟩

theorem exit (h : Sound S initial setting s) :
    Kept S initial setting .main s (({ s with handle := { s.handle with
      exited := true, stop := true } }).note .exiting) := by
  have hf := h.flags
  have hr := h.recorded
  refine main ⟨?_, recorded_plain ?_ trivial trivial, h.leases, h.ledger.plain trivial⟩
    (fun _ => rfl) (fun _ h => List.mem_append_left _ h) (fun _ => ⟨rfl, rfl, rfl⟩)
  · exact ⟨hf.lost, hf.committed, hf.terminalized, fun _ => .inr (.inl rfl), fun _ => rfl,
      hf.unentered⟩
  · refine ⟨hr.lease, hr.loss, hr.renewals, hr.answered, hr.returned, ?_, hr.lawful⟩
    intro hclosed
    have := hr.closed hclosed
    grind [Settled, World.note]

theorem callPublish {l : Lease} {p : Publication} (h : Sound S initial setting s)
    (hp : Permitted initial setting s .main (.callPublish l p)) :
    Kept S initial setting .main s (s.note (.publishing l p)) := by
  obtain ⟨_, hended, rfl⟩ := hp
  have hlease := h.recorded.lease
  rw [hended] at hlease
  exact main ⟨h.flags, recorded_plain h.recorded trivial hlease.symm, h.leases,
    h.ledger.plain trivial⟩ (fun _ => rfl) (fun _ h => List.mem_append_left _ h)
    (fun _ => ⟨rfl, rfl, rfl⟩)

theorem publish {l : Lease} {p : Publication} {r : Except Raised Terminal} {a : A}
    (h : Sound S initial setting s) (hp : Permitted initial setting s .main (.publish l p))
    (hpublish : S.publish s.authority l p r a) :
    Kept S initial setting .main s (({ s with authority := a }).note
      (.published s.turn l p r s.authority a)) := by
  obtain ⟨_, hended, rfl, hloss, hstarted, hterminalizing, hcall, htransient, hfirst⟩ := hp
  have hr := h.recorded
  have hrenewed : ∀ l e b, .renewed l (.error e) b ∉ s.log := by
    intro l e b hev
    have := hr.renewals l e b hev
    simp [hloss, hended] at this
  refine main ⟨h.flags, ⟨?_, ?_, ?_, .inr (.inr (.inl hterminalizing)), ?_, ?_,
      hr.lawful.append trivial⟩, h.leases,
    h.ledger.append_published hpublish h.leases.1 hcall hfirst htransient hrenewed⟩
    (fun _ => rfl) (fun _ h => List.mem_append_left _ h) (fun _ => ⟨rfl, rfl, rfl⟩)
  · show lastLease initial (s.log ++ [_]) = _
    rw [lastLease_append]
    exact hr.lease
  · intro e he
    obtain ⟨ev, hev, hloss⟩ := hr.loss e he
    exact ⟨ev, List.mem_append_left _ hev, hloss⟩
  · intro l e b hev
    exact absurd (by simpa [World.note] using hev) (hrenewed l e b)
  · intro hreturned
    obtain ⟨turn, p, t, b, hev⟩ := hreturned
    exact hr.returned ⟨turn, p, t, b, by simpa [World.note] using hev⟩
  · intro hclosed
    obtain ⟨ev, hev, hcloses⟩ := hclosed
    obtain hev | hev := List.mem_append.mp hev
    · exact hr.closed ⟨ev, hev, hcloses⟩
    · cases List.mem_singleton.mp hev
      cases hcloses

theorem ended {call : Call} {out : Except Raised (Option Terminal)}
    (h : Sound S initial setting s) (hp : Permitted initial setting s .main (.ended call out)) :
    Kept S initial setting .main s (({ s with turn := s.turn + 1 }).note
      (.ended s.turn call out s.authority)) := by
  obtain ⟨_, hcall, hcloses, hallowed, houtcome⟩ := hp
  have hr := h.recorded
  refine main ⟨h.flags, ⟨?_, ?_, ?_, ?_, ?_, ?_, hr.lawful.append hallowed⟩, h.leases,
    h.ledger.append_ended hcall fun p hp => (houtcome p hp).1⟩
    (fun _ => rfl) (fun _ h => List.mem_append_left _ h) (fun _ => ⟨rfl, rfl, rfl⟩)
  · show lastLease initial (s.log ++ [_]) = _
    rw [lastLease_append]
    exact hr.lease
  · intro e he
    obtain ⟨ev, hev, hloss⟩ := hr.loss e he
    exact ⟨ev, List.mem_append_left _ hev, hloss⟩
  · exact fun l e b hev => hr.renewals l e b (by simpa [World.note] using hev)
  · refine hr.answered.imp_left ?_
    exact fun h i l p r a a' hev => h i l p r a a' (by simpa [World.note] using hev)
  · intro hreturned
    obtain ⟨turn, p, t, b, hev⟩ := hreturned
    obtain hev | hev := List.mem_append.mp hev
    · exact hr.returned ⟨turn, p, t, b, hev⟩
    · cases List.mem_singleton.mp hev
      exact (houtcome p rfl).2 t rfl
  · intro hclosed
    obtain ⟨ev, hev, hcl⟩ := hclosed
    obtain hev | hev := List.mem_append.mp hev
    · exact hr.closed ⟨ev, hev, hcl⟩
    · rw [List.mem_singleton.mp hev] at hcl
      exact hcloses hcl

/-- A step of the running renewer. -/
theorem renewer {s' : World A} (h : Sound S initial setting s')
    (hidle : ¬ Idle s.handle)
    (hown : s'.turn = s.turn ∧ s'.handle.entered = s.handle.entered ∧
      s'.handle.exited = s.handle.exited ∧ s'.handle.terminalizing = s.handle.terminalizing ∧
      s'.handle.terminalizationStarted = s.handle.terminalizationStarted ∧
      s'.handle.terminalized = s.handle.terminalized)
    (hthread : s'.handle.thread ≠ .unstarted) (hsettled : Settled s.handle → Settled s'.handle)
    (hloss : s.handle.loss ≠ none → s'.handle.loss = s.handle.loss)
    (hlog : s'.log = s.log ∨ ∃ ev, ofRenewer ev ∧ s'.log = s.log ++ [ev]) :
    Kept S initial setting (.renewer s.handle.renewerGeneration) s s' := by
  refine ⟨h, ?_, ?_, ?_, ?_, hloss, ?_, ?_, ?_⟩
  · exact fun _ => hown
  · exact fun _ h => absurd h hidle
  · exact fun _ _ => hthread
  · exact fun _ => hsettled
  · intro ev hev
    obtain hlog | ⟨e, _, hlog⟩ := hlog
    · rwa [hlog]
    · rw [hlog]
      exact List.mem_append_left _ hev
  · intro _ ev hev
    obtain hlog | ⟨e, he, hlog⟩ := hlog
    · rw [hlog] at hev
      exact .inl hev
    · rw [hlog] at hev
      obtain hev | hev := List.mem_append.mp hev
      · exact .inl hev
      · rw [List.mem_singleton.mp hev]
        exact .inr he
  · intro n hn hsame
    exact absurd (congrArg Party.renewer hsame) hn

theorem wait (h : Sound S initial setting s) (hthread : s.handle.thread = .waiting) :
    Kept S initial setting (.renewer s.handle.renewerGeneration) s
      { s with handle.thread := if s.handle.stop then .leaving else .awake } := by
  have hf := h.flags
  have hr := h.recorded
  have hlost := hf.lost
  have hcommitted := hf.committed
  have hrenewals := hr.renewals
  have hlease := hr.lease
  have hcauses := hr.loss
  simp only [hthread] at hrenewals hlease hcauses
  have hsettled : Settled s.handle → Settled
      { s.handle with thread := if s.handle.stop then .leaving else .awake } := by
    grind [Settled]
  refine renewer ⟨?_, ⟨?_, ?_, ?_, hr.answered, hr.returned, ?_, hr.lawful⟩, ?_, h.ledger⟩
    (by simp [Idle, hthread]) ⟨rfl, rfl, rfl, rfl, rfl, rfl⟩ ?_ hsettled (fun _ => rfl) (.inl rfl)
  · constructor <;> grind [hf.terminalized, hf.stopped, hf.exited, hf.unentered]
  · grind
  · grind
  · grind
  · exact fun hclosed => hsettled (hr.closed hclosed)
  · exact ⟨h.leases.1, by grind⟩
  · grind

theorem callRenew {l : Lease} (h : Sound S initial setting s)
    (hthread : s.handle.thread = .awake) :
    Kept S initial setting (.renewer s.handle.renewerGeneration) s
      (({ s with handle.thread := .renewing }).note (.renewing l)) := by
  have hf := h.flags
  have hr := h.recorded
  have hlost := hf.lost
  have hcommitted := hf.committed
  have hrenewals := hr.renewals
  have hlease := hr.lease
  have hcauses := hr.loss
  simp only [hthread] at hrenewals hlease hcauses
  have hopen : ¬ Settled s.handle := by grind [Settled]
  have hallowed : Allowed initial s.log (.renewing l) := by
    intro e he
    by_contra hcloses
    exact hopen (hr.closed ⟨e, he, by simpa using hcloses⟩)
  refine renewer ⟨?_, recorded_plain ?_ trivial hallowed, ?_, h.ledger.plain trivial⟩
    (by simp [Idle, hthread]) ⟨rfl, rfl, rfl, rfl, rfl, rfl⟩ (by simp [World.note])
    (fun h => absurd h hopen) (fun _ => rfl) (.inr ⟨.renewing l, trivial, rfl⟩)
  · constructor <;> grind [hf.terminalized, hf.stopped, hf.exited, hf.unentered, World.note]
  · refine ⟨hlease, ?_, ?_, hr.answered, hr.returned,
      fun hclosed => absurd (hr.closed hclosed) hopen, hr.lawful⟩
    · grind [World.note]
    · grind [World.note]
  · exact ⟨h.leases.1, by simp [World.note]⟩

theorem renew {l : Lease} {r : Except Raised Lease} {a : A} (h : Sound S initial setting s)
    (hthread : s.handle.thread = .renewing) (hl : l = s.handle.lease)
    (hrenew : S.renew s.authority l r a) :
    Kept S initial setting (.renewer s.handle.renewerGeneration) s
      (({ s with authority := a, handle.thread := .answered r }).note
        (.renewed l r s.authority)) := by
  have hf := h.flags
  have hr := h.recorded
  have hlost := hf.lost
  have hcommitted := hf.committed
  have hrenewals := hr.renewals
  have hlease := hr.lease
  have hcauses := hr.loss
  simp only [hthread] at hrenewals hlease hcauses
  have hloss : s.handle.loss = none := by grind
  have hopen : ¬ Settled s.handle := by grind [Settled]
  subst hl
  refine renewer ⟨?_, ⟨?_, ?_, ?_, ?_, ?_, ?_, hr.lawful.append trivial⟩, ?_,
    h.ledger.append_renewed hrenew h.leases.1⟩ (by simp [Idle, hthread])
    ⟨rfl, rfl, rfl, rfl, rfl, rfl⟩ ?_ (fun h => absurd h hopen) (fun _ => rfl)
    (.inr ⟨.renewed s.handle.lease r s.authority, trivial, rfl⟩)
  · have hunentered := hf.unentered
    constructor <;> grind [hf.terminalized, hf.stopped, hf.exited, World.note]
  · show lastLease initial (s.log ++ [_]) = _
    rw [lastLease_append]
    cases r with
    | ok renewed => rfl
    | error e => exact hlease
  · intro e he
    cases r with
    | ok renewed => simp [World.note, hloss, Renewer.answered] at he
    | error e' =>
      have he : e' = e := by simpa [World.note, hloss, Renewer.answered] using he
      exact ⟨_, List.mem_append_right _ (List.mem_singleton.mpr rfl), congrArg some he⟩
  · intro l e b hev
    obtain hev | hev := List.mem_append.mp hev
    · have := hrenewals l e b hev
      simp [hloss] at this
    · cases List.mem_singleton.mp hev
      exact .inr ⟨e, rfl⟩
  · refine hr.answered.imp_left ?_
    exact fun h i l p r a a' hev => h i l p r a a' (by simpa [World.note] using hev)
  · intro hreturned
    obtain ⟨turn, p, t, b, hev⟩ := hreturned
    exact hr.returned ⟨turn, p, t, b, by simpa [World.note] using hev⟩
  · intro hclosed
    obtain ⟨ev, hev, hcl⟩ := hclosed
    obtain hev | hev := List.mem_append.mp hev
    · exact absurd (hr.closed ⟨ev, hev, hcl⟩) hopen
    · rw [List.mem_singleton.mp hev] at hcl
      cases hcl
  · refine ⟨h.leases.1, ?_⟩
    intro renewed hstoring
    cases r with
    | ok renewed' =>
      cases hstoring
      exact h.leases.1.tail ⟨_, _, hrenew⟩
    | error e => cases hstoring
  · cases r <;> simp [World.note, Renewer.answered]

theorem recordLoss {error : Raised} (h : Sound S initial setting s)
    (hthread : s.handle.thread = .losing error) :
    Kept S initial setting (.renewer s.handle.renewerGeneration) s
      { s with handle := { s.handle with loss := some error, thread := .leaving } } := by
  have hf := h.flags
  have hr := h.recorded
  have hlost := hf.lost
  have hcommitted := hf.committed
  have hlease := hr.lease
  have hcauses := hr.loss
  simp only [hthread] at hlease hcauses
  have hopen : ¬ Settled s.handle := by grind [Settled]
  refine renewer ⟨?_, ⟨hlease, ?_, ?_, ?_, hr.returned, ?_, hr.lawful⟩, ?_, h.ledger⟩
    (by simp [Idle, hthread]) ⟨rfl, rfl, rfl, rfl, rfl, rfl⟩ (by simp)
    (fun h => absurd h hopen) ?_ (.inl rfl)
  · have hunentered := hf.unentered
    constructor <;> grind [hf.terminalized, hf.stopped, hf.exited]
  · grind
  · exact fun _ _ _ _ => .inl (Option.some_ne_none _)
  · exact .inr (.inl (Option.some_ne_none _))
  · exact fun hclosed => absurd (hr.closed hclosed) hopen
  · exact ⟨h.leases.1, by simp⟩
  · grind

theorem stopRenewer (h : Sound S initial setting s) (hthread : s.handle.thread = .leaving)
    (hloss : s.handle.loss ≠ none) :
    Kept S initial setting (.renewer s.handle.renewerGeneration) s
      { s with handle.stop := true } := by
  have hf := h.flags
  have hr := h.recorded
  have hsettled : Settled s.handle → Settled { s.handle with stop := true } := by
    grind [Settled]
  refine renewer ⟨?_, ⟨hr.lease, hr.loss, hr.renewals, hr.answered, hr.returned, ?_, hr.lawful⟩,
    h.leases, h.ledger⟩ (by simp [Idle, hthread]) ⟨rfl, rfl, rfl, rfl, rfl, rfl⟩ ?_ hsettled
    (fun _ => rfl) (.inl rfl)
  · exact ⟨hf.lost, hf.committed, hf.terminalized, fun _ => .inl hloss, fun _ => rfl, hf.unentered⟩
  · exact fun hclosed => hsettled (hr.closed hclosed)
  · simp [hthread]

theorem storeLease {renewed : Lease} (h : Sound S initial setting s)
    (hthread : s.handle.thread = .storing renewed) :
    Kept S initial setting (.renewer s.handle.renewerGeneration) s
      { s with handle := { s.handle with lease := renewed, thread := .waiting } } := by
  have hf := h.flags
  have hr := h.recorded
  have hlost := hf.lost
  have hcommitted := hf.committed
  have hlease := hr.lease
  have hrenewals := hr.renewals
  have hcauses := hr.loss
  simp only [hthread] at hlease hrenewals hcauses
  have hopen : ¬ Settled s.handle := by grind [Settled]
  refine renewer ⟨?_, ⟨hlease, ?_, ?_, hr.answered, hr.returned, ?_, hr.lawful⟩, ?_, h.ledger⟩
    (by simp [Idle, hthread]) ⟨rfl, rfl, rfl, rfl, rfl, rfl⟩ (by simp)
    (fun h => absurd h hopen) (fun _ => rfl) (.inl rfl)
  · have hunentered := hf.unentered
    constructor <;> grind [hf.terminalized, hf.stopped, hf.exited]
  · grind
  · grind
  · exact fun hclosed => absurd (hr.closed hclosed) hopen
  · exact ⟨h.leases.2 renewed hthread, by simp⟩

theorem finish (h : Sound S initial setting s) (hthread : s.handle.thread = .leaving) :
    Kept S initial setting (.renewer s.handle.renewerGeneration) s
      { s with handle.thread := .ended } := by
  have hf := h.flags
  have hr := h.recorded
  have hcommitted := hf.committed
  have hlease := hr.lease
  have hrenewals := hr.renewals
  have hcauses := hr.loss
  simp only [hthread] at hlease hrenewals hcauses
  have hsettled : Settled s.handle → Settled { s.handle with thread := .ended } := by
    grind [Settled]
  refine renewer ⟨?_, ⟨hlease, ?_, ?_, hr.answered, hr.returned, ?_, hr.lawful⟩, ?_, h.ledger⟩
    (by simp [Idle, hthread]) ⟨rfl, rfl, rfl, rfl, rfl, rfl⟩ (by simp) hsettled (fun _ => rfl)
    (.inl rfl)
  · have hunentered := hf.unentered
    constructor <;> grind [hf.terminalized, hf.stopped, hf.exited]
  · grind
  · grind
  · exact fun hclosed => hsettled (hr.closed hclosed)
  · exact ⟨h.leases.1, by simp⟩

theorem elsewhere {a : A} (h : Sound S initial setting s) (hmove : S.elsewhere s.authority a) :
    Kept S initial setting .other s { s with authority := a } :=
  ⟨⟨h.flags, h.recorded, h.leases, h.ledger.moved (.inl hmove)⟩,
    fun _ => ⟨rfl, rfl, rfl, rfl, rfl, rfl⟩, fun _ _ => ⟨rfl, rfl⟩, fun _ h => h, fun _ h => h,
    fun _ => rfl, fun _ h => h, fun _ _ h => .inl h, fun _ _ h _ => ⟨h, rfl, rfl⟩⟩

end Kept

/-- Every permitted step keeps the invariant and the guarantee. -/
theorem effect_kept {s s' : World A} {t : Party} {op : Op} {r : Reply op}
    (h : Sound S initial setting s) (hp : Permitted initial setting s t op)
    (heffect : Effect S s t op r s') : Kept S initial setting t s s' := by
  cases op with
  | enter =>
    obtain rfl : t = .main := hp
    simp only [Effect] at heffect
    split at heffect
    · obtain ⟨_, rfl⟩ := heffect
      exact .refl h
    · obtain ⟨_, rfl⟩ := heffect
      exact .enter h
  | startThread =>
    obtain rfl : t = .main := hp.1
    obtain rfl : s' = _ := heffect
    exact .startThread h hp
  | prepare =>
    obtain rfl : t = .main := hp
    obtain ⟨_, rfl⟩ := heffect
    exact .prepare h
  | join | readLoss | readLease | readTerminalized =>
    obtain ⟨_, rfl⟩ := heffect
    exact .refl h
  | callPublish l p =>
    obtain rfl : t = .main := hp.1
    obtain rfl : s' = _ := heffect
    exact .callPublish h hp
  | publish l p =>
    obtain rfl : t = .main := hp.1
    obtain ⟨a, hpublish, rfl⟩ := heffect
    exact .publish h hp hpublish
  | abort error =>
    obtain rfl : t = .main := hp.1
    obtain ⟨_, rfl⟩ := heffect
    exact .abort h hp
  | newThread =>
    obtain rfl : t = .main := hp.1
    obtain rfl : s' = _ := heffect
    exact .newThread h hp
  | commit =>
    obtain rfl : t = .main := hp.1
    obtain rfl : s' = _ := heffect
    exact .commit h hp
  | exit =>
    obtain rfl : t = .main := hp
    obtain rfl : s' = _ := heffect
    exact .exit h
  | ended call out =>
    obtain rfl : t = .main := hp.1
    obtain rfl : s' = _ := heffect
    exact .ended h hp
  | begin =>
    obtain ⟨_, _, rfl⟩ := heffect
    exact .refl h
  | wait =>
    obtain ⟨rfl, hthread⟩ := hp
    obtain ⟨_, rfl⟩ := heffect
    exact .wait h hthread
  | callRenew l =>
    obtain ⟨rfl, hthread⟩ := hp
    obtain rfl : s' = _ := heffect
    exact .callRenew h hthread
  | renew l =>
    obtain ⟨rfl, hthread, hl⟩ := hp
    obtain ⟨a, hrenew, rfl⟩ := heffect
    exact .renew h hthread hl hrenew
  | recordLoss error =>
    obtain ⟨rfl, hthread⟩ := hp
    obtain rfl : s' = _ := heffect
    exact .recordLoss h hthread
  | stopRenewer =>
    obtain ⟨rfl, hthread, hloss⟩ := hp
    obtain rfl : s' = _ := heffect
    exact .stopRenewer h hthread hloss
  | storeLease renewed =>
    obtain ⟨rfl, hthread⟩ := hp
    obtain rfl : s' = _ := heffect
    exact .storeLease h hthread
  | finish =>
    obtain ⟨rfl, hthread⟩ := hp
    obtain rfl : s' = _ := heffect
    exact .finish h hthread
  | sleep => exact heffect.elim
  | elsewhere =>
    obtain rfl : t = .other := hp
    obtain ⟨a, hmove, rfl⟩ := heffect
    exact .elsewhere h hmove

end DrStore.Leases.Renewal
