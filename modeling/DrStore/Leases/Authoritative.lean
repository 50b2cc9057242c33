import DrStore.Leases.Refinement

/-! # Which terminals are taken for the authoritative one

A call that supplies a terminal to a row that carries one compares the two with `==`, which equates
numbers of one value whatever their type. So the call takes another terminal for the authoritative
one exactly when the two differ in nothing else. -/
namespace DrStore.Leases.Authoritative
open DrStore.Base.Calendar DrStore.Base.Fallible DrStore.Base.PyJson DrStore.Base.Runs
open DrStore.Store.ContentAddressing DrStore.Leases.Models DrStore.Leases.Authority
open DrStore.Leases.RowEncoding DrStore.Leases.SqlStores DrStore.Leases.Refinement
open DrStore.Leases.History

variable {host : Host} {codec : Codec} {stored supplied : Terminal}

/-! ## Texts and `==` -/

/-- Equal texts are of equal terminals. -/
theorem terminalText_inj (hc : codec.Faithful)
    (h : terminalText codec (some supplied) = terminalText codec (some stored)) :
    supplied = stored := by
  have hdumps := SqlValue.text.inj h
  have hsupplied := hc.reads supplied
  rw [hdumps, hc.reads stored] at hsupplied
  have hparsed := modelValidate_modelDump hc supplied
  rw [← Except.ok.inj hsupplied, modelValidate_modelDump hc stored] at hparsed
  exact (Except.ok.inj hparsed).symm

/-- The terminals agree in all but the representation of some number in the failure details. -/
structure Mistakable (stored supplied : Terminal) : Prop where
  request : stored.request = supplied.request
  outcome : stored.outcome = supplied.outcome
  ownerId : stored.ownerId = supplied.ownerId
  attemptId : stored.attemptId = supplied.attemptId
  fence : stored.fence = supplied.fence
  resultRef : stored.resultRef = supplied.resultRef
  failure : ∃ f g, stored.failure = some f ∧ supplied.failure = some g ∧ f.code = g.code ∧
    f.message = g.message ∧ Confused (.obj f.details.fields) (.obj g.details.fields)

theorem mistakable_iff : Mistakable stored supplied ↔ stored.pyEq supplied = true ∧
    stored ≠ supplied := by
  refine ⟨?_, ?_⟩
  · intro h
    obtain ⟨hrequest, houtcome, howner, hattempt, hfence, href, f, g, hf, hg, hcode, hmessage, hd⟩ := h
    obtain ⟨heq, hne⟩ := confused_iff.mp hd
    refine ⟨?_, ?_⟩
    · simp [Terminal.pyEq, TerminalFailure.pyEq, hrequest, houtcome, howner, hattempt, hfence, href,
        hf, hg, hcode, hmessage, heq]
    · intro hsame
      rw [hsame, hg] at hf
      cases hf
      exact hne rfl
  · intro h
    obtain ⟨heq, hne⟩ := h
    obtain ⟨request, outcome, ownerId, attemptId, fence, resultRef, failure, _, _, _, _⟩ := stored
    obtain ⟨request', outcome', ownerId', attemptId', fence', resultRef', failure', _, _, _, _⟩ :=
      supplied
    simp only [Terminal.pyEq, Bool.and_eq_true, beq_iff_eq] at heq
    obtain ⟨⟨⟨⟨⟨⟨rfl, rfl⟩, rfl⟩, rfl⟩, rfl⟩, rfl⟩, hfailure⟩ := heq
    refine ⟨rfl, rfl, rfl, rfl, rfl, rfl, ?_⟩
    cases failure with
    | none =>
      cases failure' with
      | none => exact absurd rfl hne
      | some g => cases hfailure
    | some f =>
      cases failure' with
      | none => cases hfailure
      | some g =>
        obtain ⟨code, message, details, _, _⟩ := f
        obtain ⟨code', message', details', _, _⟩ := g
        simp only [TerminalFailure.pyEq, Bool.and_eq_true, beq_iff_eq] at hfailure
        obtain ⟨⟨rfl, rfl⟩, hdetails⟩ := hfailure
        refine ⟨_, _, rfl, rfl, rfl, rfl, confused_iff.mpr ⟨hdetails, ?_⟩⟩
        intro hfields
        obtain ⟨fields, _⟩ := details
        obtain ⟨fields', _⟩ := details'
        cases Json.obj.inj hfields
        exact hne rfl

/-! ## Calls on a row with a terminal -/

/-- The terminal that a call supplies; a verified one survives its JSON round trip. -/
inductive Supplies (host : Host) : Call → Terminal → Prop
  | succeed {lease : Lease} {resultRef : ObjectReference} {terminal : Terminal} :
      Terminal.make lease.request .succeeded lease.ownerId lease.attemptId lease.fence
        (some resultRef) none = .ok terminal → Supplies host (.succeed lease resultRef) terminal
  | fail {lease : Lease} {resultRef : ObjectReference} {failure : TerminalFailure}
      {terminal : Terminal} :
      Terminal.make lease.request .failed lease.ownerId lease.attemptId lease.fence
        (some resultRef) (some failure) = .ok terminal →
      Supplies host (.fail lease resultRef failure) terminal
  | verify {terminal : Terminal} : host.validateTerminal terminal = .ok terminal →
      Supplies host (.verifyTerminal terminal) terminal

/-- The errors of a terminal that is not the authoritative one. -/
def Refused (out : Except LeaseError Reply) : Prop :=
  ∃ message, out = .error (.terminalConflict message) ∨ out = .error (.stale message)

theorem make_request {request : LeaseRequest} {outcome : TerminalOutcome}
    {ownerId attemptId : String} {fence : Int} {resultRef : Option ObjectReference}
    {failure : Option TerminalFailure} {terminal : Terminal}
    (h : Terminal.make request outcome ownerId attemptId fence resultRef failure = .ok terminal) :
    terminal.request = request := by
  unfold Terminal.make at h
  split at h
  · split at h
    · split at h
      · split at h
        · cases h
          rfl
        · cases h
      · cases h
    · cases h
  · cases h

theorem terminalize_terminalized {lease : Lease} (hrequest : supplied.request = lease.request)
    (now : Datetime) :
    (stored.pyEq supplied = true ∧ terminalizeTransition lease supplied
      (some (.terminalized stored)) now = .ok (some (.terminalized stored), stored)) ∨
    (stored.pyEq supplied = false ∧ ∃ message, terminalizeTransition lease supplied
      (some (.terminalized stored)) now = .error (.stale message) ∨
      terminalizeTransition lease supplied (some (.terminalized stored)) now =
        .error (.terminalConflict message)) := by
  unfold terminalizeTransition
  by_cases hforeign : stored.request ≠ lease.request
  · have hne : stored.pyEq supplied = false := by
      simp [Terminal.pyEq, hrequest, hforeign]
    exact .inr ⟨hne, foreignRowMessage, .inl (if_pos hforeign)⟩
  · have hsame : ¬ (LeaseRow.terminalized stored).request ≠ lease.request := hforeign
    simp only [if_neg hsame]
    cases heq : stored.pyEq supplied with
    | true => exact .inl ⟨rfl, if_pos heq⟩
    | false => exact .inr ⟨rfl, _, .inr (if_neg (by rw [heq]; decide))⟩

theorem verify_terminalized (now : Datetime) :
    verifyTransition supplied (some (.terminalized stored)) now =
      if stored.pyEq supplied then .ok (some (.terminalized stored), stored)
      else .error (.terminalConflict "the supplied effect terminal is not authoritative") := rfl

/-- **What such a call comes to**: the stored terminal, or an error, and the rows as they were. -/
theorem supplied_step {rows : Rows} {c : TimedCall} (hsupplies : Supplies host c.call supplied)
    (hrow : rows supplied.request.semanticKey = some (.terminalized stored)) :
    ((memoryAuthority host).step rows c).1 = rows ∧
    ((stored.pyEq supplied = true ∧
        ((memoryAuthority host).step rows c).2 = .ok (.terminal stored)) ∨
      (stored.pyEq supplied = false ∧ Refused ((memoryAuthority host).step rows c).2)) := by
  have hset : rows.set supplied.request.semanticKey (some (.terminalized stored)) = rows := by
    funext key
    unfold Rows.set
    split
    · rename_i heq
      rw [heq, hrow]
    · rfl
  have hstep : ∀ (tr : Transition Terminal),
      c.call.prepare host .memory = .ok (supplied.request.semanticKey, tr.map .terminal) →
      ((stored.pyEq supplied = true ∧
          tr (some (.terminalized stored)) c.now = .ok (some (.terminalized stored), stored)) ∨
        (stored.pyEq supplied = false ∧ ∃ message,
          tr (some (.terminalized stored)) c.now = .error (.stale message) ∨
          tr (some (.terminalized stored)) c.now = .error (.terminalConflict message))) →
      ((memoryAuthority host).step rows c).1 = rows ∧
      ((stored.pyEq supplied = true ∧
          ((memoryAuthority host).step rows c).2 = .ok (.terminal stored)) ∨
        (stored.pyEq supplied = false ∧ Refused ((memoryAuthority host).step rows c).2)) := by
    intro tr hprepare hcases
    simp only [memoryAuthority, authority, TimedCall.event, hprepare, MemoryStore.transaction,
      requireUtc_utc, hrow, Transition.map]
    rcases hcases with ⟨heq, hok⟩ | ⟨hne, message, hstale | hconflict⟩
    · rw [hok]
      exact ⟨hset, .inl ⟨heq, rfl⟩⟩
    · rw [hstale]
      exact ⟨rfl, .inr ⟨hne, message, .inr rfl⟩⟩
    · rw [hconflict]
      exact ⟨rfl, .inr ⟨hne, message, .inl rfl⟩⟩
  obtain ⟨call, now⟩ := c
  simp only at hsupplies
  cases hsupplies with
  | succeed hmake =>
    have hrequest := make_request hmake
    refine hstep _ ?_ (terminalize_terminalized hrequest now)
    simp only [Call.prepare, hmake, ok_bind, hrequest]
    rfl
  | fail hmake =>
    have hrequest := make_request hmake
    refine hstep _ ?_ (terminalize_terminalized hrequest now)
    simp only [Call.prepare, hmake, ok_bind, hrequest]
    rfl
  | verify hvalid =>
    refine hstep (verifyTransition supplied) ?_ ?_
    · simp only [Call.prepare, hvalid, ok_bind]
      rfl
    · rw [verify_terminalized]
      cases heq : stored.pyEq supplied with
      | true => exact .inl ⟨rfl, rfl⟩
      | false => exact .inr ⟨rfl, _, .inr rfl⟩

/-! ## The property -/

/-- The call returns only for the same text; for another it raises and leaves the row unchanged. -/
structure OnlyIdentical (codec : Codec) (stored supplied : Terminal)
    (out : Except LeaseError Reply) (unchanged : Prop) : Prop where
  returns : ∀ reply, out = .ok reply →
    terminalText codec (some supplied) = terminalText codec (some stored)
  raises : terminalText codec (some supplied) ≠ terminalText codec (some stored) →
    Refused out ∧ unchanged

theorem onlyIdentical_iff (hc : codec.Faithful) {out : Except LeaseError Reply} {unchanged : Prop}
    (hunchanged : unchanged) (hout : (stored.pyEq supplied = true ∧ out = .ok (.terminal stored)) ∨
      (stored.pyEq supplied = false ∧ Refused out)) :
    OnlyIdentical codec stored supplied out unchanged ↔ ¬ Mistakable stored supplied := by
  rw [mistakable_iff]
  rcases hout with ⟨heq, rfl⟩ | ⟨hne, hrefused⟩
  · refine ⟨?_, ?_⟩
    · intro h hmistakable
      exact hmistakable.2 (terminalText_inj hc (h.returns _ rfl)).symm
    · intro h
      obtain rfl : stored = supplied := by
        by_contra hother
        exact h ⟨heq, hother⟩
      exact ⟨fun _ _ => rfl, fun hother => absurd rfl hother⟩
  · refine iff_of_true ⟨?_, fun _ => ⟨hrefused, hunchanged⟩⟩ ?_
    · intro reply hok
      obtain ⟨message, hconflict | hstale⟩ := hrefused
      · rw [hconflict] at hok
        cases hok
      · rw [hstale] at hok
        cases hok
    · intro hmistakable
      rw [hne] at hmistakable
      cases hmistakable.1

theorem supplies_milliseconds {call : Call} (h : Supplies host call supplied) :
    AtLeastMillisecond call := by
  cases h <;> trivial

/-- **A row's terminal is mistaken for another one exactly when they are mistakable**, in each of the
three stores and by each of the three calls. -/
theorem only_identical_terminal_iff (host : Host) (codec : Codec) (hc : codec.Faithful)
    (rows : Rows) (table : Table) (hrows : Encodes codec rows table) (stored supplied : Terminal)
    (c : TimedCall) (hsupplies : Supplies host c.call supplied)
    (hrow : rows supplied.request.semanticKey = some (.terminalized stored)) :
    (OnlyIdentical codec stored supplied ((memoryAuthority host).step rows c).2
        (((memoryAuthority host).step rows c).1 = rows) ↔ ¬ Mistakable stored supplied) ∧
    (OnlyIdentical codec stored supplied ((sqliteAuthority host codec).step table c).2
        (((sqliteAuthority host codec).step table c).1 supplied.request.semanticKey =
          table supplied.request.semanticKey) ↔ ¬ Mistakable stored supplied) ∧
    (OnlyIdentical codec stored supplied ((postgresqlAuthority host codec).step table c).2
        (((postgresqlAuthority host codec).step table c).1 supplied.request.semanticKey =
          table supplied.request.semanticKey) ↔ ¬ Mistakable stored supplied) := by
  obtain ⟨hkept, hout⟩ := supplied_step hsupplies hrow
  have hsql : ∀ {kind transaction}, RunsTransition codec transaction →
      (OnlyIdentical codec stored supplied ((sqlAuthority host kind transaction).step table c).2
        (((sqlAuthority host kind transaction).step table c).1 supplied.request.semanticKey =
          table supplied.request.semanticKey) ↔ ¬ Mistakable stored supplied) := by
    intro kind transaction hrun
    obtain ⟨hencodes, hreply, _⟩ := @sqlAuthority_step codec host kind transaction hc hrun rows table
      hrows c (supplies_milliseconds hsupplies)
    refine onlyIdentical_iff hc ?_ (hreply ▸ hout)
    rw [hencodes.columns, hkept, hrows.columns]
  exact ⟨onlyIdentical_iff hc hkept hout, hsql fun _ _ _ _ _ => sqlite_transaction_run,
    hsql fun _ _ _ _ _ => postgresql_transaction_run⟩

/-! ## A flag and a count -/

/-- A failure with one detail. -/
def sampleFailure (detail : Json) (h : detail.canonical = true) : TerminalFailure where
  code := "demo.failure"
  message := "failed"
  details := ⟨[("retries", detail)], by simp [Json.canonical, canonicalFields, sortedKeys, h]⟩
  code_valid := by decide
  message_valid := by decide

/-- The sample lease, failed with it. -/
def sampleFailed (detail : Json) (h : detail.canonical = true) : Terminal where
  request := sampleLease.request
  outcome := .failed
  ownerId := sampleLease.ownerId
  attemptId := sampleLease.attemptId
  fence := sampleLease.fence
  resultRef := some sampleReference
  failure := some (sampleFailure detail h)
  owner_valid := sampleLease.owner_valid
  attempt_valid := sampleLease.attempt_valid
  fence_valid := sampleLease.fence_valid
  shape_valid := rfl

def sampleFail (detail : Json) (h : detail.canonical = true) : TimedCall :=
  ⟨.fail sampleLease sampleReference (sampleFailure detail h), ⟨5000, by decide⟩⟩

/-- The rows once the sample lease has failed with `true`. -/
def sampleRows : Rows :=
  (authority sampleHost .memory).after noRows
    [sampleAcquire "a" 0, (sampleFail (.bool true) rfl).event]

theorem sampleRows_row : sampleRows "job" = some (.terminalized (sampleFailed (.bool true) rfl)) := rfl

theorem sample_mistakable :
    Mistakable (sampleFailed (.bool true) rfl) (sampleFailed (.int 1) rfl) := by
  refine ⟨rfl, rfl, rfl, rfl, rfl, rfl, _, _, rfl, rfl, rfl, rfl, .obj (.here ?_ rfl)⟩
  refine .number (n := 2 ^ 1074) rfl ?_ (by intro h; cases h)
  rw [Json.numeric?, Int.one_mul]

/-- Failing again with the number 1 returns the stored `true`. -/
theorem only_identical_terminal_fails :
    ¬ OnlyIdentical parserCodec (sampleFailed (.bool true) rfl) (sampleFailed (.int 1) rfl)
      ((memoryAuthority sampleHost).step sampleRows (sampleFail (.int 1) rfl)).2
      (((memoryAuthority sampleHost).step sampleRows (sampleFail (.int 1) rfl)).1 = sampleRows) := by
  intro h
  have hsupplies : Supplies sampleHost (sampleFail (.int 1) rfl).call (sampleFailed (.int 1) rfl) :=
    .fail rfl
  obtain ⟨hkept, hout⟩ := supplied_step hsupplies sampleRows_row
  exact (onlyIdentical_iff parserCodec_faithful hkept hout).mp h sample_mistakable

theorem only_identical_terminal_iff_text :
    OnlyIdentical parserCodec (sampleFailed (.bool true) rfl) (sampleFailed (.str "1") rfl)
      ((memoryAuthority sampleHost).step sampleRows (sampleFail (.str "1") rfl)).2
      (((memoryAuthority sampleHost).step sampleRows (sampleFail (.str "1") rfl)).1 =
        sampleRows) := by
  have hencodes : Encodes parserCodec sampleRows fun key =>
      (sampleRows key).map (rowUpdateValues parserCodec) :=
    ⟨after_rowsOk _, fun _ => rfl⟩
  refine (only_identical_terminal_iff sampleHost parserCodec parserCodec_faithful sampleRows _ hencodes
    (sampleFailed (.bool true) rfl) (sampleFailed (.str "1") rfl) (sampleFail (.str "1") rfl)
    (.fail rfl) sampleRows_row).1.mpr ?_
  intro hmistakable
  cases (mistakable_iff.mp hmistakable).1

end DrStore.Leases.Authoritative
