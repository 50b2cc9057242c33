import DrStore.Bundles.Budget

/-! # Verified consumption (artifact_bundle/reading.py, `VerifyingArtifactReader`)

A consumer is any finite sequence of reads, each chosen by what the reads before it returned. What
every read returns is a function of the content and of how much was handed over, and the facade has
seen the end exactly when one of the reads has shown it. -/
namespace DrStore.Bundles.Consumption
open DrStore.Base.Programs DrStore.Documents.FileSystem DrStore.Documents.CanonicalJson
open DrStore.Documents.RoundTrip DrStore.Documents.VerifiedRead
open DrStore.Bundles.Models DrStore.Bundles.OneShot DrStore.Bundles.Reading DrStore.Bundles.Audit
open DrStore.Bundles.Budget
open DrStore.Bundles.Reading.VerifyingArtifactReader (ReadRefusal)

variable {T P : Type}

/-! ## The facade -/

/-- `_invalidate`. -/
def invalidate (r : VerifyingArtifactReader) : VerifyingArtifactReader := { r with active := false }

/-- `_deliver_artifact` with the facade that it leaves behind. -/
def deliverFacade (L : Codec P) (descriptor : ArtifactDescriptor) (content : Bytes)
    (consumer : Consumer) : Except BundleReadError Unit × VerifyingArtifactReader :=
  match consumer.run answerRead (.create content, []) with
  | (.error _, r, _) =>
    (.error (.read ("artifact " ++ descriptor.name.text ++ " consumer failed")), invalidate r)
  | (.ok _, r, _) => (requireVerified L descriptor (invalidate r), invalidate r)

theorem deliverArtifact_facade (L : Codec P) (descriptor : ArtifactDescriptor) (content : Bytes)
    (consumer : Consumer) : (deliverArtifact L descriptor content consumer).map (fun _ => ()) =
      (deliverFacade L descriptor content consumer).1 := by
  unfold deliverArtifact deliverFacade
  generalize consumer.run answerRead (.create content, []) = ended
  obtain ⟨out, r, delivered⟩ := ended
  cases out with
  | error e => rfl
  | ok _ =>
    have hsame : requireVerified L descriptor (invalidate r) = requireVerified L descriptor r := rfl
    simp only [hsame]
    cases requireVerified L descriptor r <;> rfl

/-! ## What one read returns -/

/-- With this much of the content handed over. -/
def answerOf (content : Bytes) (handed : Nat) (size : Int) : Except ReadRefusal Bytes :=
  if size < -1 then .error .size
  else if size = -1 then .ok (content.drop handed)
  else .ok ((content.drop handed).take size.toNat)

/-- A read that shows the end: all the rest was asked for, or nothing was left. -/
def ShowsEnd (size : Int) (answer : Except ReadRefusal Bytes) : Prop :=
  ∃ chunk, answer = .ok chunk ∧ (size = -1 ∨ 0 < size ∧ chunk = [])

def chunkOf : Except ReadRefusal Bytes → Bytes
  | .ok chunk => chunk
  | .error _ => []

theorem readOnce_eof {r : VerifyingArtifactReader} (heof : r.eof = false) (requested : Nat) :
    (r.readOnce requested).2.eof = true ↔ (r.readOnce requested).1 = [] := by
  unfold VerifyingArtifactReader.readOnce
  simp only
  split
  · exact ⟨fun _ => rfl, fun _ => rfl⟩
  · rename_i hchunk
    refine ⟨fun h => ?_, fun h => absurd h hchunk⟩
    rw [show r.eof = true from h] at heof
    cases heof

theorem readOnce_chunk (r : VerifyingArtifactReader) (requested : Nat) :
    (r.readOnce requested).1 = (r.content.drop r.position).take requested ∧
      (r.readOnce requested).2.active = r.active := by
  unfold VerifyingArtifactReader.readOnce
  simp only
  split
  · rename_i hnil
    exact ⟨hnil.symm, rfl⟩
  · exact ⟨rfl, rfl⟩

theorem readToEnd_active (r : VerifyingArtifactReader) : r.readToEnd.2.active = r.active := by
  induction r using VerifyingArtifactReader.readToEnd.induct with
  | case1 r hmore ih =>
    rw [VerifyingArtifactReader.readToEnd, dif_pos hmore]
    exact ih.trans (readOnce_chunk r readChunkBytes).2
  | case2 r hmore heof => rw [VerifyingArtifactReader.readToEnd, dif_neg hmore, if_pos heof]
  | case3 r hmore heof =>
    rw [VerifyingArtifactReader.readToEnd, dif_neg hmore, if_neg heof]
    exact (readOnce_chunk r readChunkBytes).2

/-- The rest of the content, in a facade that has not seen its end. -/
theorem drop_delivered {content delivered : Bytes} {r : VerifyingArtifactReader}
    (h : Following content r delivered) :
    content.drop delivered.length = r.content.drop r.position := by
  rw [h.source, h.taken, List.length_take]
  rcases Nat.le_total r.position content.length with hle | hle
  · rw [Nat.min_eq_left hle]
  · rw [Nat.min_eq_right hle, List.drop_eq_nil_of_le hle, List.drop_length]

theorem drop_delivered_eof {content delivered : Bytes} {r : VerifyingArtifactReader}
    (h : Following content r delivered) (heof : r.eof = true) : content.drop delivered.length = [] := by
  rw [drop_delivered h, h.source]
  exact List.drop_eq_nil_of_le (h.eof heof)

/-- **One read**: its answer depends on the content and on what was handed over alone. -/
theorem read_spec {content delivered : Bytes} {r : VerifyingArtifactReader}
    (h : Following content r delivered) (hactive : r.active = true) (size : Int) :
    (r.read size).1 = answerOf content delivered.length size ∧ (r.read size).2.active = true ∧
      ((r.read size).2.eof = true ↔ r.eof = true ∨ ShowsEnd size (r.read size).1) := by
  unfold VerifyingArtifactReader.read answerOf
  rw [if_neg (by simp [hactive])]
  by_cases hsize : size < -1
  · rw [if_pos hsize, if_pos hsize]
    refine ⟨rfl, hactive, .inl, fun hor => hor.resolve_right ?_⟩
    intro hshows
    obtain ⟨_, heq, _⟩ := hshows
    cases heq
  rw [if_neg hsize, if_neg hsize]
  by_cases hzero : size = 0
  · subst hzero
    refine ⟨rfl, hactive, .inl, fun hor => hor.resolve_right ?_⟩
    intro hshows
    obtain ⟨_, _, hall | hpos⟩ := hshows
    · cases hall
    · omega
  rw [if_neg hzero]
  by_cases heof : r.eof = true
  · rw [if_pos heof, drop_delivered_eof h heof, List.take_nil, ite_self]
    exact ⟨rfl, hactive, .inl, fun _ => heof⟩
  rw [if_neg heof]
  have heof : r.eof = false := by simpa using heof
  by_cases hall : size = -1
  · rw [if_pos hall, if_pos hall]
    have hend := readToEnd_eof r
    have hfollowing := Following.readToEnd r h
    have hwhole : delivered ++ r.readToEnd.1 = content := by
      rw [hfollowing.taken]
      exact List.take_of_length_le (hfollowing.eof hend)
    refine ⟨?_, (readToEnd_active r).trans hactive, fun _ => .inr ⟨_, rfl, .inl hall⟩, fun _ => hend⟩
    rw [← hwhole, List.drop_left]
  · rw [if_neg hall, if_neg hall]
    obtain ⟨hchunk, hstays⟩ := readOnce_chunk r size.toNat
    refine ⟨?_, hstays.trans hactive, ?_, ?_⟩
    · rw [hchunk, drop_delivered h]
    · intro hend
      exact .inr ⟨_, rfl, .inr ⟨by omega, (readOnce_eof heof _).mp hend⟩⟩
    · intro hor
      obtain hold | ⟨chunk, heq, hminus | ⟨_, hnil⟩⟩ := hor
      · rw [heof] at hold
        cases hold
      · exact absurd hminus hall
      · cases heq
        exact (readOnce_eof heof _).mpr hnil

/-! ## All reads of a consumer -/

/-- Each read with its answer. -/
def readLog : Consumer → VerifyingArtifactReader → List (Int × Except ReadRefusal Bytes)
  | .pure _, _ => []
  | .fail _, _ => []
  | .exec size k, r => (size, (r.read size).1) :: readLog (k (r.read size).1) (r.read size).2

/-- What the reads handed over. -/
def handed (log : List (Int × Except ReadRefusal Bytes)) : Bytes :=
  log.flatMap fun entry => chunkOf entry.2

def Observed (log : List (Int × Except ReadRefusal Bytes)) : Prop :=
  ∃ entry ∈ log, ShowsEnd entry.1 entry.2

theorem answerRead_chunk (s : VerifyingArtifactReader × Bytes) (size : Int) :
    answerRead s size =
      ((s.1.read size).1, (s.1.read size).2, s.2 ++ chunkOf (s.1.read size).1) := by
  unfold answerRead
  cases s.1.read size with
  | mk out r => cases out <;> simp [chunkOf]

/-- Every answer in the log is the one that the content determines. -/
theorem readLog_answers {content : Bytes} (consumer : Consumer) {r : VerifyingArtifactReader}
    {delivered : Bytes} (h : Following content r delivered) (hactive : r.active = true) :
    ∀ before size answer after, readLog consumer r = before ++ (size, answer) :: after →
      answer = answerOf content (delivered ++ handed before).length size := by
  induction consumer generalizing r delivered with
  | pure a =>
    intro before size answer after heq
    exact absurd heq (by simp [readLog])
  | fail e =>
    intro before size answer after heq
    exact absurd heq (by simp [readLog])
  | exec size₀ k ih =>
    intro before size answer after heq
    obtain ⟨hanswer, hstays, _⟩ := read_spec h hactive size₀
    have hnext := h.answerRead (s := (r, delivered)) size₀
    rw [answerRead_chunk] at hnext
    cases before with
    | nil =>
      cases heq
      simpa [handed] using hanswer
    | cons entry before =>
      obtain ⟨hentry, hrest⟩ := List.cons.inj heq
      have := ih _ hnext hstays before size answer after hrest
      rw [← hentry]
      simpa [handed, List.append_assoc] using this

/-- The whole run: what was handed over, whether the end was seen, and that the facade stays open. -/
theorem run_readLog {content : Bytes} (consumer : Consumer) {r : VerifyingArtifactReader}
    {delivered : Bytes} (h : Following content r delivered) (hactive : r.active = true) :
    (consumer.run answerRead (r, delivered)).2.2 = delivered ++ handed (readLog consumer r) ∧
      ((consumer.run answerRead (r, delivered)).2.1.eof = true ↔
        r.eof = true ∨ Observed (readLog consumer r)) := by
  induction consumer generalizing r delivered with
  | pure a => simp [readLog, handed, Observed]
  | fail e => simp [readLog, handed, Observed]
  | exec size k ih =>
    obtain ⟨_, hstays, heof⟩ := read_spec h hactive size
    have hnext := h.answerRead (s := (r, delivered)) size
    rw [answerRead_chunk] at hnext
    obtain ⟨hhanded, hends⟩ := ih (r.read size).1 hnext hstays
    have hrun : (Prog.exec size k : Consumer).run answerRead (r, delivered) =
        (k (r.read size).1).run answerRead
          ((r.read size).2, delivered ++ chunkOf (r.read size).1) := by
      rw [Prog.run_exec, answerRead_chunk]
    rw [hrun]
    refine ⟨?_, ?_⟩
    · rw [hhanded, readLog, handed, handed, List.flatMap_cons, List.append_assoc]
    · rw [hends, heof, readLog]
      unfold Observed
      rw [List.exists_mem_cons_iff, or_assoc]

/-- What was handed over by any read is a part of the content from its start. -/
theorem handed_prefix {content : Bytes} (consumer : Consumer) {r : VerifyingArtifactReader}
    {delivered : Bytes} (h : Following content r delivered) (hactive : r.active = true) :
    ∀ before after, readLog consumer r = before ++ after → delivered ++ handed before <+: content := by
  induction consumer generalizing r delivered with
  | pure a =>
    intro before after heq
    obtain ⟨rfl, _⟩ := List.append_eq_nil_iff.mp heq.symm
    simpa [handed, h.taken] using List.take_prefix _ _
  | fail e =>
    intro before after heq
    obtain ⟨rfl, _⟩ := List.append_eq_nil_iff.mp heq.symm
    simpa [handed, h.taken] using List.take_prefix _ _
  | exec size k ih =>
    intro before after heq
    obtain ⟨_, hstays, _⟩ := read_spec h hactive size
    have hnext := h.answerRead (s := (r, delivered)) size
    rw [answerRead_chunk] at hnext
    cases before with
    | nil => simpa [handed, h.taken] using List.take_prefix _ _
    | cons entry before =>
      obtain ⟨hentry, hrest⟩ := List.cons.inj heq
      have := ih _ hnext hstays before after hrest
      rw [← hentry]
      simpa [handed, List.append_assoc] using this

/-! ## Recovering the content -/

/-- `consume_and_verify_artifact` up to the delivery. -/
def recoverArtifact (L : Codec P) (limits : BundleReadLimits) (supported : Bool) (name : String) :
    ReadScript T BundleReadError (ArtifactDescriptor × Bytes) := do
  let manifest ← loadManifest L limits supported
  Prog.ofExcept (validateManifestLimits manifest limits)
  match manifest.artifacts.find? fun candidate => candidate.name.text = name with
  | none => .fail (.verification name .missing "the manifest declares no artifact with this name")
  | some descriptor =>
    let content ← readVerifiedArtifact L supported descriptor
      (min limits.maxBytesPerArtifact limits.maxTotalArtifactBytes)
    return (descriptor, content)

theorem consumeAndVerifyArtifact_recovers (L : Codec P) (limits : BundleReadLimits)
    (supported : Bool) (name : String) (consumer : Consumer) :
    (consumeAndVerifyArtifact L limits supported name consumer :
      ReadScript T BundleReadError (ArtifactDescriptor × Bytes)) =
      recoverArtifact L limits supported name >>= fun found =>
        Prog.ofExcept (deliverArtifact L found.1 found.2 consumer) >>= fun delivered =>
          pure (found.1, delivered) := by
  unfold consumeAndVerifyArtifact recoverArtifact
  rw [Prog.bind_assoc]
  refine congrArg (_ >>= ·) (funext fun manifest => ?_)
  rw [Prog.bind_assoc]
  refine congrArg (_ >>= ·) (funext fun _ => ?_)
  cases manifest.artifacts.find? fun candidate => candidate.name.text = name with
  | none => rfl
  | some descriptor =>
    dsimp only
    rw [Prog.bind_assoc]
    rfl

/-- What is delivered was verified. -/
theorem recoverArtifact_verified [DecidableEq T] {L : Codec P} {limits : BundleReadLimits}
    {supported : Bool} {name : String} {t : T} {s : Fs T} :
    (recoverArtifact L limits supported name).ensures (lawful t) (fun out _ =>
      ∀ descriptor content, out = .ok (descriptor, content) → descriptor.name.text = name ∧
        content.length = descriptor.byteLength ∧ L.sha256 content = descriptor.sha256) s := by
  refine Prog.ensures_bind (fun _ _ => True) (Prog.ensures_true _ s) ?_ ?_
  · intro manifest s₁ _
    refine Prog.ensures_bind (fun _ _ => True) (Prog.ensures_true _ s₁) ?_ ?_
    · intro _ s₂ _
      cases hfind : manifest.artifacts.find? fun candidate => candidate.name.text = name with
      | none => exact fun _ _ h => by cases h
      | some descriptor =>
        have hname : descriptor.name.text = name := by simpa using List.find?_some hfind
        by_cases hbound : descriptor.byteLength ≤
            min limits.maxBytesPerArtifact limits.maxTotalArtifactBytes
        · have hread : (readVerifiedArtifact L supported descriptor
              (min limits.maxBytesPerArtifact limits.maxTotalArtifactBytes)).ensures (metered t) _
              (s₂, .zero) := readVerifiedArtifact_metered hbound
          refine Prog.ensures_bind _ (ensures_of_metered hread) ?_ ?_
          · intro content s₃ h
            obtain ⟨_, ⟨_, n, _, _, hraw⟩, _⟩ := h
            intro descriptor' content' heq
            cases heq
            obtain ⟨_, _, hlength, hhash⟩ := hraw content rfl
            exact ⟨hname, hlength, DrStore.Store.ContentAddressing.Digest.text_inj hhash⟩
          · intro e s₃ _ _ _ h
            cases h
        · show (readVerifiedArtifact L supported descriptor _ >>= _).ensures _ _ _
          rw [readVerifiedArtifact, if_pos (Nat.lt_of_not_le hbound)]
          exact fun _ _ h => by cases h
    · intro e s₂ _ _ _ h
      cases h
  · intro e s₁ _ _ _ h
    cases h

/-! ## The delivery -/

/-- The consumer returns. -/
def Returns (consumer : Consumer) (content : Bytes) : Prop :=
  (consumer.run answerRead (.create content, [])).1 = .ok ()

/-- A facade whose callback has ended refuses every read, whoever makes it. -/
theorem readLog_invalidate (later : Consumer) (r : VerifyingArtifactReader) :
    ∀ entry ∈ readLog later (invalidate r), entry.2 = .error .inactive := by
  induction later with
  | pure a => exact fun _ h => by cases h
  | fail e => exact fun _ h => by cases h
  | exec size k ih =>
    intro entry hentry
    obtain rfl | hentry := List.mem_cons.mp hentry
    · rfl
    · exact ih _ entry hentry

/-- Verified content: what the facade has at the end decides, and only the end can be missing. -/
theorem requireVerified_run {L : Codec P} {descriptor : ArtifactDescriptor} {content : Bytes}
    {r : VerifyingArtifactReader} {delivered : Bytes} (h : Following content r delivered)
    (hlength : content.length = descriptor.byteLength)
    (hsha256 : L.sha256 content = descriptor.sha256) :
    requireVerified L descriptor (invalidate r) = if r.eof = true then .ok () else
      .error (.verification descriptor.name.text .incompleteConsumption
        "the consumer returned before observing EOF") := by
  have heofs : (invalidate r).eof = r.eof := rfl
  unfold requireVerified
  by_cases heof : r.eof = true
  · have hall : delivered = content := by
      rw [h.taken]
      exact List.take_of_length_le (h.eof heof)
    have hcount : (invalidate r).byteLength = content.length := h.byteLength.trans (by rw [hall])
    have hhashed : (invalidate r).hashed = content := h.hashed.trans hall
    rw [heofs, if_neg (by simp [heof]), if_pos heof, hcount, hhashed]
    exact if_neg (by simp [hlength, hsha256])
  · rw [heofs, if_pos (by simpa using heof), if_neg heof]

/-- **Verified consumption succeeds exactly on full delivery.** Every read returns what the content
and the bytes handed over before it determine: `read(-1)` all the rest, and nothing for another size
than 0 only at the end. A delivery of verified content is accepted if and only if the consumer
returned and one of its reads has shown the end; it never ends in a mismatch, and afterwards the
facade refuses every read. What is delivered is the verified content of the named artifact. -/
theorem consumption_exact [DecidableEq T] (L : Codec P) :
    (∀ content consumer before after, readLog consumer (.create content) = before ++ after →
      handed before <+: content) ∧
    (∀ content consumer before size answer after,
      readLog consumer (.create content) = before ++ (size, answer) :: after →
        answer = answerOf content (handed before).length size ∧
        (size = -1 → answer = .ok (content.drop (handed before).length) ∧
          handed (before ++ [(size, answer)]) = content) ∧
        (size ≠ 0 → answer = .ok [] → handed before = content)) ∧
    (∀ descriptor content, content.length = descriptor.byteLength →
      L.sha256 content = descriptor.sha256 → ∀ consumer,
        ((deliverFacade L descriptor content consumer).1 = .ok () ↔
          Returns consumer content ∧ Observed (readLog consumer (.create content))) ∧
        (Returns consumer content → ¬ Observed (readLog consumer (.create content)) →
          (deliverFacade L descriptor content consumer).1 = .error (.verification
            descriptor.name.text .incompleteConsumption
            "the consumer returned before observing EOF")) ∧
        (¬ Returns consumer content → (deliverFacade L descriptor content consumer).1 =
          .error (.read ("artifact " ++ descriptor.name.text ++ " consumer failed"))) ∧
        (∀ name detail, (deliverFacade L descriptor content consumer).1 ≠
          .error (.verification name .mismatch detail)) ∧
        ∀ later, ∀ entry ∈ readLog later (deliverFacade L descriptor content consumer).2,
          entry.2 = .error .inactive) ∧
    ∀ limits supported name consumer,
      (consumeAndVerifyArtifact L limits supported name consumer :
        ReadScript T BundleReadError (ArtifactDescriptor × Bytes)) =
        (recoverArtifact L limits supported name >>= fun found =>
          Prog.ofExcept (deliverArtifact L found.1 found.2 consumer) >>= fun delivered =>
            pure (found.1, delivered)) ∧
      (∀ descriptor content, (deliverArtifact L descriptor content consumer).map (fun _ => ()) =
        (deliverFacade L descriptor content consumer).1) ∧
      ∀ (t : T) (s : Fs T), (recoverArtifact L limits supported name).ensures (lawful t)
        (fun out _ => ∀ descriptor content, out = .ok (descriptor, content) →
          descriptor.name.text = name ∧ content.length = descriptor.byteLength ∧
            L.sha256 content = descriptor.sha256) s := by
  have hcreate : ∀ content, Following content (.create content) [] := Following.create
  have hhanded : ∀ content consumer before after,
      readLog consumer (.create content) = before ++ after → handed before <+: content := by
    intro content consumer before after heq
    simpa using handed_prefix consumer (hcreate content) rfl before after heq
  refine ⟨hhanded, ?_, ?_, ?_⟩
  · intro content consumer before size answer after heq
    have hanswer : answer = answerOf content (handed before).length size := by
      simpa using readLog_answers consumer (hcreate content) rfl before size answer after heq
    obtain ⟨rest, hrest⟩ := hhanded content consumer before _ heq
    have hdrop : content.drop (handed before).length = rest := by rw [← hrest, List.drop_left]
    refine ⟨hanswer, ?_, ?_⟩
    · intro hall
      have hread : answer = .ok (content.drop (handed before).length) := by
        rw [hanswer, hall]
        rfl
      refine ⟨hread, ?_⟩
      rw [hread, hdrop]
      simpa [handed, chunkOf] using hrest
    · intro hsize hempty
      suffices hnil : rest = [] by rw [← hrest, hnil, List.append_nil]
      rw [hempty, answerOf, hdrop] at hanswer
      split at hanswer
      · cases hanswer
      split at hanswer
      · exact (Except.ok.inj hanswer).symm
      · rcases List.take_eq_nil_iff.mp (Except.ok.inj hanswer).symm with hzero | hnil
        · omega
        · exact hnil
  · intro descriptor content hlength hsha256 consumer
    obtain ⟨_, hends⟩ := run_readLog consumer (hcreate content) rfl
    have hfollowing := @Following.run content consumer (.create content, []) (hcreate content)
    have hfresh : (VerifyingArtifactReader.create content).eof = false := rfl
    rw [hfresh] at hends
    unfold deliverFacade Returns
    generalize consumer.run answerRead (.create content, []) = ended at hends hfollowing ⊢
    obtain ⟨out, r, delivered⟩ := ended
    have hobserved : r.eof = true ↔ Observed (readLog consumer (.create content)) := by
      rw [hends]
      exact ⟨fun h => h.resolve_left (by simp), .inr⟩
    cases out with
    | error e =>
      refine ⟨⟨(fun h => by cases h), fun h => by cases h.1⟩, (fun h => by cases h), fun _ => rfl,
        (fun _ _ h => by cases h), fun later => readLog_invalidate later r⟩
    | ok _ =>
      have hrequired := requireVerified_run hfollowing hlength hsha256
      simp only [hrequired, ← hobserved]
      by_cases heof : r.eof = true
      · simp only [if_pos heof]
        refine ⟨⟨fun _ => ⟨trivial, heof⟩, fun _ => trivial⟩, fun _ h => absurd heof h,
          fun h => absurd trivial h, (fun _ _ h => by cases h), fun later => readLog_invalidate later r⟩
      · simp only [if_neg heof]
        refine ⟨⟨(fun h => by cases h), fun h => absurd h.2 heof⟩, fun _ _ => trivial,
          fun h => absurd trivial h, (fun _ _ h => by cases h), fun later => readLog_invalidate later r⟩
  · intro limits supported name consumer
    exact ⟨consumeAndVerifyArtifact_recovers L limits supported name consumer,
      fun descriptor content => deliverArtifact_facade L descriptor content consumer,
      fun t s => recoverArtifact_verified⟩

/-- All of two bytes, then one more. -/
def exactThenEmpty : Consumer := .exec 2 fun _ => .exec 1 fun _ => .pure ()

theorem readLog_exactThenEmpty : readLog exactThenEmpty (.create [49, 48]) =
    [(2, .ok [49, 48]), (1, .ok [])] := rfl

/-- The read after the last byte shows the end; the facade is of no use afterwards. -/
theorem consumption_exact_report :
    (deliverFacade sampleCodec ⟨sampleName, sampleDigest, 2⟩ [49, 48] exactThenEmpty).1 = .ok () ∧
    (∀ entry ∈ readLog exactThenEmpty
      (deliverFacade sampleCodec ⟨sampleName, sampleDigest, 2⟩ [49, 48] exactThenEmpty).2,
      entry.2 = .error .inactive) ∧ handed [(2, .ok [49, 48])] = [49, 48] := by
  have hsha256 : sampleCodec.sha256 [49, 48] = sampleDigest := rfl
  obtain ⟨_, hreads, hdelivery, _⟩ := @consumption_exact Unit Unit _ sampleCodec
  obtain ⟨hiff, _, _, _, hafter⟩ := hdelivery ⟨sampleName, sampleDigest, 2⟩ [49, 48] rfl
    hsha256 exactThenEmpty
  have hlast := hreads [49, 48] exactThenEmpty [(2, .ok [49, 48])] 1 (.ok []) []
    readLog_exactThenEmpty
  refine ⟨hiff.mpr ⟨rfl, ?_⟩, hafter exactThenEmpty, hlast.2.2 (by decide) rfl⟩
  rw [readLog_exactThenEmpty]
  exact ⟨(1, .ok []), by simp, [], rfl, .inr ⟨by decide, rfl⟩⟩

end DrStore.Bundles.Consumption
