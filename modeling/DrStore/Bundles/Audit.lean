import DrStore.Bundles.Contents
import DrStore.Bundles.Reading
import Mathlib.Algebra.Order.BigOperators.Group.List

/-! # Published bundles audit

What `publish` has left behind is what the reader asks for: the manifest is decoded and validated
back, every declared child holds the bytes of its descriptor, and a consumer that sees the end of
them was handed exactly what was written. -/
namespace DrStore.Bundles.Audit
open DrStore.Base.PyJson DrStore.Base.JsonText DrStore.Base.Collections DrStore.Base.Programs
open DrStore.Base.Pool DrStore.Documents.FileSystem
open DrStore.Documents.CanonicalJson DrStore.Documents.Decoding DrStore.Documents.RoundTrip
open DrStore.Documents.VerifiedRead
open DrStore.Bundles.Models DrStore.Bundles.Publication DrStore.Bundles.OneShot
open DrStore.Bundles.Contents DrStore.Bundles.Reading
open DrStore.Store.ContentAddressing (Digest)

variable {T U P : Type}

/-! ## Consumption -/

/-- The facade stands where the handed bytes end, and has seen the end of all if it says so. -/
structure Following (content : Bytes) (r : VerifyingArtifactReader) (delivered : Bytes) : Prop where
  source : r.content = content
  taken : delivered = content.take r.position
  hashed : r.hashed = delivered
  byteLength : r.byteLength = delivered.length
  eof : r.eof = true → content.length ≤ r.position

theorem Following.create (content : Bytes) : Following content (.create content) [] :=
  ⟨rfl, rfl, rfl, rfl, fun h => by cases h⟩

theorem Following.readOnce {content delivered : Bytes} {r : VerifyingArtifactReader}
    (h : Following content r delivered) {requested : Nat} (hrequested : 0 < requested) :
    Following content (r.readOnce requested).2 (delivered ++ (r.readOnce requested).1) ∧
      ((r.readOnce requested).1 = [] → (r.readOnce requested).2.eof = true) := by
  unfold VerifyingArtifactReader.readOnce
  simp only [h.source]
  split
  · rename_i hnil
    refine ⟨⟨rfl, by simpa using h.taken, by simpa using h.hashed, by simpa using h.byteLength,
      ?_⟩, fun _ => rfl⟩
    intro _
    rcases List.take_eq_nil_iff.mp hnil with hzero | hdrop
    · omega
    · exact List.drop_eq_nil_iff.mp hdrop
  · rename_i hchunk
    refine ⟨⟨rfl, ?_, by rw [h.hashed], by rw [h.byteLength, List.length_append], ?_⟩,
      fun hnil => absurd hnil hchunk⟩
    · rw [h.taken, List.take_add, List.length_take]
      congr 1
      exact (List.take_eq_take_min ..).trans (by rw [List.length_drop, Nat.min_comm])
    · intro heof
      have hend := h.eof heof
      rw [List.drop_eq_nil_of_le hend, List.take_nil] at hchunk
      exact absurd rfl hchunk

theorem Following.readToEnd {content : Bytes} (r : VerifyingArtifactReader) {delivered : Bytes}
    (h : Following content r delivered) :
    Following content r.readToEnd.2 (delivered ++ r.readToEnd.1) := by
  induction r using VerifyingArtifactReader.readToEnd.induct generalizing delivered with
  | case1 r hmore ih =>
    rw [VerifyingArtifactReader.readToEnd, dif_pos hmore]
    have hnext := ih (h.readOnce (by decide : 0 < readChunkBytes)).1
    rwa [List.append_assoc] at hnext
  | case2 r hmore heof =>
    rw [VerifyingArtifactReader.readToEnd, dif_neg hmore, if_pos heof, List.append_nil]
    exact h
  | case3 r hmore heof =>
    rw [VerifyingArtifactReader.readToEnd, dif_neg hmore, if_neg heof]
    have hnil : (r.readOnce readChunkBytes).1 = [] := by
      by_contra hne
      exact hmore ⟨by simpa using heof, hne⟩
    have hnext := (h.readOnce (by decide : 0 < readChunkBytes)).1
    rwa [hnil] at hnext

theorem Following.answerRead {content : Bytes} {s : VerifyingArtifactReader × Bytes}
    (h : Following content s.1 s.2) (size : Int) :
    Following content (answerRead s size).2.1 (answerRead s size).2.2 := by
  unfold Reading.answerRead VerifyingArtifactReader.read
  by_cases hactive : s.1.active = false
  · simpa [hactive] using h
  by_cases hsize : size < -1
  · simpa [hactive, hsize] using h
  by_cases hzero : size = 0
  · simpa [hactive, hzero] using h
  by_cases heof : s.1.eof = true
  · simpa [hactive, hsize, hzero, heof] using h
  by_cases hall : size = -1
  · subst hall
    simpa [hactive, heof] using Following.readToEnd s.1 h
  · simp only [hactive, hsize, hzero, heof, hall, if_false]
    exact (h.readOnce (by omega)).1

theorem Following.run {content : Bytes} (consumer : Consumer) {s : VerifyingArtifactReader × Bytes}
    (h : Following content s.1 s.2) :
    Following content (consumer.run Reading.answerRead s).2.1
      (consumer.run Reading.answerRead s).2.2 := by
  induction consumer generalizing s with
  | pure a => exact h
  | fail e => exact h
  | exec size k ih => exact ih _ (h.answerRead size)

/-- The consumer returns, and has seen the end. -/
def SeesEnd (consumer : Consumer) (content : Bytes) : Prop :=
  (consumer.run answerRead (.create content, [])).1 = .ok () ∧
    (consumer.run answerRead (.create content, [])).2.1.eof = true

theorem readToEnd_eof (r : VerifyingArtifactReader) : r.readToEnd.2.eof = true := by
  induction r using VerifyingArtifactReader.readToEnd.induct with
  | case1 r hmore ih =>
    rw [VerifyingArtifactReader.readToEnd, dif_pos hmore]
    exact ih
  | case2 r hmore heof =>
    rw [VerifyingArtifactReader.readToEnd, dif_neg hmore, if_pos heof]
    exact heof
  | case3 r hmore heof =>
    rw [VerifyingArtifactReader.readToEnd, dif_neg hmore, if_neg heof]
    have hnil : (r.readOnce readChunkBytes).1 = [] := by
      by_contra hne
      exact hmore ⟨by simpa using heof, hne⟩
    unfold VerifyingArtifactReader.readOnce at hnil ⊢
    simp only at hnil ⊢
    split
    · rfl
    · rename_i hchunk
      rw [if_neg hchunk] at hnil
      exact absurd hnil hchunk

/-- One `read(-1)`. -/
def readAll : Consumer := .exec (-1) fun _ => .pure ()

theorem seesEnd_readAll (content : Bytes) : SeesEnd readAll content :=
  ⟨rfl, readToEnd_eof (.create content)⟩

/-- **A delivery that is accepted handed over all of the content, and one is accepted whenever the
consumer sees the end.** -/
theorem deliverArtifact_exact {L : Codec P} {descriptor : ArtifactDescriptor} {content : Bytes}
    (hlength : descriptor.byteLength = content.length)
    (hsha256 : descriptor.sha256 = L.sha256 content) (consumer : Consumer) :
    (∀ delivered, deliverArtifact L descriptor content consumer = .ok delivered →
      delivered = content) ∧
    (SeesEnd consumer content → deliverArtifact L descriptor content consumer = .ok content) := by
  have hfollowing := @Following.run content consumer (.create content, []) (.create content)
  unfold deliverArtifact SeesEnd
  generalize consumer.run answerRead (.create content, []) = ended at hfollowing ⊢
  obtain ⟨out, r, delivered⟩ := ended
  change Following content r delivered at hfollowing
  have hend : r.eof = true → delivered = content := by
    intro heof
    rw [hfollowing.taken]
    exact List.take_of_length_le (hfollowing.eof heof)
  cases out with
  | error e =>
    refine ⟨?_, ?_⟩
    · intro delivered h
      cases h
    · intro h
      cases h.1
  | ok _ =>
    by_cases heof : r.eof = true
    · obtain rfl := hend heof
      have hverified : requireVerified L descriptor r = .ok () := by
        have hhashed : r.hashed = delivered := hfollowing.hashed
        have hcount : r.byteLength = delivered.length := hfollowing.byteLength
        simp [requireVerified, heof, hhashed, hcount, hlength, hsha256]
      simp only [hverified]
      refine ⟨?_, fun _ => rfl⟩
      intro delivered' h
      cases h
      rfl
    · have hrefused : ∃ e, requireVerified L descriptor r = .error e :=
        ⟨_, if_pos (by simpa using heof)⟩
      obtain ⟨e, he⟩ := hrefused
      simp only [he]
      refine ⟨?_, ?_⟩
      · intro delivered' h
        cases h
      · intro h
        exact absurd h.2 heof

/-! ## Names -/

/-- What the recorded format accepts, the reads accept: their tables are the same. -/
theorem checkRegularChildName_of_valid {name : String} (h : validateArtifactName name = .ok ()) :
    checkRegularChildName name = .ok () := by
  unfold validateArtifactName validateSingleSegment at h
  split at h
  · cases h
  · rename_i hreserved
    split at h
    · cases h
    · rename_i hunsafe
      exact (if_neg hreserved).trans (if_neg hunsafe)

/-! ## Reading on a healthy disk -/

section Healthy

variable [DecidableEq U] {L : Codec P} {u : U} {s : Fs U}

/-- A script that returns this and leaves the files alone. -/
def Yields {ε α : Type} (u : U) (p : ReadScript U ε α) (a : α) (s : Fs U) : Prop :=
  p.ensures (healthy u) (fun out s' => out = .ok a ∧ Untouched s s') s

theorem Yields.bind {ε α β : Type} {p : ReadScript U ε α} {f : α → ReadScript U ε β} {a : α} {b : β}
    (h : Yields u p a s) (hf : ∀ s', Untouched s s' → Yields u (f a) b s') :
    Yields u (p >>= f) b s := by
  refine Prog.ensures_bind _ h ?_ ?_
  · intro a' s' h'
    obtain ⟨hok, hsame⟩ := h'
    cases hok
    refine Prog.ensures_mono (hf s' hsame) ?_
    intro out s'' h''
    exact ⟨h''.1, hsame.trans h''.2⟩
  · intro e s' h'
    cases h'.1

/-- A child that holds the bytes of its descriptor. -/
structure Stored (L : Codec P) (s : Fs U) (d : ArtifactDescriptor) (b : Bytes) : Prop where
  content : s.content d.name.text = some b
  byteLength : d.byteLength = b.length
  sha256 : d.sha256 = L.sha256 b

theorem readVerifiedArtifact_yields {d : ArtifactDescriptor} {b : Bytes} {maxBytes : Nat}
    (h : Stored L s d b) (hlength : d.byteLength ≤ maxBytes) :
    Yields u (readVerifiedArtifact L true d maxBytes) b s := by
  unfold readVerifiedArtifact
  rw [if_neg (Nat.not_lt.mpr hlength), h.byteLength, h.sha256]
  have hbound : b.length ≤ maxBytes := h.byteLength ▸ hlength
  refine (Prog.ensures_settle _ _ _ _).mpr (Prog.ensures_mono (readVerifiedRegularChild_healthy
    hbound (L.sha256 b).valid (checkRegularChildName_of_valid d.name.valid) h.content) ?_)
  intro out s' hout
  obtain ⟨rfl, hsame⟩ := hout
  have hverified : verifyRaw L.sha256 maxBytes b.length (L.sha256 b).text b = .ok b := by
    simp [verifyRaw, Nat.not_lt.mpr hbound]
  rw [hverified]
  exact ⟨rfl, hsame⟩

def totalBytes (ds : List ArtifactDescriptor) : Nat := (ds.map ArtifactDescriptor.byteLength).sum

theorem auditArtifacts_yields {limits : BundleReadLimits} (ds : List ArtifactDescriptor) {total : Nat}
    (hstored : ∀ d ∈ ds, ∃ b, Stored L s d b)
    (heach : ∀ d ∈ ds, d.byteLength ≤ limits.maxBytesPerArtifact)
    (htotal : total + totalBytes ds ≤ limits.maxTotalArtifactBytes) :
    Yields u (auditArtifacts L limits true total ds) () s := by
  induction ds generalizing total s with
  | nil => exact ⟨rfl, rfl, rfl⟩
  | cons d ds ih =>
    obtain ⟨b, hb⟩ := hstored d List.mem_cons_self
    have hd := heach d List.mem_cons_self
    have hsum : totalBytes (d :: ds) = d.byteLength + totalBytes ds := List.sum_cons
    refine (readVerifiedArtifact_yields hb (by omega)).bind ?_
    intro s' hsame
    refine ih ?_ (fun d' hd' => heach d' (List.mem_cons_of_mem d hd')) (by omega)
    intro d' hd'
    obtain ⟨b', hb'⟩ := hstored d' (List.mem_cons_of_mem d hd')
    exact ⟨b', (hsame.content _).trans hb'.content, hb'.byteLength, hb'.sha256⟩

/-! ## The manifest -/

/-- What is assumed: small letters and digits fold to themselves, validating a dumped model changes
nothing, canonical bytes are decoded back within the limits, and pydantic parses them as well. -/
structure Lawful (L : Codec P) : Prop where
  fold : ∀ c : Char, c.toNat < 128 → c.isUpper = false → L.fold c = [c]
  validated : ∀ v v', L.serialization.validateStrictJson v = some v' → v' = v
  decoded : ∀ v raw maxBytes maxDepth, L.serialization.canonicalJsonBytes v = some raw →
    raw.length ≤ maxBytes → L.depth v ≤ maxDepth →
    L.serialization.decodeStrictJsonBytes raw maxBytes maxDepth = .ok v
  parsed : ∀ v raw, L.serialization.canonicalJsonBytes v = some raw → L.parseJson raw = some v

/-- The limits allow for the manifest and what it declares. -/
structure Enough (L : Codec P) (limits : BundleReadLimits) (m : BundleManifest) (data : Bytes) :
    Prop where
  bytes : data.length ≤ limits.manifestMaxBytes
  depth : L.depth m.dump ≤ limits.manifestMaxDepth
  artifacts : m.artifacts.length ≤ limits.maxArtifacts
  each : ∀ d ∈ m.artifacts, d.byteLength ≤ limits.maxBytesPerArtifact
  total : totalBytes m.artifacts ≤ limits.maxTotalArtifactBytes

omit [DecidableEq U] in
theorem casefold_plain (hL : Lawful L) {name : String}
    (hplain : (name.toList.all fun c => decide (c.toNat < 128) && !c.isUpper) = true) :
    casefold L.fold name = name.toList := by
  have hname : ∀ c ∈ name.toList, c.toNat < 128 ∧ c.isUpper = false := by
    simpa using hplain
  unfold casefold
  generalize name.toList = cs at hname ⊢
  induction cs with
  | nil => rfl
  | cons c rest ih =>
    obtain ⟨hascii, hupper⟩ := hname c List.mem_cons_self
    rw [List.flatMap_cons, hL.fold c hascii hupper,
      ih fun c' hc' => hname c' (List.mem_cons_of_mem c hc')]
    rfl

omit [DecidableEq U] in
theorem manifestFile_some (hL : Lawful L) (maxBytes maxDepth : Nat) :
    ∃ file, manifestFile L maxBytes maxDepth = some file ∧ file.name = manifestName ∧
      file.maxBytes = maxBytes ∧ file.maxDepth = maxDepth := by
  have hunreserved : isReservedDocumentTempName L.fold manifestName = false := by
    rw [isReservedDocumentTempName, casefold_plain hL rfl, casefold_plain hL rfl]
    decide
  exact ⟨_, dif_pos hunreserved, rfl, rfl, rfl⟩

theorem loadManifest_yields (hL : Lawful L) {limits : BundleReadLimits} {m : BundleManifest}
    {data : Bytes} (hbytes : L.serialization.canonicalJsonBytes m.dump = some data)
    (hcontent : s.content manifestName = some data) (henough : Enough L limits m data) :
    Yields u (loadManifest L limits true) m s := by
  obtain ⟨file, hfile, hname, hmaxBytes, hmaxDepth⟩ :=
    manifestFile_some hL limits.manifestMaxBytes limits.manifestMaxDepth
  have hdecoded : decodeStored L.serialization file data = .ok m.dump := by
    unfold decodeStored
    rw [hmaxBytes, hmaxDepth, hL.decoded m.dump data _ _ hbytes henough.bytes henough.depth]
    exact if_pos hbytes
  unfold loadManifest
  simp only [hfile]
  refine (Prog.ensures_settle _ _ _ _).mpr (Prog.ensures_mono
    (readDocument_healthy (S := L.serialization) (by rw [hname]; exact hcontent)) ?_)
  intro out s' hout
  obtain ⟨rfl, hframe⟩ := hout
  rw [hmaxBytes, if_neg (Nat.not_lt.mpr henough.bytes), hdecoded]
  simp only [hbytes, Option.bind_some, hL.parsed m.dump data hbytes, BundleManifest.validate_dump]
  exact ⟨rfl, hframe.names, hframe.bytes⟩

theorem validateDeclared_ok {limits : BundleReadLimits} (ds : List ArtifactDescriptor) {total : Nat}
    (heach : ∀ d ∈ ds, d.byteLength ≤ limits.maxBytesPerArtifact)
    (htotal : total + totalBytes ds ≤ limits.maxTotalArtifactBytes) :
    validateDeclared limits total ds = .ok () := by
  induction ds generalizing total with
  | nil => rfl
  | cons d ds ih =>
    have hd := heach d List.mem_cons_self
    have hsum : totalBytes (d :: ds) = d.byteLength + totalBytes ds := List.sum_cons
    rw [validateDeclared, if_neg (by omega), if_neg (by omega)]
    exact ih (fun d' hd' => heach d' (List.mem_cons_of_mem d hd')) (by omega)

theorem validateManifestLimits_ok {limits : BundleReadLimits} {m : BundleManifest} {data : Bytes}
    (h : Enough L limits m data) : validateManifestLimits m limits = .ok () := by
  unfold validateManifestLimits
  rw [List.getElem?_eq_none h.artifacts]
  exact validateDeclared_ok m.artifacts h.each (by rw [Nat.zero_add]; exact h.total)

/-! ## Whole bundles -/

/-- A directory that holds what the manifest declares, within the limits. -/
structure Complete (L : Codec P) (limits : BundleReadLimits) (m : BundleManifest) (data : Bytes)
    (s : Fs U) : Prop where
  canonical : L.serialization.canonicalJsonBytes m.dump = some data
  manifest : s.content manifestName = some data
  stored : ∀ d ∈ m.artifacts, ∃ b, Stored L s d b
  enough : Enough L limits m data

variable {limits : BundleReadLimits} {m : BundleManifest} {data : Bytes}

theorem audit_yields (hL : Lawful L) (h : Complete L limits m data s) :
    Yields u (audit L limits true) m s := by
  refine (loadManifest_yields hL h.canonical h.manifest h.enough).bind ?_
  intro s' hsame
  rw [validateManifestLimits_ok h.enough]
  have hstored : ∀ d ∈ m.artifacts, ∃ b, Stored L s' d b := by
    intro d hd
    obtain ⟨b, hb⟩ := h.stored d hd
    exact ⟨b, (hsame.content _).trans hb.content, hb.byteLength, hb.sha256⟩
  have haudited : Yields u (auditArtifacts L limits true 0 m.artifacts) () s' :=
    auditArtifacts_yields m.artifacts hstored h.enough.each
      (by rw [Nat.zero_add]; exact h.enough.total)
  show Yields u (auditArtifacts L limits true 0 m.artifacts >>= fun _ => .pure m) m s'
  refine haudited.bind ?_
  intro s'' _
  exact ⟨rfl, rfl, rfl⟩

/-- A name is declared once. -/
theorem find_name {ds : List ArtifactDescriptor} (hordered : Ordered ds) {d : ArtifactDescriptor}
    (hd : d ∈ ds) : (ds.find? fun candidate => candidate.name.text = d.name.text) = some d := by
  induction ds with
  | nil => cases hd
  | cons d₀ ds ih =>
    obtain ⟨hfirst, hrest⟩ := List.pairwise_cons.mp hordered
    rcases List.mem_cons.mp hd with rfl | htail
    · simp
    · have hlt : d₀.name.text < d.name.text := hfirst _ (List.mem_map_of_mem htail)
      rw [List.find?_cons_of_neg (by simpa using ne_of_lt hlt)]
      exact ih hrest htail

theorem totalBytes_mem {ds : List ArtifactDescriptor} {d : ArtifactDescriptor} (hd : d ∈ ds) :
    d.byteLength ≤ totalBytes ds :=
  List.le_sum_of_mem (List.mem_map_of_mem hd)

theorem consume_delivers (hL : Lawful L) (h : Complete L limits m data s) {d : ArtifactDescriptor}
    {b : Bytes} (hd : d ∈ m.artifacts) (hb : Stored L s d b) (consumer : Consumer) :
    (consumeAndVerifyArtifact L limits true d.name.text consumer).ensures (healthy u)
      (fun out _ => out = (deliverArtifact L d b consumer).map (Prod.mk d)) s := by
  refine Prog.ensures_bind _ (loadManifest_yields hL h.canonical h.manifest h.enough) ?_ ?_
  · intro m' s' hload
    obtain ⟨hok, hsame⟩ := hload
    cases hok
    rw [validateManifestLimits_ok h.enough, find_name m.ordered hd]
    show Prog.ensures (healthy u) (readVerifiedArtifact L true d _ >>= _) _ _
    have hb' : Stored L s' d b := ⟨(hsame.content _).trans hb.content, hb.byteLength, hb.sha256⟩
    have hbound : d.byteLength ≤ min limits.maxBytesPerArtifact limits.maxTotalArtifactBytes :=
      Nat.le_min.mpr ⟨h.enough.each d hd, Nat.le_trans (totalBytes_mem hd) h.enough.total⟩
    refine Prog.ensures_bind _ (readVerifiedArtifact_yields hb' hbound) ?_ ?_
    · intro content s'' hread
      obtain ⟨hok, _⟩ := hread
      cases hok
      cases deliverArtifact L d b consumer with
      | ok delivered => rfl
      | error e => rfl
    · intro e s'' hread
      cases hread.1
  · intro e s' hload
    cases hload.1

end Healthy

/-! ## Published bundles -/

/-- The writer is there and finalized. -/
def Finalized (s : Bundle T) (id : WriterId T) (w : BundleArtifactWriter) : Prop :=
  s.objects id = some w ∧ s.writers.get? w.name = some .finalized

/-- What a reader on a healthy disk with these files gets. -/
def Readable (L : Codec P) (manifest : BundleManifest) (data : Bytes) (s : Bundle T) : Prop :=
  ∀ (U : Type) [DecidableEq U] (u : U) (disk : Disk u) (d : disk.State) (limits : BundleReadLimits),
    disk.Healthy → (disk.files d).content = s.children → Enough L limits manifest data →
    ((audit L limits true).run disk.answer d).1 = .ok manifest ∧
    ∀ id w, Finalized s id w → ∀ consumer,
      (∀ answer, ((consumeAndVerifyArtifact L limits true w.name.text consumer).run disk.answer
        d).1 = .ok answer → answer = (describe L.environment w, w.taken)) ∧
      (SeesEnd consumer w.taken → ((consumeAndVerifyArtifact L limits true w.name.text
        consumer).run disk.answer d).1 = .ok (describe L.environment w, w.taken))

theorem readable_of_complete [DecidableEq T] {L : Codec P} (hL : Lawful L) {s : Bundle T}
    {manifest : BundleManifest} {data : Bytes}
    (hbytes : L.serialization.canonicalJsonBytes manifest.dump = some data)
    (hdocument : s.children manifestName = some data)
    (hartifacts : ∀ d, d ∈ manifest.artifacts ↔ ∃ id w, Finalized s id w ∧
      d = describe L.environment w)
    (hchildren : ∀ id w, Finalized s id w → s.children w.name.text = some w.taken) :
    Readable L manifest data s := by
  intro U _ u disk d limits hhealthy hfiles henough
  have hstored : ∀ id w, Finalized s id w →
      Stored L (disk.files d) (describe L.environment w) w.taken := by
    intro id w hw
    refine ⟨?_, rfl, rfl⟩
    rw [hfiles]
    exact hchildren id w hw
  have hcomplete : Complete L limits manifest data (disk.files d) := by
    refine ⟨hbytes, by rw [hfiles]; exact hdocument, ?_, henough⟩
    intro descriptor hdescriptor
    obtain ⟨id, w, hw, rfl⟩ := (hartifacts descriptor).mp hdescriptor
    exact ⟨w.taken, hstored id w hw⟩
  refine ⟨(Disk.run_healthy hhealthy (audit_yields hL hcomplete)).1, ?_⟩
  intro id w hw consumer
  have hmem := (hartifacts (describe L.environment w)).mpr ⟨id, w, hw, rfl⟩
  have hrun := Disk.run_healthy hhealthy
    (consume_delivers hL hcomplete hmem (hstored id w hw) consumer)
  obtain ⟨hexact, hend⟩ := @deliverArtifact_exact P L (describe L.environment w) w.taken rfl rfl
    consumer
  have hname : (describe L.environment w).name = w.name := rfl
  rw [hname] at hrun
  rw [hrun]
  refine ⟨?_, ?_⟩
  · intro answer hanswer
    cases hdelivered : deliverArtifact L (describe L.environment w) w.taken consumer with
    | error e =>
      rw [hdelivered] at hanswer
      cases hanswer
    | ok delivered =>
      rw [hdelivered, hexact delivered hdelivered] at hanswer
      cases hanswer
      rfl
  · intro hsees
    rw [hend hsees]
    rfl

/-- **Published bundles audit.** Once `publish` has returned, whoever else was at work: the manifest
declares exactly the finalized writers in order of their names, with the length and the hash of what
was written to them, and the validated payload; a reader of these files gets that manifest, and for
every published name exactly the bytes written, which are the data of the writes that returned, call
by call up to the finalization. -/
theorem published_bundles_audit [DecidableEq T] {L : Codec P} (hL : Lawful L) (C : Clients T P)
    (t : T) (payload : P) (c : Run T) (hc : PublisherRuns L.environment C t payload c)
    (hreturned : c.prog t = some (.pure ())) :
    (∃ validated manifest data, L.validatePayload payload = some validated ∧
      manifest.payload = validated ∧ Ordered manifest.artifacts ∧
      (∀ d, d ∈ manifest.artifacts ↔ ∃ id w, Finalized c.state id w ∧
        d = describe L.environment w) ∧
      c.state.children manifestName = some data ∧ Readable L manifest data c.state) ∧
    (∀ name entry, c.state.writers.get? name = some entry →
      ∃ id w, Finalized c.state id w ∧ w.name = name) ∧
    (∀ id w, Finalized c.state id w → w.taken = w.returned.flatten ∧ Told C id w) ∧
    (∀ name, validateAdmissibleArtifactName L.fold name = .ok () →
      validateArtifactName name = .ok () ∧ checkRegularChildName name = .ok ()) := by
  obtain ⟨hsound, hfiled, validated, manifest, document, data, hpayload, hvalidated, hdocument,
    hencode, hinstalled⟩ := runs_published hc hreturned
  obtain ⟨_, m, hm, hsorted⟩ := hsound.attempted (by rw [hinstalled.attempts]; simp)
  rw [hinstalled.attempts] at hm
  cases hm
  have hartifacts : ∀ d, d ∈ manifest.artifacts ↔ ∃ id w, Finalized c.state id w ∧
      d = describe L.environment w := by
    intro d
    rw [hsorted, hsound.mem_descriptors]
    exact ⟨fun ⟨id, w, hw, hentry, hd⟩ => ⟨id, w, ⟨hw, hentry⟩, hd⟩,
      fun ⟨id, w, ⟨hw, hentry⟩, hd⟩ => ⟨id, w, hw, hentry, hd⟩⟩
  have hbytes : L.serialization.canonicalJsonBytes manifest.dump = some data := by
    obtain rfl := hL.validated _ _ hdocument
    obtain ⟨file, hfile, _⟩ := manifestFile_some hL manifestPublicationMaxBytes L.maxContainerDepth
    simp only [Codec.environment, hfile, Option.bind_eq_bind, Option.bind_some] at hencode
    obtain ⟨v, _, hv, hcanonical, _⟩ := encodeDocument_ok hencode
    rwa [hL.validated _ _ hv] at hcanonical
  refine ⟨⟨validated, manifest, data, hpayload, hvalidated, manifest.ordered, hartifacts,
    hinstalled.document, readable_of_complete hL hbytes hinstalled.document hartifacts ?_⟩, ?_, ?_,
    ?_⟩
  · intro id w hw
    exact (hfiled.finalized id w hw.1 hw.2).1
  · intro name entry hentry
    have hfinalized := hsound.terminal hinstalled.state name entry hentry
    subst hfinalized
    obtain ⟨d, hd⟩ := Option.ne_none_iff_exists'.mp (hsound.finalized name hentry)
    obtain ⟨_, id, w, hw, rfl, _⟩ := hsound.described name d hd
    exact ⟨id, w, ⟨hw, hentry⟩, rfl⟩
  · intro id w hw
    exact ⟨hsound.delivered id w hw.1 hw.2, (hfiled.finalized id w hw.1 hw.2).2⟩
  · intro name hname
    have hvalid := validateArtifactName_of_admissible hname
    exact ⟨hvalid, checkRegularChildName_of_valid hvalid⟩

/-! ## A bundle of one artifact -/

theorem publisher_call [DecidableEq T] {E : Environment P} {C : Clients T P} {t : T}
    {payload : P} {c : Run T} (hc : PublisherRuns E C t payload c) (u : T) (op : Op T) (r : Reply op)
    {k : Reply op → Publication.Script T BundleError Unit} {s' : Bundle T} (hp : c.prog u = some (.exec op k))
    (hs : Effect c.state u op r s') :
    PublisherRuns E C t payload ⟨s', Function.update c.prog u (some (k r))⟩ :=
  Reachable.exec hc hp hs

/-- The SHA-256 of the manifest's name. -/
def nameDigest : Digest :=
  ⟨"ffa5b716b5a57837f7929dfcca4b4dfdeb97210a7fd5a12d2f1978846d6f1743", by decide⟩

/-- JSON text; hashing as it is on the name and on the one artifact. -/
def sampleCodec : Codec Unit where
  fold c := [c.toLower]
  textBytes := textBytes
  sha256 raw := if raw = textBytes manifestName then nameDigest else sampleDigest
  validatePayload _ := some .null
  serialization := textSerialization
  depth := containerDepth
  maxContainerDepth := 128
  parseJson raw := (bytesText raw).bind (parse binaryRead)

theorem sampleCodec_lawful : Lawful sampleCodec where
  fold c _ hupper := by
    have hsame : c.toLower = c := dif_neg (of_decide_eq_false hupper)
    simp only [sampleCodec, hsame]
  validated v v' h := (Option.some.inj h).symm
  decoded v raw maxBytes maxDepth hraw hbytes hdepth := by
    cases hraw
    simp only [sampleCodec, textSerialization, parse_textBytes]
    exact if_pos ⟨hbytes, hdepth⟩
  parsed v raw hraw := by
    cases hraw
    exact parse_textBytes v

def writerOnly : Clients Unit Unit where
  actions _ := [.openArtifact "report.bin", .write sampleId [49, 48], .finalize sampleId]
  user _ := ()
  oneThread _ _ _ _ _ := rfl

def sampleManifest : BundleManifest := ⟨[⟨sampleName, sampleDigest, 2⟩], .null, by decide⟩

theorem sampleManifest_encodes : sampleCodec.environment.encode sampleManifest.dump =
    some (textBytes (dumps binaryRepr sampleManifest.dump)) := by
  obtain ⟨file, hfile, _, hmaxBytes, hmaxDepth⟩ :=
    manifestFile_some sampleCodec_lawful manifestPublicationMaxBytes sampleCodec.maxContainerDepth
  have hdecoded := sampleCodec_lawful.decoded sampleManifest.dump _ file.maxBytes file.maxDepth rfl
    (by rw [hmaxBytes]; decide +kernel) (by rw [hmaxDepth]; decide)
  simp only [Codec.environment, hfile, Option.bind_eq_bind, Option.bind_some]
  exact encodeDocument_of_decodes rfl rfl hdecoded

theorem eq_singleton_of_ordered {ds : List ArtifactDescriptor} {d : ArtifactDescriptor}
    (hordered : Ordered ds) (hmem : ∀ d', d' ∈ ds ↔ d' = d) : ds = [d] := by
  cases ds with
  | nil => exact absurd ((hmem d).mpr rfl) (by simp)
  | cons first rest =>
    obtain rfl := (hmem first).mp List.mem_cons_self
    cases rest with
    | nil => rfl
    | cons second rest =>
      obtain rfl := (hmem second).mp (by simp)
      obtain ⟨hlt, _⟩ := List.pairwise_cons.mp hordered
      exact absurd (hlt _ List.mem_cons_self) (lt_irrefl _)

/-- The writer at the end. -/
def reported : BundleArtifactWriter := ⟨sampleName, [49, 48], 2, [49, 48], [[49, 48]]⟩

/-- The two files of the bundle. -/
def reportFiles (data : Bytes) : Fs Unit :=
  Fs.boot (fun name => if name = manifestName then some 0 else if name = "report.bin" then some 1
    else none) fun n => if n = 0 then data else [49, 48]

/-- One thread publishes one artifact. -/
theorem report_published {encode : Json → Option Bytes} {data : Bytes}
    (hencode : encode sampleManifest.dump = some data) :
    ∃ c, PublisherRuns { sampleCodec.environment with encode } writerOnly () () c ∧
      c.prog () = some (.pure ()) ∧ c.state.children = (reportFiles data).content ∧
      ∀ id w, Finalized c.state id w ↔ id = sampleId ∧ w = reported := by
  have h : PublisherRuns { sampleCodec.environment with encode } writerOnly () ()
    ⟨Bundle.allocate, _⟩ := .refl
  have h := publisher_call h () (.reserve sampleName) (.ok ()) rfl ⟨rfl, rfl⟩
  have h := publisher_call h () (.openExclusiveBinary sampleName) true rfl (.inl ⟨rfl, rfl, rfl⟩)
  have h := publisher_call h () (.admitWriter sampleId sampleName) (.ok ()) rfl ⟨rfl, rfl⟩
  have h := publisher_call h () (.writer sampleId) _ rfl ⟨rfl, rfl⟩
  have h := publisher_call h () (.requireActiveWriter sampleName) true rfl ⟨rfl, rfl⟩
  change PublisherRuns _ _ _ _
    ⟨_, Function.update _ () (some (((((Publication.writeAll _ [49, 48]).settle _) >>=
      fun _ => _).settle _).settle _))⟩ at h
  rw [Publication.writeAll, if_neg (by decide)] at h
  have h := publisher_call h () (.handleWrite sampleId [49, 48]) (some 2) rfl
    ⟨_, 2, 0, rfl, by decide, .inl rfl, rfl⟩
  change PublisherRuns _ _ _ _
    ⟨_, Function.update _ () (some (((((Publication.writeAll _ []).settle _) >>=
      fun _ => _).settle _).settle _))⟩ at h
  rw [Publication.writeAll, if_pos rfl] at h
  have h := publisher_call h () (.account sampleId [49, 48]) () rfl ⟨_, rfl, rfl⟩
  have h := publisher_call h () (.returned sampleId [49, 48]) () rfl ⟨_, rfl, rfl⟩
  have h := publisher_call h () (.writer sampleId) _ rfl ⟨rfl, rfl⟩
  have h := publisher_call h () (.requireActiveWriter sampleName) true rfl ⟨rfl, rfl⟩
  have h := publisher_call h () (.handleFlush sampleId) true rfl ⟨_, 2, rfl, rfl, fun _ => by decide⟩
  have h := publisher_call h () (.handleClose sampleId) true rfl rfl
  have h := publisher_call h () (.writer sampleId) _ rfl ⟨rfl, rfl⟩
  have h := publisher_call h () (.writerFinalized sampleName ⟨sampleName, sampleDigest, 2⟩) (.ok ()) rfl
    ⟨rfl, rfl⟩
  have h := publisher_call h () .checkPreconditions (.ok ()) rfl ⟨rfl, rfl⟩
  have hsorted : sortedDescriptors ((Dict.empty : Dict ArtifactName ArtifactDescriptor).set
      sampleName ⟨sampleName, sampleDigest, 2⟩) = [⟨sampleName, sampleDigest, 2⟩] := by
    unfold sortedDescriptors
    rw [show Dict.keys _ = [sampleName] from rfl, List.mergeSort_singleton]
    rfl
  have h := publisher_call h () .terminate (.ok [⟨sampleName, sampleDigest, 2⟩]) rfl
    ⟨congrArg _ hsorted.symm, rfl⟩
  have hpublished : ∀ s : Bundle Unit, Effect s () (.publishManifest sampleManifest
      (encode sampleManifest.dump)) (.ok ()) ((s.attempt sampleManifest).setDocument data) := by
    intro s
    rw [hencode]
    exact .inl rfl
  have h := publisher_call h () (.publishManifest sampleManifest _) (.ok ()) rfl (hpublished _)
  obtain ⟨c, hc, hreturned, hchildren, hwriter⟩ : ∃ c,
      PublisherRuns { sampleCodec.environment with encode } writerOnly () () c ∧
      c.prog () = some (.pure ()) ∧
      (∃ a b, c.state.children = Function.update (Function.update (Function.update (Function.update
        (fun _ => none) "report.bin" a) "report.bin" b) "report.bin" (some [49, 48])) manifestName
        (some data)) ∧
      (∃ a b, c.state.objects = Function.update (Function.update (Function.update (Function.update
        (fun _ => none) sampleId (some (.create sampleName))) sampleId a) sampleId b) sampleId
        (some reported)) ∧ c.state.writers.get? sampleName = some .finalized :=
    ⟨_, h, rfl, ⟨_, _, rfl⟩, ⟨_, _, rfl⟩, rfl⟩
  obtain ⟨⟨_, _, hobjects⟩, hentry⟩ := hwriter
  refine ⟨c, hc, hreturned, ?_, ?_⟩
  · obtain ⟨_, _, hchildren⟩ := hchildren
    rw [hchildren]
    funext name
    by_cases hmanifest : name = manifestName
    · subst hmanifest
      simp [reportFiles, Fs.content, Fs.boot]
    · by_cases hreport : name = "report.bin"
      · subst hreport
        simp [reportFiles, Fs.content, Fs.boot, hmanifest]
      · simp [reportFiles, Fs.content, Fs.boot, hmanifest, hreport]
  · intro id w
    rw [Finalized, hobjects]
    by_cases hid : id = sampleId
    · subst hid
      simp only [Function.update_self, Option.some.injEq, true_and]
      refine ⟨fun hw => hw.1.symm, ?_⟩
      rintro rfl
      exact ⟨rfl, hentry⟩
    · simp [hid]

def sampleLimits : BundleReadLimits := ⟨1000, 8, 1, 2, 2⟩

/-- The bundle is audited, and what was written to `report.bin` is read back. -/
theorem published_bundles_audit_report : ∃ c data,
    PublisherRuns sampleCodec.environment writerOnly () () c ∧ c.prog () = some (.pure ()) ∧
    c.state.children = (reportFiles data).content ∧
    ((audit sampleCodec sampleLimits true).run (plainDisk ()).answer (reportFiles data)).1 =
      .ok sampleManifest ∧
    ((consumeAndVerifyArtifact sampleCodec sampleLimits true "report.bin" readAll).run
      (plainDisk ()).answer (reportFiles data)).1 =
      .ok (⟨sampleName, sampleDigest, 2⟩, [49, 48]) := by
  obtain ⟨c, hc, hreturned, hfiles, hfinalized⟩ := report_published sampleManifest_encodes
  obtain ⟨⟨_, manifest, data, hpayload, hmanifest, hordered, hartifacts, hdata, hreadable⟩, _⟩ :=
    published_bundles_audit sampleCodec_lawful writerOnly () () c hc hreturned
  have hdescribe : describe sampleCodec.environment reported = ⟨sampleName, sampleDigest, 2⟩ := by
    have hother : ([49, 48] : Bytes) ≠ textBytes manifestName := by decide +kernel
    simp only [describe, reported, Codec.environment, sampleCodec, if_neg hother]
    rfl
  obtain rfl : manifest = sampleManifest := by
    obtain ⟨artifacts, payload, _⟩ := manifest
    cases hpayload
    obtain rfl : payload = .null := hmanifest
    obtain rfl : artifacts = [⟨sampleName, sampleDigest, 2⟩] := by
      refine eq_singleton_of_ordered hordered fun d => (hartifacts d).trans ?_
      simp only [hfinalized]
      constructor
      · rintro ⟨_, _, ⟨_, hw⟩, hd⟩
        exact hd.trans (hw ▸ hdescribe)
      · intro hd
        exact ⟨sampleId, reported, ⟨rfl, rfl⟩, hd.trans hdescribe.symm⟩
    rfl
  obtain rfl : textBytes (dumps binaryRepr sampleManifest.dump) = data := by
    rw [hfiles] at hdata
    simpa [reportFiles, Fs.content, Fs.boot] using hdata
  have henough : Enough sampleCodec sampleLimits sampleManifest
      (textBytes (dumps binaryRepr sampleManifest.dump)) :=
    ⟨by decide +kernel, by decide, by decide, by decide, by decide⟩
  obtain ⟨haudit, hconsume⟩ := hreadable Unit () (plainDisk ()) _ sampleLimits
    (plainDisk_healthy ()) hfiles.symm henough
  refine ⟨c, _, hc, hreturned, hfiles, haudit, ?_⟩
  rw [← hdescribe]
  exact (hconsume sampleId reported ((hfinalized _ _).mpr ⟨rfl, rfl⟩) readAll).2
    (seesEnd_readAll _)

end DrStore.Bundles.Audit
