import DrStore.Bundles.Budget

/-! # What an audit accepts (artifact_bundle/reading.py, artifact_bundle/models.py)

Whatever a directory holds, an audit that returns has found a manifest and all that it declares; on
a healthy disk nothing else is asked of the directory. A manifest need not carry its format: it has
a default, so there are two documents for each manifest. -/
namespace DrStore.Bundles.Acceptance
open DrStore.Base.PyJson DrStore.Base.JsonText DrStore.Base.Programs
open DrStore.Documents.FileSystem
open DrStore.Documents.CanonicalJson DrStore.Documents.Decoding DrStore.Documents.RoundTrip
open DrStore.Documents.VerifiedRead DrStore.Store.ContentAddressing
open DrStore.Bundles.Models DrStore.Bundles.Contents DrStore.Bundles.Reading DrStore.Bundles.Audit
open DrStore.Bundles.Budget

variable {U P : Type}

/-! ## The documents of a manifest -/

theorem descriptor_validate_iff {v : Json} {d : ArtifactDescriptor} :
    ArtifactDescriptor.validate v = some d ↔ v = d.dump := by
  constructor
  · intro h
    unfold ArtifactDescriptor.validate at h
    split at h
    · rename_i n name sha256
      split at h
      · rename_i hvalid
        cases h
        rw [ArtifactDescriptor.dump, Int.toNat_of_nonneg hvalid.1]
      · cases h
    · cases h
  · rintro rfl
    exact ArtifactDescriptor.validate_dump d

theorem descriptors_validate_iff {items : List Json} {ds : List ArtifactDescriptor} :
    items.mapM ArtifactDescriptor.validate = some ds ↔ items = ds.map ArtifactDescriptor.dump := by
  induction items generalizing ds with
  | nil => cases ds <;> simp
  | cons item items ih =>
    cases ds with
    | nil => simp [Option.bind_eq_some_iff]
    | cons d ds => simp [Option.bind_eq_some_iff, descriptor_validate_iff, ih]

/-- The dump without the format, which is read as the default. -/
def unmarked (m : BundleManifest) : Json :=
  .obj [("artifacts", .arr (m.artifacts.map ArtifactDescriptor.dump)), ("payload", m.payload)]

theorem validateFields_iff {artifacts : List Json} {format : String} {payload : Json}
    {m : BundleManifest} : BundleManifest.validateFields artifacts format payload = some m ↔
      format = bundleFormat ∧ artifacts = m.artifacts.map ArtifactDescriptor.dump ∧
        payload = m.payload := by
  constructor
  · intro h
    unfold BundleManifest.validateFields at h
    split at h
    · cases h
    · rename_i hformat
      obtain ⟨ds, hds, h⟩ := Option.bind_eq_some_iff.mp h
      split at h
      · cases h
        exact ⟨not_not.mp hformat, descriptors_validate_iff.mp hds, rfl⟩
      · cases h
  · rintro ⟨rfl, rfl, rfl⟩
    have hds := descriptors_validate_iff.mpr (Eq.refl (m.artifacts.map ArtifactDescriptor.dump))
    simp only [BundleManifest.validateFields, ne_eq, not_true_eq_false, if_false, hds,
      Option.bind_eq_bind, Option.bind_some]
    exact dif_pos m.ordered

/-- Nothing but these two documents validates to the manifest. -/
theorem manifest_validate_iff {v : Json} {m : BundleManifest} :
    BundleManifest.validate v = some m ↔ v = m.dump ∨ v = unmarked m := by
  constructor
  · intro h
    unfold BundleManifest.validate at h
    split at h
    · obtain ⟨rfl, rfl, rfl⟩ := validateFields_iff.mp h
      exact .inl rfl
    · obtain ⟨_, rfl, rfl⟩ := validateFields_iff.mp h
      exact .inr rfl
    · cases h
  · rintro (rfl | rfl)
    · exact BundleManifest.validate_dump m
    · exact validateFields_iff.mpr ⟨rfl, rfl, rfl⟩

/-! ## What is accepted -/

/-- The decoder's depth limit is one on what it returns. -/
structure Strict (L : Codec P) : Prop extends Lawful L where
  shallow : ∀ raw maxBytes maxDepth v,
    L.serialization.decodeStrictJsonBytes raw maxBytes maxDepth = .ok v → L.depth v ≤ maxDepth

/-- The manifest's file holds one of its documents in canonical bytes, within the limits. -/
def Found (L : Codec P) (limits : BundleReadLimits) (m : BundleManifest) (s : Fs U) : Prop :=
  ∃ document data, (document = m.dump ∨ document = unmarked m) ∧
    L.serialization.canonicalJsonBytes document = some data ∧ s.content manifestName = some data ∧
    data.length ≤ limits.manifestMaxBytes ∧ L.depth document ≤ limits.manifestMaxDepth

/-- What the manifest declares is within the limits. -/
structure Within (limits : BundleReadLimits) (m : BundleManifest) : Prop where
  artifacts : m.artifacts.length ≤ limits.maxArtifacts
  each : ∀ d ∈ m.artifacts, d.byteLength ≤ limits.maxBytesPerArtifact
  total : totalBytes m.artifacts ≤ limits.maxTotalArtifactBytes

/-- A directory that holds the manifest and all it declares, within the limits. -/
structure Accepts (L : Codec P) (limits : BundleReadLimits) (m : BundleManifest) (s : Fs U) :
    Prop where
  found : Found L limits m s
  within : Within limits m
  stored : ∀ d ∈ m.artifacts, ∃ b, Stored L s d b

theorem validateDeclared_within {limits : BundleReadLimits} (ds : List ArtifactDescriptor)
    {total : Nat} (htotal : total ≤ limits.maxTotalArtifactBytes)
    (h : validateDeclared limits total ds = .ok ()) :
    (∀ d ∈ ds, d.byteLength ≤ limits.maxBytesPerArtifact) ∧
      total + totalBytes ds ≤ limits.maxTotalArtifactBytes := by
  induction ds generalizing total with
  | nil => exact ⟨(fun d hd => by cases hd), htotal⟩
  | cons d ds ih =>
    obtain ⟨hd, hsum, hrest⟩ := validateDeclared_cons h
    obtain ⟨heach, hall⟩ := ih hsum hrest
    refine ⟨List.forall_mem_cons.mpr ⟨hd, heach⟩, ?_⟩
    have hcons : totalBytes (d :: ds) = d.byteLength + totalBytes ds := List.sum_cons
    omega

theorem validateManifestLimits_iff {limits : BundleReadLimits} {m : BundleManifest} :
    validateManifestLimits m limits = .ok () ↔ Within limits m := by
  constructor
  · intro h
    have hdeclared := validateDeclared_of_limits h
    obtain ⟨heach, htotal⟩ := validateDeclared_within m.artifacts (Nat.zero_le _) hdeclared
    refine ⟨?_, heach, by rwa [Nat.zero_add] at htotal⟩
    unfold validateManifestLimits at h
    split at h
    · cases h
    · rename_i hnone
      exact List.getElem?_eq_none_iff.mp hnone
  · intro h
    unfold validateManifestLimits
    rw [List.getElem?_eq_none h.artifacts]
    exact validateDeclared_ok m.artifacts h.each (by rw [Nat.zero_add]; exact h.total)

/-! ## Any disk -/

variable [DecidableEq U] {u : U} {s : Fs U} {L : Codec P} {limits : BundleReadLimits}
  {m : BundleManifest}

/-- A file that is not there is not read. -/
theorem readSteps_missing {file : CanonicalJsonFile} (hmissing : s.content file.name = none) :
    (readSteps file : Script U (ReadFailure U) _).ensures (lawful u)
      (fun out _ => ∀ ended, out ≠ .ok ended) s := by
  intro r s₁ heffect
  cases r with
  | error e => exact fun _ h => by cases h
  | ok directory =>
    obtain ⟨_, rfl⟩ := heffect
    intro r s₂ heffect
    cases r with
    | error e => exact fun _ h => by cases h
    | ok child =>
      obtain ⟨_, _, i, hi, _⟩ := heffect
      have hi : s.names file.name = some i := hi
      rw [Fs.content, hi] at hmissing
      cases hmissing

theorem readBytes_missing {file : CanonicalJsonFile} {supported : Bool}
    (hmissing : s.content file.name = none) :
    (readBytes file supported : Script U DocumentError Answer).ensures (lawful u)
      (fun out _ => ∀ raw, out ≠ .ok (.document raw)) s := by
  unfold readBytes
  split
  · exact fun _ h => by cases h
  · refine (Prog.ensures_settle _ _ _ s).mpr (Prog.ensures_mono (readSteps_missing hmissing) ?_)
    intro out s' hout
    refine Prog.ensures_bind _ (Prog.ensures_true _ s') ?_ (fun _ _ _ _ h => by cases h)
    intro cause s₁ _
    refine Prog.ensures_bind _ (Prog.ensures_true _ s₁) ?_ (fun _ _ _ _ h => by cases h)
    intro cause s₂ _
    cases out with
    | error failure =>
      cases cause with
      | none => exact fun _ h => by cases h
      | some cause => exact fun _ h => by cases h
    | ok ended =>
      cases cause with
      | none => exact absurd rfl (hout ended)
      | some cause => exact fun _ h => by cases h

/-- Bytes that are read are all the bytes of the file. -/
theorem readBytes_found {file : CanonicalJsonFile} {supported : Bool} :
    (readBytes file supported : Script U DocumentError Answer).ensures (lawful u) (fun out _ =>
      ∀ raw, out = .ok (.document raw) → s.content file.name = some raw ∧
        raw.length ≤ file.maxBytes) s := by
  cases hcontent : s.content file.name with
  | none =>
    refine Prog.ensures_mono (readBytes_missing hcontent) ?_
    intro out s' hout raw hraw
    exact absurd hraw (hout raw)
  | some b =>
    refine Prog.ensures_mono (readBytes_returns hcontent) ?_
    intro out s' hout raw hraw
    obtain ⟨rfl, hlength⟩ := hout raw hraw
    exact ⟨rfl, hlength⟩

theorem loadManifest_found (hL : Strict L) (supported : Bool) :
    (loadManifest L limits supported).ensures (lawful u)
      (fun out _ => ∀ m, out = .ok m → Found L limits m s) s := by
  obtain ⟨file, hfile, hname, hmaxBytes, hmaxDepth⟩ :=
    manifestFile_some hL.toLawful limits.manifestMaxBytes limits.manifestMaxDepth
  unfold loadManifest
  simp only [hfile]
  refine (Prog.ensures_settle _ _ _ _).mpr ((Prog.ensures_settle _ _ _ _).mpr
    (Prog.ensures_mono readBytes_found ?_))
  intro out s' hout
  rcases out with (⟨stage, reason⟩ | ⟨stage, state⟩) | (_ | raw)
  · simp only [Prog.ensures]
    split <;> exact fun _ h => by cases h
  · simp only [Prog.ensures]
    split <;> exact fun _ h => by cases h
  · simp only [Prog.ensures]
    split <;> exact fun _ h => by cases h
  · obtain ⟨hcontent, hlength⟩ := hout raw rfl
    show (Prog.ofExcept (decodeStored L.serialization file raw)).ensures _ _ _
    cases hdecoded : decodeStored L.serialization file raw with
    | error e =>
      simp only [Prog.ofExcept_error, Prog.ensures]
      split <;> exact fun _ h => by cases h
    | ok document =>
      obtain ⟨hdecode, hcanonical⟩ := decodeStored_ok hdecoded
      simp only [Prog.ofExcept_ok, Prog.ensures, hcanonical, Option.bind_some,
        hL.parsed document raw hcanonical]
      cases hvalid : BundleManifest.validate document with
      | none => exact fun _ h => by cases h
      | some m' =>
        intro m hm
        cases hm
        rw [hname] at hcontent
        rw [hmaxBytes] at hlength
        have hdepth := hL.shallow _ _ _ _ hdecode
        rw [hmaxDepth] at hdepth
        exact ⟨document, raw, manifest_validate_iff.mp hvalid, hcanonical, hcontent, hlength, hdepth⟩

/-- Nothing is audited that the directory does not hold, whatever calls fail. -/
theorem audit_accepts (hL : Strict L) (supported : Bool) :
    (audit L limits supported).ensures (lawful u)
      (fun out _ => ∀ m, out = .ok m → Accepts L limits m s) s := by
  have hfound : (loadManifest L limits supported).ensures (lawful u)
      (fun out _ => ∀ m, out = .ok m → Found L limits m s) s := loadManifest_found hL supported
  have hload := Prog.ensures_and hfound (ensures_of_metered (m := .zero) loadManifest_unread)
  refine Prog.ensures_bind _ hload ?_ (fun _ _ _ _ h => by cases h)
  intro m s₁ hloaded
  obtain ⟨hmatches, m₁, hunread, _⟩ := hloaded
  cases hlimits : validateManifestLimits m limits with
  | error e => exact fun _ h => by cases h
  | ok _ =>
    have hwithin := validateManifestLimits_iff.mp hlimits
    have hnames : (m.artifacts.map fun d => d.name.text).Nodup := m.ordered.imp fun h => ne_of_lt h
    have haudited : (auditArtifacts L limits supported 0 m.artifacts).ensures (metered u)
        (Audited L limits 0 m.artifacts s₁ m₁) (s₁, m₁) :=
      auditArtifacts_metered m.artifacts (Nat.zero_le _) hnames (validateDeclared_of_limits hlimits)
    show (auditArtifacts L limits supported 0 m.artifacts >>= fun _ =>
      (.pure m : ReadScript U BundleReadError BundleManifest)).ensures _ _ _
    refine Prog.ensures_bind _ (ensures_of_metered haudited) ?_ (fun _ _ _ _ h => by cases h)
    intro _ s₂ hend m' hm
    obtain ⟨m₂, hend⟩ := hend
    cases hm
    refine ⟨hmatches m rfl, hwithin, fun d hd => ?_⟩
    obtain ⟨raw, hcontent, hlength, hhash⟩ := hend.content rfl d hd
    exact ⟨raw, (hunread.files.content _).symm.trans hcontent, hlength.symm,
      (Digest.text_inj hhash).symm⟩

/-! ## A healthy disk -/

theorem loadManifest_healthy (hL : Strict L) (h : Found L limits m s) :
    Yields u (loadManifest L limits true) m s := by
  obtain ⟨document, data, hdocument, hbytes, hcontent, hlength, hdepth⟩ := h
  obtain ⟨file, hfile, hname, hmaxBytes, hmaxDepth⟩ :=
    manifestFile_some hL.toLawful limits.manifestMaxBytes limits.manifestMaxDepth
  have hdecoded : decodeStored L.serialization file data = .ok document := by
    unfold decodeStored
    rw [hmaxBytes, hmaxDepth, hL.decoded document data _ _ hbytes hlength hdepth]
    exact if_pos hbytes
  unfold loadManifest
  simp only [hfile]
  refine (Prog.ensures_settle _ _ _ _).mpr (Prog.ensures_mono
    (readDocument_healthy (S := L.serialization) (by rw [hname]; exact hcontent)) ?_)
  intro out s' hout
  obtain ⟨rfl, hframe⟩ := hout
  rw [hmaxBytes, if_neg (Nat.not_lt.mpr hlength), hdecoded]
  simp only [hbytes, Option.bind_some, hL.parsed document data hbytes,
    manifest_validate_iff.mpr hdocument]
  exact ⟨rfl, hframe.names, hframe.bytes⟩

theorem audit_healthy (hL : Strict L) (h : Accepts L limits m s) :
    Yields u (audit L limits true) m s := by
  refine (loadManifest_healthy hL h.found).bind ?_
  intro s' hsame
  rw [validateManifestLimits_iff.mpr h.within]
  have hstored : ∀ d ∈ m.artifacts, ∃ b, Stored L s' d b := by
    intro d hd
    obtain ⟨b, hb⟩ := h.stored d hd
    exact ⟨b, (hsame.content _).trans hb.content, hb.byteLength, hb.sha256⟩
  have haudited : Yields u (auditArtifacts L limits true 0 m.artifacts) () s' :=
    auditArtifacts_yields m.artifacts hstored h.within.each
      (by rw [Nat.zero_add]; exact h.within.total)
  show Yields u (auditArtifacts L limits true 0 m.artifacts >>= fun _ => .pure m) m s'
  refine haudited.bind ?_
  intro s'' _
  exact ⟨rfl, rfl, rfl⟩

/-! ## Manifests and their directories -/

omit [DecidableEq U] in
/-- A directory is accepted for one manifest only. -/
theorem Accepts.unique {m' : BundleManifest} (hL : Strict L) (h : Accepts L limits m s)
    (h' : Accepts L limits m' s) : m = m' := by
  obtain ⟨document, data, hdocument, hbytes, hcontent, _⟩ := h.found
  obtain ⟨document', data', hdocument', hbytes', hcontent', _⟩ := h'.found
  obtain rfl : data = data' := Option.some.inj (hcontent.symm.trans hcontent')
  have hparsed := hL.parsed document data hbytes
  rw [hL.parsed document' data hbytes'] at hparsed
  obtain rfl : document' = document := Option.some.inj hparsed
  have hvalid := manifest_validate_iff.mpr hdocument
  rw [manifest_validate_iff.mpr hdocument'] at hvalid
  exact (Option.some.inj hvalid).symm

omit [DecidableEq U] in
/-- What is declared is the same wherever the manifest is accepted, up to a collision. -/
theorem Accepts.agree {s' : Fs U} (h : Accepts L limits m s) (h' : Accepts L limits m s')
    {d : ArtifactDescriptor} (hd : d ∈ m.artifacts) :
    s.content d.name.text = s'.content d.name.text ∨
      ∃ b b' : Bytes, b ≠ b' ∧ b.length = b'.length ∧ L.sha256 b = L.sha256 b' := by
  obtain ⟨b, hb⟩ := h.stored d hd
  obtain ⟨b', hb'⟩ := h'.stored d hd
  by_cases hsame : b = b'
  · subst hsame
    exact .inl (hb.content.trans hb'.content.symm)
  · exact .inr ⟨b, b', hsame, hb.byteLength.symm.trans hb'.byteLength,
      hb.sha256.symm.trans hb'.sha256⟩

/-- **Audits accept whole bundles only.** Whatever the directory holds, whatever calls fail and
however reads are cut, an audit that returns a manifest has found one of its two documents in
canonical bytes and every declared artifact with its length and its hash, all within the limits; on
a healthy disk it returns the manifest exactly then. No directory is accepted for two manifests,
and two directories that are accepted for one hold the same artifacts unless SHA-256 collides. -/
theorem audit_exact (hL : Strict L) (limits : BundleReadLimits) (disk : Disk u)
    (s : disk.State) :
    (∀ supported m, ((audit L limits supported).run disk.answer s).1 = .ok m →
      Accepts L limits m (disk.files s)) ∧
    (disk.Healthy → ∀ m, ((audit L limits true).run disk.answer s).1 = .ok m ↔
      Accepts L limits m (disk.files s)) ∧
    (∀ m m', Accepts L limits m (disk.files s) → Accepts L limits m' (disk.files s) → m = m') ∧
    ∀ (s' : Fs U) m, Accepts L limits m (disk.files s) → Accepts L limits m s' →
      ∀ d ∈ m.artifacts, (disk.files s).content d.name.text = s'.content d.name.text ∨
        ∃ b b' : Bytes, b ≠ b' ∧ b.length = b'.length ∧ L.sha256 b = L.sha256 b' := by
  have hsound : ∀ supported m, ((audit L limits supported).run disk.answer s).1 = .ok m →
      Accepts L limits m (disk.files s) := by
    intro supported m
    exact disk.run_lawful (audit_accepts hL supported) m
  refine ⟨hsound, fun hhealthy m => ⟨hsound true m, fun haccepts => ?_⟩, ?_, ?_⟩
  · exact (disk.run_healthy hhealthy (audit_healthy hL haccepts)).1
  · exact fun m m' h h' => h.unique hL h'
  · exact fun s' m h h' d hd => h.agree h' hd

/-! ## A manifest without its format -/

theorem sampleCodec_strict : Strict sampleCodec where
  toLawful := sampleCodec_lawful
  shallow raw maxBytes maxDepth v h := by
    simp only [sampleCodec, textSerialization] at h
    split at h
    · cases h
    · split at h
      · rename_i hbounds
        cases h
        exact hbounds.2
      · cases h

/-- The report and a manifest that leaves its format to the default. -/
def unmarkedFiles : Fs Unit :=
  Fs.boot (fun name => if name = manifestName then some 0 else some 1) fun n =>
    if n = 0 then textBytes (dumps binaryRepr (unmarked sampleManifest)) else [49, 48]

theorem unmarkedFiles_manifest : unmarkedFiles.content manifestName =
    some (textBytes (dumps binaryRepr (unmarked sampleManifest))) := by
  simp [unmarkedFiles, Fs.content, Fs.boot]

theorem unmarkedFiles_report {name : String} (hname : name ≠ manifestName) :
    unmarkedFiles.content name = some [49, 48] := by
  simp [unmarkedFiles, Fs.content, Fs.boot, hname]

theorem unmarkedFiles_accepted : Accepts sampleCodec sampleLimits sampleManifest unmarkedFiles where
  found := by
    refine ⟨unmarked sampleManifest, textBytes (dumps binaryRepr (unmarked sampleManifest)),
      .inr rfl, rfl, unmarkedFiles_manifest, ?_, ?_⟩
    · decide +kernel
    · decide
  within := ⟨by decide, by decide, by decide⟩
  stored d hd := by
    obtain rfl := List.mem_singleton.mp hd
    refine ⟨[49, 48], unmarkedFiles_report (text_ne_manifestName _), rfl, ?_⟩
    have hother : ([49, 48] : Bytes) ≠ textBytes manifestName := by decide +kernel
    simp only [sampleCodec, if_neg hother]

theorem audit_exact_unmarked : ((audit sampleCodec sampleLimits true).run (plainDisk ()).answer
    unmarkedFiles).1 = .ok sampleManifest :=
  ((audit_exact sampleCodec_strict sampleLimits (plainDisk ()) unmarkedFiles).2.1
    (plainDisk_healthy ()) sampleManifest).mpr unmarkedFiles_accepted

end DrStore.Bundles.Acceptance
