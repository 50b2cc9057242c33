import DrStore.Bundles.OneShot

/-! # What the files of a publication hold

On top of the rules of one publication: the child of a finalized writer holds what its user has
written, call by call, and it stays so, as does the manifest of the one publisher. The writes that
returned are the last calls that the user has made on the writer. -/
namespace DrStore.Bundles.Contents
open DrStore.Base.PyJson DrStore.Base.Collections DrStore.Base.Programs DrStore.Base.Pool
open DrStore.Documents.FileSystem DrStore.Bundles.Models DrStore.Bundles.Publication
open DrStore.Bundles.OneShot

variable {T P : Type} [DecidableEq T] {E : Environment P} {C : Clients T P}

/-! ## The rules -/

/-- The data of the calls that write to one writer, in order. -/
def written (id : WriterId T) : List (Action T P) → List Bytes
  | [] => []
  | .write id' data :: rest => if id' = id then data :: written id rest else written id rest
  | .openArtifact _ :: rest | .finalize _ :: rest | .publish _ :: rest => written id rest

theorem written_append (id : WriterId T) (calls calls' : List (Action T P)) :
    written id (calls ++ calls') = written id calls ++ written id calls' := by
  induction calls with
  | nil => rfl
  | cons a calls ih =>
    cases a with
    | write id' data =>
      simp only [List.cons_append, written, ih]
      split <;> rfl
    | openArtifact | finalize | publish => exact ih

/-- The writes that returned are those of consecutive calls of the writer's user up to a
finalization. -/
def Told (C : Clients T P) (id : WriterId T) (w : BundleArtifactWriter) : Prop :=
  ∃ before calls after, C.actions (C.user id) = before ++ calls ++ .finalize id :: after ∧
    w.returned = written id calls

structure Filed (C : Clients T P) (s : Bundle T) : Prop where
  present : ∀ id w, s.objects id = some w → s.children w.name.text ≠ none
  finalized : ∀ id w, s.objects id = some w → s.writers.get? w.name = some .finalized →
    s.children w.name.text = some w.taken ∧ Told C id w

structure FileGuarantee (C : Clients T P) (t : T) (s s' : Bundle T) : Prop where
  present : ∀ name, s.children name ≠ none → s'.children name ≠ none
  others : ∀ id w, C.user id ≠ t → s.objects id = some w →
    s'.children w.name.text = s.children w.name.text
  opened : ∀ id w, s.objects id = none → s'.objects id = some w → w.returned = []
  document : s.publisher ≠ some t → s'.children manifestName = s.children manifestName

def fileRules (C : Clients T P) : Rules T (Bundle T) where
  inv := Filed C
  guar := FileGuarantee C

omit [DecidableEq T] in
theorem text_inj {a b : ArtifactName} (h : a.text = b.text) : a = b := by
  cases a
  cases b
  cases h
  rfl

/-- No artifact is called like the manifest. -/
theorem text_ne_manifestName (name : ArtifactName) : name.text ≠ manifestName := by
  intro heq
  have hvalid := name.valid
  rw [heq] at hvalid
  exact absurd hvalid (by decide)

/-! ## Steps -/

def FileKept (C : Clients T P) (t : T) (s s' : Bundle T) : Prop := Filed C s' ∧ FileGuarantee C t s s'

namespace FileKept

variable {t : T} {s s' : Bundle T} {id : WriterId T} {w : BundleArtifactWriter}

/-- A step that leaves files and writer objects alone, and finalizes nothing. -/
theorem quiet (h : Filed C s) (hchildren : s'.children = s.children)
    (hobjects : s'.objects = s.objects)
    (hentries : ∀ name, s'.writers.get? name = some .finalized →
      s.writers.get? name = some .finalized) : FileKept C t s s' := by
  refine ⟨⟨?_, ?_⟩, ⟨?_, ?_, ?_, ?_⟩⟩ <;> simp only [hchildren, hobjects]
  · exact h.present
  · exact fun id w hw hentry => h.finalized id w hw (hentries w.name hentry)
  · exact fun _ h => h
  · exact fun _ _ _ _ => trivial
  · intro id w hnone hsome
    rw [hnone] at hsome
    cases hsome
  · exact fun _ => trivial

/-- The user of an active writer changes its object and its child. -/
theorem touch (hsound : Sound E s) (h : Filed C s) {w' : BundleArtifactWriter} (data : Bytes)
    (hw : s.objects id = some w) (huser : C.user id = t) (hname : w'.name = w.name)
    (hactive : s.writers.get? w.name = some .active) :
    FileKept C t s ((s.setObject id w').setChild w.name data) := by
  have hobject : ∀ j, Function.update s.objects id (some w') j =
      if j = id then some w' else s.objects j := fun j => Function.update_apply ..
  have hchild : ∀ n, Function.update s.children w.name.text (some data) n =
      if n = w.name.text then some data else s.children n := fun n => Function.update_apply ..
  have hother : ∀ j w₁, j ≠ id → s.objects j = some w₁ → w₁.name.text ≠ w.name.text := by
    intro j w₁ hj hw₁ heq
    exact hj (hsound.unique j id w₁ w hw₁ hw (text_inj heq))
  have hmanifest := text_ne_manifestName w.name
  refine ⟨⟨?_, ?_⟩, ⟨?_, ?_, ?_, ?_⟩⟩ <;>
    simp only [Bundle.setObject, Bundle.setChild, hobject, hchild]
  · grind [h.present]
  · grind [h.finalized]
  · grind
  · grind
  · grind
  · grind

/-- A child is created exclusively, so it is nobody's. -/
theorem create (h : Filed C s) (name : ArtifactName) (hnone : s.children name.text = none) :
    FileKept C t s (s.setChild name []) := by
  have hchild : ∀ n, Function.update s.children name.text (some []) n =
      if n = name.text then some [] else s.children n := fun n => Function.update_apply ..
  have hmanifest := text_ne_manifestName name
  have hother : ∀ id w, s.objects id = some w → w.name.text ≠ name.text := by
    intro id w hw heq
    exact h.present id w hw (heq ▸ hnone)
  refine ⟨⟨?_, ?_⟩, ⟨?_, ?_, ?_, ?_⟩⟩ <;> simp only [Bundle.setChild, hchild]
  · grind [h.present]
  · grind [h.finalized]
  · grind
  · grind
  · grind
  · grind

/-- A writer object appears, with the child that was created for it. -/
theorem admitWriter (hsound : Sound E s) (h : Filed C s) {name : ArtifactName}
    (hopening : s.opening t = some name) (hpresent : s.children name.text ≠ none) :
    FileKept C t s ((s.setObject id (.create name)).setOpening t none) := by
  have hactive := (hsound.opening t name hopening).1
  have hname : (BundleArtifactWriter.create name).name = name := rfl
  have hreturned : (BundleArtifactWriter.create name).returned = [] := rfl
  have hobject : ∀ j, Function.update s.objects id (some (.create name)) j =
      if j = id then some (.create name) else s.objects j := fun j => Function.update_apply ..
  refine ⟨⟨?_, ?_⟩, ⟨?_, ?_, ?_, ?_⟩⟩ <;>
    simp only [Bundle.setObject, Bundle.setOpening, hobject]
  · grind [h.present]
  · grind [h.finalized]
  · grind
  · grind
  · grind
  · grind

/-- An object changes and keeps its name; a finalized one keeps what it has taken and what was noted
of it. -/
theorem account (h : Filed C s) {w' : BundleArtifactWriter} (hw : s.objects id = some w)
    (hname : w'.name = w.name) (hkept : s.writers.get? w.name = some .finalized →
      w'.taken = w.taken ∧ w'.returned = w.returned) :
    FileKept C t s (s.setObject id w') := by
  have hobject : ∀ j, Function.update s.objects id (some w') j =
      if j = id then some w' else s.objects j := fun j => Function.update_apply ..
  refine ⟨⟨?_, ?_⟩, ⟨?_, ?_, ?_, ?_⟩⟩ <;> simp only [Bundle.setObject, hobject]
  · grind [h.present]
  · intro id' w₁ hw₁ hfinalized
    split at hw₁
    · rename_i hid
      subst hid
      cases hw₁
      obtain ⟨htaken, hreturned⟩ := hkept (hname ▸ hfinalized)
      obtain ⟨hchild, before, calls, after, hactions, hcalls⟩ :=
        h.finalized id' w hw (hname ▸ hfinalized)
      refine ⟨by rw [hname, htaken]; exact hchild, before, calls, after, hactions, ?_⟩
      exact hreturned.trans hcalls
    · exact h.finalized id' w₁ hw₁ hfinalized
  · grind
  · grind
  · grind
  · grind

/-- A writer is finalized once its child holds all that it has taken. -/
theorem finalize (hsound : Sound E s) (h : Filed C s) {descriptor : ArtifactDescriptor}
    (hw : s.objects id = some w) (hchild : s.children w.name.text = some w.taken)
    (htold : Told C id w) :
    FileKept C t s { s with
      descriptors := s.descriptors.set w.name descriptor
      writers := s.writers.set w.name .finalized } := by
  have hentry : ∀ j, (s.writers.set w.name .finalized).get? j =
      if j = w.name then some .finalized else s.writers.get? j := fun j => Dict.get?_set ..
  refine ⟨⟨h.present, ?_⟩, ⟨?_, ?_, ?_, ?_⟩⟩ <;> simp only [hentry]
  · intro id' w' hw' hfinalized
    split at hfinalized
    · rename_i heq
      obtain rfl := hsound.unique id' id w' w hw' hw heq
      rw [hw] at hw'
      cases hw'
      exact ⟨hchild, htold⟩
    · exact h.finalized id' w' hw' hfinalized
  · grind
  · grind
  · grind
  · grind

/-- Only the publisher changes the manifest. -/
theorem publishManifest (h : Filed C s) (hpublisher : s.publisher = some t)
    (manifest : BundleManifest) (data : Bytes) :
    FileKept C t s ((s.attempt manifest).setDocument data) := by
  have hchild : ∀ n, Function.update s.children manifestName (some data) n =
      if n = manifestName then some data else s.children n := fun n => Function.update_apply ..
  refine ⟨⟨?_, ?_⟩, ⟨?_, ?_, ?_, ?_⟩⟩ <;>
    simp only [Bundle.attempt, Bundle.setDocument, hchild]
  · grind [h.present]
  · grind [h.finalized, text_ne_manifestName]
  · grind
  · grind [text_ne_manifestName]
  · grind
  · exact fun hne => absurd hpublisher hne

end FileKept

/-- The steps that a thread may take, as far as files go. -/
def FilePermitted (C : Clients T P) (t : T) (s : Bundle T) : Op T → Prop
  | .admitWriter _ name => s.opening t = some name ∧ s.children name.text ≠ none
  | .handleWrite id _ | .handleFlush id | .returned id _ => C.user id = t ∧
      ∀ w, s.objects id = some w → s.writers.get? w.name = some .active
  | .writerFinalized name _ => ∃ id w, s.objects id = some w ∧ w.name = name ∧
      s.children name.text = some w.taken ∧ Told C id w
  | _ => True

omit [DecidableEq T] in
/-- A manifest is tried by the publisher only. -/
theorem attempt_publisher {t : T} {s s' : Bundle T} {manifest : BundleManifest}
    (hsound' : Sound E s') (hguar : Guarantee C t s s')
    (hstate : s'.state = s.state) (hattempts : s'.attempts = s.attempts ++ [manifest]) :
    s.publisher = some t := by
  by_contra hne
  have hterminal : s.state = .terminal := by
    rw [← hstate]
    exact (hsound'.attempted (by rw [hattempts]; simp)).1
  have hsame := (hguar.terminal hterminal).2.2 hne
  rw [hattempts] at hsame
  simp at hsame

/-- **A permitted step keeps what the files hold.** -/
theorem effect_filed {t : T} {s s' : Bundle T} {op : Op T} {r : Reply op} (hsound : Sound E s)
    (h : Filed C s) (hop : FilePermitted C t s op) (heffect : Effect s t op r s')
    (hsound' : Sound E s') (hguar : Guarantee C t s s') : FileKept C t s s' := by
  cases op with
  | reserve name =>
    obtain ⟨_, _, rfl⟩ | ⟨_, _, _, rfl⟩ := reserve_cases heffect
    · exact .quiet h rfl rfl fun _ hentry => hentry
    · refine .quiet h rfl rfl ?_
      intro j hentry
      simp only [Bundle.setOpening, Dict.get?_set] at hentry
      grind
  | openExclusiveBinary name =>
    obtain ⟨_, hnone, rfl⟩ | ⟨_, rfl⟩ := heffect
    · exact .create h name hnone
    · exact .quiet h rfl rfl fun _ hentry => hentry
  | creationFailed name =>
    obtain rfl : s' = _ := heffect
    refine .quiet h rfl rfl ?_
    intro j hentry
    simp only [Bundle.setOpening, Bundle.poison, Dict.get?_set] at hentry
    grind
  | admitWriter id name =>
    simp only [Effect] at heffect
    split at heffect
    · obtain ⟨_, rfl⟩ := heffect
      refine .quiet h rfl rfl ?_
      intro j hentry
      simp only [Bundle.setOpening, Dict.get?_erase] at hentry
      grind
    · obtain ⟨_, rfl⟩ := heffect
      exact .admitWriter hsound h hop.1 hop.2
  | writer id =>
    obtain ⟨_, rfl⟩ := heffect
    exact .quiet h rfl rfl fun _ hentry => hentry
  | requireActiveWriter name =>
    obtain ⟨_, rfl⟩ := heffect
    exact .quiet h rfl rfl fun _ hentry => hentry
  | handleWrite id data =>
    obtain ⟨w, n, m, hw, _, _, rfl⟩ := heffect
    exact .touch hsound h _ hw hop.1 rfl (hop.2 w hw)
  | handleFlush id =>
    obtain ⟨w, m, hw, rfl, _⟩ := heffect
    have hsame : s.setObject id w = s := by
      rw [Bundle.setObject, ← hw, Function.update_eq_self]
    have hkept := FileKept.touch hsound h (w.taken.take m) hw hop.1 rfl (hop.2 w hw)
    rwa [hsame] at hkept
  | handleClose id =>
    obtain rfl : s' = s := heffect
    exact .quiet h rfl rfl fun _ hentry => hentry
  | account id data =>
    obtain ⟨w, hw, rfl⟩ := heffect
    exact .account h hw rfl fun _ => ⟨rfl, rfl⟩
  | returned id data =>
    obtain ⟨w, hw, rfl⟩ := heffect
    refine .account h hw rfl ?_
    intro hfinalized
    rw [hop.2 w hw] at hfinalized
    cases hfinalized
  | writerFailed name error =>
    obtain rfl : s' = _ := heffect
    split
    · refine .quiet h rfl rfl ?_
      intro j hentry
      simp only [Bundle.poison, Dict.get?_set] at hentry
      grind
    · exact .quiet h rfl rfl fun _ hentry => hentry
  | writerFinalized name descriptor =>
    obtain ⟨id, w, hw, rfl, hchild, htold⟩ := hop
    simp only [Effect] at heffect
    split at heffect
    · obtain ⟨_, rfl⟩ := heffect
      exact .finalize hsound h hw hchild htold
    · obtain ⟨_, rfl⟩ := heffect
      exact .quiet h rfl rfl fun _ hentry => hentry
  | checkPreconditions =>
    obtain ⟨_, rfl⟩ := heffect
    exact .quiet h rfl rfl fun _ hentry => hentry
  | terminate =>
    simp only [Effect] at heffect
    split at heffect
    · obtain ⟨_, rfl⟩ := heffect
      exact .quiet h rfl rfl fun _ hentry => hentry
    · obtain ⟨_, rfl⟩ := heffect
      exact .quiet h rfl rfl fun _ hentry => hentry
  | publishManifest manifest encoded =>
    simp only [Effect] at heffect
    split at heffect
    · obtain ⟨_, rfl⟩ := heffect
      exact .quiet h rfl rfl fun _ hentry => hentry
    · obtain rfl | ⟨_, rfl⟩ := heffect
      · exact .publishManifest h (attempt_publisher hsound' hguar rfl rfl) manifest _
      · exact .quiet h rfl rfl fun _ hentry => hentry

/-! ## What a thread knows of its writers -/

def both (E : Environment P) (C : Clients T P) : Rules T (Bundle T) :=
  (rules E C).and (fileRules C)

/-- The publication as its threads are known to use it. -/
abbrev lawfulSystem (E : Environment P) (C : Clients T P) : System T (Bundle T) (Op T) Reply :=
  publicationSystem.within (rules E C)

/-- On each active writer that `t` uses, the writes of the last of the calls done so far have
returned, and no others. -/
def Progress (C : Clients T P) (t : T) (done : List (Action T P)) (s : Bundle T) : Prop :=
  ∀ id w, C.user id = t → s.objects id = some w → s.writers.get? w.name = some .active →
    ∃ before calls, done = before ++ calls ∧ w.returned = written id calls

section

variable {t : T} {s s' : Bundle T} {done : List (Action T P)} {id : WriterId T}
  {w : BundleArtifactWriter}

theorem stable_progress : Stable (both E C) t (Progress C t done) := by
  intro s s' hothers h id w huser hw hactive
  obtain ⟨_, _, u, hu, hguar, hfile⟩ := hothers
  have hguar : Guarantee C u s s' := hguar
  have hfile : FileGuarantee C u s s' := hfile
  cases hold : s.objects id with
  | none => exact ⟨done, [], (List.append_nil done).symm, hfile.opened id w hold hw⟩
  | some w₀ =>
    obtain ⟨hkept, hentry⟩ := hguar.objects id w₀ (by rw [huser]; exact hu.symm) hold
    rw [hkept] at hw
    cases hw
    exact h id w huser hold (hentry ▸ hactive)

/-- The step notes no write. -/
def Silent : Op T → Prop
  | .returned _ _ => False
  | _ => True

theorem Progress.congr (h : Progress C t done s) (hobjects : s'.objects = s.objects)
    (hwriters : s'.writers = s.writers) : Progress C t done s' := by
  intro id w huser hw hactive
  rw [hobjects] at hw
  rw [hwriters] at hactive
  exact h id w huser hw hactive

/-- Entries only become inactive, notes stay, and new writers have none. -/
theorem Progress.keep (h : Progress C t done s)
    (hkeep : ∀ id w, s'.objects id = some w → s'.writers.get? w.name = some .active →
      w.returned = [] ∨ ∃ w₀, s.objects id = some w₀ ∧ w₀.returned = w.returned ∧
        s.writers.get? w₀.name = some .active) :
    Progress C t done s' := by
  intro id w huser hw hactive
  obtain hnil | ⟨w₀, hw₀, hreturned, hactive₀⟩ := hkeep id w hw hactive
  · exact ⟨done, [], (List.append_nil done).symm, hnil⟩
  · rw [← hreturned]
    exact h id w₀ huser hw₀ hactive₀

/-- A step of `t` itself. -/
theorem Progress.effect {op : Op T} {r : Reply op} (h : Progress C t done s)
    (hsound : Sound E s) (hsilent : Silent op) (heffect : Effect s t op r s') :
    Progress C t done s' := by
  cases op with
  | reserve name =>
    obtain ⟨_, _, rfl⟩ | ⟨_, _, hname, rfl⟩ := reserve_cases heffect
    · exact h
    · refine h.keep ?_
      intro id w hw hactive
      have hne : w.name ≠ name := fun heq => hsound.entered id w hw (heq ▸ hname)
      simp only [Bundle.setOpening, Dict.get?_set, if_neg hne] at hactive
      exact .inr ⟨w, hw, rfl, hactive⟩
  | openExclusiveBinary name =>
    obtain ⟨_, _, rfl⟩ | ⟨_, rfl⟩ := heffect
    · exact h.congr rfl rfl
    · exact h
  | creationFailed name =>
    obtain rfl : s' = _ := heffect
    refine h.keep ?_
    intro id w hw hactive
    simp only [Bundle.setOpening, Bundle.poison, Dict.get?_set] at hactive hw
    grind
  | admitWriter id name =>
    simp only [Effect] at heffect
    split at heffect
    · obtain ⟨_, rfl⟩ := heffect
      refine h.keep ?_
      intro id w hw hactive
      simp only [Bundle.setOpening, Dict.get?_erase] at hactive hw
      grind
    · obtain ⟨_, rfl⟩ := heffect
      refine h.keep ?_
      have hnil : (BundleArtifactWriter.create name).returned = [] := rfl
      intro id' w hw hactive
      simp only [Bundle.setOpening, Bundle.setObject, Function.update_apply] at hactive hw
      grind
  | writer id =>
    obtain ⟨_, rfl⟩ := heffect
    exact h
  | requireActiveWriter name =>
    obtain ⟨_, rfl⟩ := heffect
    exact h
  | handleWrite id data =>
    obtain ⟨w₀, n, m, hw₀, _, _, rfl⟩ := heffect
    refine h.keep ?_
    intro id' w hw hactive
    simp only [Bundle.setChild, Bundle.setObject, Function.update_apply] at hactive hw
    grind
  | handleFlush id =>
    obtain ⟨w₀, m, _, rfl, _⟩ := heffect
    exact h.congr rfl rfl
  | handleClose id =>
    obtain rfl : s' = s := heffect
    exact h
  | account id data =>
    obtain ⟨w₀, hw₀, rfl⟩ := heffect
    refine h.keep ?_
    intro id' w hw hactive
    simp only [Bundle.setObject, Function.update_apply] at hactive hw
    grind
  | returned id data => exact hsilent.elim
  | writerFailed name error =>
    obtain rfl : s' = _ := heffect
    split
    · refine h.keep ?_
      intro id w hw hactive
      simp only [Bundle.poison, Dict.get?_set] at hactive hw
      grind
    · exact h
  | writerFinalized name descriptor =>
    simp only [Effect] at heffect
    split at heffect
    · obtain ⟨_, rfl⟩ := heffect
      refine h.keep ?_
      intro id w hw hactive
      simp only [Dict.get?_set] at hactive hw
      grind
    · obtain ⟨_, rfl⟩ := heffect
      exact h
  | checkPreconditions =>
    obtain ⟨_, rfl⟩ := heffect
    exact h
  | terminate =>
    simp only [Effect] at heffect
    split at heffect
    · obtain ⟨_, rfl⟩ := heffect
      exact h
    · obtain ⟨_, rfl⟩ := heffect
      exact h.congr rfl rfl
  | publishManifest manifest encoded =>
    simp only [Effect] at heffect
    split at heffect
    · obtain ⟨_, rfl⟩ := heffect
      exact h.congr rfl rfl
    · obtain rfl | ⟨_, rfl⟩ := heffect
      · exact h.congr rfl rfl
      · exact h.congr rfl rfl

/-- One step of `t` on top of the rules: what it knows of its writers stays. -/
theorem file_step {ε α : Type} {op : Op T} {k : Reply op → Script T ε α}
    {Q : Except ε α → Bundle T → Prop} {A : Bundle T → Prop} (hA : Stable (both E C) t A)
    (hprogress : Progress C t done s) (hs : A s) (hsilent : Silent op)
    (hop : ∀ s, A s → FilePermitted C t s op)
    (h : ∀ s r s', Sound E s → A s → Effect s t op r s' → Sound E s' ∧ Filed C s' →
      Progress C t done s' → wp (lawfulSystem E C) (both E C) t (k r) Q s') :
    wp (lawfulSystem E C) (both E C) t (.exec op k) Q s := by
  refine wp_within (stable_progress.and hA) ⟨hprogress, hs⟩ ?_
  intro s r s' hsound hfiled ha heffect hsound' hguar
  have hkept := effect_filed hsound hfiled (hop s ha.2) heffect hsound' hguar
  exact ⟨hkept.1, hkept.2, h s r s' hsound ha.2 heffect ⟨hsound', hkept.1⟩
    (ha.1.effect hsound hsilent heffect)⟩

theorem stable_true : Stable (both E C) t (fun _ => True) := fun _ _ _ _ => trivial

/-- The call is over. -/
theorem file_end {ε α : Type} {out : Except ε α} (h : Progress C t done s) :
    wp (lawfulSystem E C) (both E C) t (Prog.ofExcept out)
      (fun _ => Progress C t done) s := by
  cases out with
  | ok a => exact wp_pure stable_progress h fun _ _ h => h
  | error e => exact wp_fail stable_progress h fun _ _ h => h

/-! ## The calls -/

theorem stable_opening {name : ArtifactName} :
    Stable (both E C) t (fun s => s.opening t = some name) := by
  intro s s' hothers hs
  obtain ⟨_, _, u, hu, hguar, _⟩ := hothers
  have hguar : Guarantee C u s s' := hguar
  exact (hguar.opening t hu.symm).trans hs

theorem stable_present {name : String} :
    Stable (both E C) t (fun s => s.children name ≠ none) := by
  intro s s' hothers hs
  obtain ⟨_, _, u, _, _, hfile⟩ := hothers
  have hfile : FileGuarantee C u s s' := hfile
  exact hfile.present name hs

theorem file_openArtifact {index : Nat} {name : String} (h : Progress C t done s) :
    wp (lawfulSystem E C) (both E C) t (openArtifact E ⟨t, index⟩ name)
      (fun _ => Progress C t done) s := by
  unfold openArtifact
  split
  · refine file_step stable_true h trivial trivial (fun _ _ => trivial) ?_
    intro s r s' _ _ heffect _ h
    obtain ⟨e, rfl, rfl⟩ | ⟨rfl, _, _, rfl⟩ := reserve_cases heffect
    · exact @file_end _ _ _ E C _ _ _ _ _ (.error e) h
    refine file_step stable_opening h (Function.update_self ..) trivial (fun _ _ => trivial) ?_
    intro s r s' _ hopening heffect _ h
    obtain ⟨rfl, _, rfl⟩ | ⟨rfl, rfl⟩ := heffect
    · refine file_step (stable_opening.and stable_present) h ⟨hopening, ?_⟩ trivial
        (fun _ ha => ha) ?_
      · simp [Bundle.setChild]
      · intro s r s' _ _ _ _ h
        exact file_end h
    · refine file_step stable_true h trivial trivial (fun _ _ => trivial) ?_
      intro s r s' _ _ _ _ h
      exact @file_end _ _ _ E C _ _ _ _ _ (.error _) h
  · exact @file_end _ _ _ E C _ _ _ _ _ (.error _) h

/-! ### Writing -/

/-- The call on `id` is over. -/
theorem Progress.finish {a : Action T P} (h : Progress C t done s)
    (ha : ∀ id', id' ≠ id → written id' [a] = [])
    (hid : ∀ w, s.objects id = some w → s.writers.get? w.name = some .active →
      ∃ before calls, done ++ [a] = before ++ calls ∧ w.returned = written id calls) :
    Progress C t (done ++ [a]) s := by
  intro id' w huser hw hactive
  by_cases heq : id' = id
  · subst heq
    exact hid w hw hactive
  · obtain ⟨before, calls, rfl, hreturned⟩ := h id' w huser hw hactive
    refine ⟨before, calls ++ [a], by rw [List.append_assoc], ?_⟩
    rw [written_append, ha id' heq, List.append_nil]
    exact hreturned

omit [DecidableEq T] in
/-- The user of an active writer may change its object. -/
theorem permitted_uses (huser : C.user id = t) {s : Bundle T} (huses : Uses id w (some .active) s) :
    C.user id = t ∧ ∀ w, s.objects id = some w → s.writers.get? w.name = some .active := by
  refine ⟨huser, ?_⟩
  intro w' hw'
  rw [huses.1] at hw'
  cases hw'
  exact huses.2

/-- The step that notes a write. -/
theorem Progress.noted {data : Bytes} {r : Reply (Op.returned id data)} (h : Progress C t done s)
    (huses : Uses id w (some .active) s) (heffect : Effect s t (.returned id data) r s') :
    Progress C t (done ++ [.write id data]) s' := by
  obtain ⟨w₀, hw₀, rfl⟩ := heffect
  rw [huses.1] at hw₀
  cases hw₀
  intro id' w' huser hw' hactive
  simp only [Bundle.setObject, Function.update_apply] at hw' hactive
  split at hw'
  · rename_i hid
    subst hid
    cases hw'
    obtain ⟨before, calls, rfl, hreturned⟩ := h id' w huser huses.1 huses.2
    refine ⟨before, calls ++ [.write id' data], by rw [List.append_assoc], ?_⟩
    simp [written_append, written, hreturned]
  · rename_i hid
    obtain ⟨before, calls, rfl, hreturned⟩ := h id' w' huser hw' hactive
    refine ⟨before, calls ++ [.write id data], by rw [List.append_assoc], ?_⟩
    simp [written_append, written, hreturned, Ne.symm hid]

/-- Whether all was taken or it failed in between, the writer is still active. -/
theorem file_writeAll (huser : C.user id = t) (data : Bytes) (h : Progress C t done s)
    (huses : Uses id w (some .active) s) :
    wp (lawfulSystem E C) (both E C) t (writeAll id data)
      (fun _ s => Progress C t done s ∧ ∃ part, Uses id (taking w part) (some .active) s) s := by
  induction data using writeAll.induct generalizing w s with
  | case1 =>
    rw [writeAll, if_pos rfl]
    exact wp_pure (stable_progress.and (stable_uses huser).of_left) ⟨h, huses⟩
      fun _ _ h => ⟨h.1, w.taken, h.2⟩
  | case2 data hdata ih =>
    rw [writeAll, if_neg hdata]
    refine file_step (stable_uses huser).of_left h huses trivial
      (fun _ huses => permitted_uses huser huses) ?_
    intro s r s' _ huses heffect _ h
    obtain ⟨w', n, m, hw', _, hr, rfl⟩ := heffect
    rw [huses.1] at hw'
    cases hw'
    have huses := huses.setObject (taking w (w.taken ++ data.take n)) rfl
    have hfail : wp (lawfulSystem E C) (both E C) t (.fail ()) (fun (_ : Except Unit Unit) s =>
        Progress C t done s ∧ ∃ part, Uses id (taking w part) (some .active) s) _ :=
      wp_fail (stable_progress.and (stable_uses huser).of_left) ⟨h, huses⟩
        fun _ _ h => ⟨h.1, _, h.2⟩
    obtain rfl | rfl := hr
    · by_cases hn : 0 < n ∧ data ≠ []
      · simp only [if_pos hn]
        have hrest := ih n hn h huses
        exact hrest
      · simp only [if_neg hn]
        exact hfail
    · exact hfail

/-- A failing writer is not active any more. -/
theorem file_writerFailed {α : Type} {error : BundleError} {a : Action T P}
    {Q : Except BundleError α → Bundle T → Prop} (huser : C.user id = t)
    (ha : ∀ id', id' ≠ id → written id' [a] = []) (h : Progress C t done s)
    (huses : Uses id w (some .active) s)
    (hended : ∀ s, Progress C t (done ++ [a]) s → Q (.error error) s) :
    wp (lawfulSystem E C) (both E C) t
      (.exec (.writerFailed w.name error) fun _ => (.fail error : Script T BundleError α)) Q s := by
  refine file_step (stable_uses huser).of_left h huses trivial (fun _ _ => trivial) ?_
  intro s r s' _ huses heffect _ h
  simp only [Effect, if_pos huses.2] at heffect
  subst heffect
  refine wp_fail stable_progress (h.finish ha ?_) fun s _ h => hended s h
  intro w' hw' hactive
  have hw : s.objects id = some w' := hw'
  rw [huses.1] at hw
  cases hw
  simp [Bundle.poison, Dict.get?_set] at hactive

/-- A writer that is not active is refused. -/
theorem file_refused {α : Type} {error : BundleError} {a : Action T P}
    {Q : Except BundleError α → Bundle T → Prop} {entry : Option WriterState}
    (ha : ∀ id', id' ≠ id → written id' [a] = []) (h : Progress C t done s)
    (huses : Uses id w entry s) (hentry : entry ≠ some .active)
    (hended : ∀ s, Progress C t (done ++ [a]) s → Q (.error error) s) :
    wp (lawfulSystem E C) (both E C) t (.fail error : Script T BundleError α) Q s := by
  refine wp_fail stable_progress (h.finish ha ?_) fun s _ h => hended s h
  intro w' hw' hactive
  rw [huses.1] at hw'
  cases hw'
  rw [huses.2] at hactive
  exact absurd hactive hentry

/-- What a write ends with: only its note is missing, or the writer is not active. -/
def Written (C : Clients T P) (t : T) (done : List (Action T P)) (id : WriterId T) (data : Bytes) :
    Except BundleError Unit → Bundle T → Prop
  | .ok _, s => Progress C t done s ∧ ∃ w, Uses id w (some .active) s
  | .error _, s => Progress C t (done ++ [.write id data]) s

theorem written_others (data : Bytes) :
    ∀ id', id' ≠ id → written id' [(.write id data : Action T P)] = [] :=
  fun _ hne => if_neg hne.symm

theorem file_write {data : Bytes} {entry : Option WriterState} (huser : C.user id = t)
    (h : Progress C t done s) (huses : Uses id w entry s) :
    wp (lawfulSystem E C) (both E C) t (write id w.name data) (Written C t done id data) s := by
  have hothers := @written_others T P _ id data
  refine file_step (stable_uses huser).of_left h huses trivial (fun _ _ => trivial) ?_
  intro s r s' _ huses heffect hinv h
  obtain ⟨rfl, rfl⟩ := heffect
  rw [huses.2]
  by_cases hentry : entry = some .active
  · subst hentry
    simp only [decide_true]
    show wp (lawfulSystem E C) (both E C) t ((writeAll id data).settle _) _ _
    refine wp_settle hinv (wp_mono ?_ (file_writeAll huser data h huses))
    intro out s _ hwritten
    obtain ⟨h, part, huses⟩ := hwritten
    cases out with
    | error _ =>
      refine file_step (stable_uses huser).of_left h huses trivial (fun _ _ => trivial) ?_
      intro s r s' _ huses heffect _ h
      obtain rfl : s' = s := heffect
      exact @file_writerFailed _ _ _ E C _ _ _ _ (taking w part) _ _ _ _ huser hothers h huses
        fun _ h => h
    | ok _ =>
      refine file_step (stable_uses huser).of_left h huses trivial (fun _ _ => trivial) ?_
      intro s r s' _ huses heffect _ h
      obtain ⟨w₁, hw₁, rfl⟩ := heffect
      rw [huses.1] at hw₁
      cases hw₁
      have huses := huses.setObject { taking w part with
        hashed := w.hashed ++ data, byteLength := w.byteLength + data.length } rfl
      exact wp_pure (stable_progress.and (stable_uses huser).of_left) ⟨h, huses⟩
        fun _ _ h => ⟨h.1, _, h.2⟩
  · simp only [decide_eq_false hentry]
    exact file_refused hothers h huses hentry fun _ h => h

/-- The caller notes a write that has returned. -/
theorem file_returned {data : Bytes} (huser : C.user id = t) (h : Progress C t done s)
    (huses : Uses id w (some .active) s) :
    wp (lawfulSystem E C) (both E C) t (.perform (Op.returned id data) : Script T BundleError Unit)
      (fun _ => Progress C t (done ++ [.write id data])) s := by
  refine wp_within (stable_progress.and (stable_uses huser).of_left) ⟨h, huses⟩ ?_
  intro s r s' hsound hfiled hs heffect hsound' hguar
  obtain ⟨h, huses⟩ := hs
  have hop : FilePermitted C t s (.returned id data) := permitted_uses huser huses
  have hkept : FileKept C t s s' := effect_filed (r := r) hsound hfiled hop heffect hsound' hguar
  refine ⟨hkept.1, hkept.2, ?_⟩
  exact wp_pure stable_progress (h.noted (r := r) huses heffect) fun _ _ h => h

/-! ### Finalizing -/

/-- The child holds all that its writer has taken. -/
def Flushed (id : WriterId T) (w : BundleArtifactWriter) (s : Bundle T) : Prop :=
  Uses id w (some .active) s ∧ s.children w.name.text = some w.taken

theorem stable_flushed (huser : C.user id = t) : Stable (both E C) t (Flushed id w) := by
  intro s s' hothers hs
  refine ⟨(stable_uses huser).of_left s s' hothers hs.1, ?_⟩
  obtain ⟨_, _, u, hu, _, hfile⟩ := hothers
  have hfile : FileGuarantee C u s s' := hfile
  exact (hfile.others id w (by rw [huser]; exact hu.symm) hs.1.1).trans hs.2

theorem file_finalize {entry : Option WriterState} {rest : List (Action T P)}
    (hactions : C.actions t = done ++ .finalize id :: rest) (huser : C.user id = t)
    (h : Progress C t done s) (huses : Uses id w entry s) :
    wp (lawfulSystem E C) (both E C) t (finalize E id w.name)
      (fun _ => Progress C t (done ++ [.finalize id])) s := by
  have hothers : ∀ id', id' ≠ id → written id' [(.finalize id : Action T P)] = [] :=
    fun _ _ => rfl
  refine file_step (stable_uses huser).of_left h huses trivial (fun _ _ => trivial) ?_
  intro s r s' _ huses heffect _ h
  obtain ⟨rfl, rfl⟩ := heffect
  rw [huses.2]
  by_cases hentry : entry = some .active
  · subst hentry
    obtain ⟨before, calls, hdone, hreturned⟩ := h id w huser huses.1 huses.2
    have htold : Told C id w := by
      refine ⟨before, calls, rest, ?_, hreturned⟩
      rw [huser, hactions, hdone]
    simp only [decide_true]
    refine file_step (stable_uses huser).of_left h huses trivial
      (fun _ huses => permitted_uses huser huses) ?_
    intro s flushed s' _ huses heffect _ h
    obtain ⟨w₁, m, hw₁, rfl, hflushed⟩ := heffect
    rw [huses.1] at hw₁
    cases hw₁
    have huses : Uses id w (some .active) (s.setChild w.name (w.taken.take m)) := huses
    have hfailed {s : Bundle T} (h : Progress C t done s)
        (huses : Uses id w (some .active) s) : wp (lawfulSystem E C) (both E C) t
        (.exec (.writerFailed w.name (.couldNotFinalize w.name.text)) fun _ =>
          .fail (.couldNotFinalize w.name.text)) (fun (_ : Except BundleError ArtifactDescriptor) =>
          Progress C t (done ++ [.finalize id])) s :=
      file_writerFailed huser hothers h huses fun _ h => h
    cases flushed with
    | false =>
      refine file_step (stable_uses huser).of_left h huses trivial (fun _ _ => trivial) ?_
      intro s closed s' _ huses heffect _ h
      obtain rfl : s' = s := heffect
      exact hfailed h huses
    | true =>
      have hchild : (s.setChild w.name (w.taken.take m)).children w.name.text = some w.taken := by
        simp [Bundle.setChild, List.take_of_length_le (hflushed rfl)]
      refine file_step (stable_flushed huser) h ⟨huses, hchild⟩ trivial (fun _ _ => trivial) ?_
      intro s closed s' _ hchild heffect _ h
      obtain rfl : s' = s := heffect
      cases closed with
      | false => exact hfailed h hchild.1
      | true =>
        refine file_step (stable_flushed huser) h hchild trivial (fun _ _ => trivial) ?_
        intro s r s' _ hchild heffect _ h
        obtain ⟨rfl, rfl⟩ := heffect
        rw [hchild.1.1]
        refine file_step (stable_flushed huser) h hchild trivial
          (fun _ hchild => ⟨id, w, hchild.1.1, rfl, hchild.2, htold⟩) ?_
        intro s r s' _ hchild heffect _ h
        simp only [Effect, if_pos hchild.1.2] at heffect
        obtain ⟨rfl, rfl⟩ := heffect
        refine @file_end _ _ _ E C _ _ _ _ _ (.ok _) (h.finish hothers ?_)
        intro w' hw' hactive
        have hw : s.objects id = some w' := hw'
        rw [hchild.1.1] at hw
        cases hw
        simp [Dict.get?_set] at hactive
  · simp only [decide_eq_false hentry]
    exact file_refused hothers h huses hentry fun _ h => h

/-! ### Publishing -/

/-- The manifest is there, and it is the one that `t` has tried. -/
structure Installed (t : T) (manifest : BundleManifest) (data : Bytes) (s : Bundle T) : Prop where
  state : s.state = .terminal
  publisher : s.publisher = some t
  attempts : s.attempts = [manifest]
  document : s.children manifestName = some data

theorem stable_installed {manifest : BundleManifest} {data : Bytes} :
    Stable (both E C) t (Installed t manifest data) := by
  intro s s' hothers hs
  obtain ⟨_, _, u, hu, hguar, hfile⟩ := hothers
  have hguar : Guarantee C u s s' := hguar
  have hfile : FileGuarantee C u s s' := hfile
  obtain ⟨_, hpublisher, hattempts⟩ := hguar.terminal hs.state
  have hne : s.publisher ≠ some u := by
    rw [hs.publisher]
    exact fun heq => hu (Option.some.inj heq).symm
  refine ⟨?_, hpublisher.trans hs.publisher, (hattempts hne).trans hs.attempts,
    (hfile.document hne).trans hs.document⟩
  rw [hguar.absorbing (by rw [hs.state]; decide), hs.state]

/-- What a `publish` that returns has left behind. -/
def Published (E : Environment P) (payload : P) (t : T) (s : Bundle T) : Prop :=
  ∃ validated manifest document data, E.validatePayload payload = some validated ∧
    manifest.payload = validated ∧ E.validateDocument manifest.dump = some document ∧
    E.encode document = some data ∧ Installed t manifest data s

/-- What `publish` ends with. -/
def PublishEnded (E : Environment P) (C : Clients T P) (payload : P) (t : T)
    (done : List (Action T P)) : Except BundleError Unit → Bundle T → Prop
  | .ok _, s => Progress C t done s ∧ Published E payload t s
  | .error _, s => Progress C t done s

theorem publish_raised {payload : P} {error : BundleError} (h : Progress C t done s) :
    wp (lawfulSystem E C) (both E C) t (.fail error) (PublishEnded E C payload t done) s :=
  wp_fail stable_progress h fun _ _ h => h

theorem file_encodeAndPublish {payload : P} {validated : Json}
    {descriptors : List ArtifactDescriptor} (hpayload : E.validatePayload payload = some validated)
    (h : Progress C t done s) (hsealed : Sealed t descriptors s) :
    wp (lawfulSystem E C) (both E C) t (encodeAndPublish E descriptors validated)
      (PublishEnded E C payload t done) s := by
  unfold encodeAndPublish
  split
  · rename_i hordered
    split
    · exact publish_raised h
    · rename_i document hdocument
      refine file_step stable_sealed.of_left h hsealed trivial (fun _ _ => trivial) ?_
      intro s r s' _ hsealed heffect _ h
      cases r with
      | error e => exact publish_raised h
      | ok _ =>
        simp only [Effect] at heffect
        split at heffect
        · cases heffect.1
        · rename_i data hencode
          obtain rfl | ⟨⟨e, he⟩, _⟩ := heffect
          · let manifest : BundleManifest := ⟨descriptors, validated, hordered⟩
            have hattempts : s.attempts ++ [manifest] = [manifest] := by
              rw [hsealed.attempts]
              rfl
            have hinstalled : Installed t manifest data ((s.attempt manifest).setDocument data) :=
              ⟨hsealed.state, hsealed.publisher, hattempts, by simp [Bundle.setDocument]⟩
            exact wp_pure (stable_progress.and stable_installed) ⟨h, hinstalled⟩ fun _ _ hs =>
              ⟨hs.1, validated, manifest, document, data, hpayload, rfl, hdocument, hencode, hs.2⟩
          · cases he
  · exact publish_raised h

theorem file_publish {payload : P} (h : Progress C t done s) :
    wp (lawfulSystem E C) (both E C) t (publish E payload) (PublishEnded E C payload t done) s := by
  refine file_step stable_true h trivial trivial (fun _ _ => trivial) ?_
  intro s r s' _ _ heffect _ h
  obtain ⟨_, rfl⟩ := heffect
  cases r with
  | error e => exact publish_raised h
  | ok _ =>
    cases hpayload : E.validatePayload payload with
    | none => exact publish_raised h
    | some validated =>
      refine file_step stable_true h trivial trivial (fun _ _ => trivial) ?_
      intro s r s' hsound _ heffect _ h
      simp only [Effect] at heffect
      split at heffect
      · obtain ⟨rfl, rfl⟩ := heffect
        exact publish_raised h
      · rename_i hcheck
        obtain ⟨rfl, rfl⟩ := heffect
        obtain ⟨hstate, _⟩ := checkPublishPreconditions_ok hcheck
        refine file_encodeAndPublish hpayload h ⟨rfl, rfl, ?_, rfl⟩
        exact hsound.no_attempts (by rw [hstate]; decide)

/-! ## Threads -/

/-- A call that writes nothing is over. -/
theorem Progress.next {a : Action T P} (h : Progress C t done s)
    (ha : ∀ id, written id [a] = []) : Progress C t (done ++ [a]) s := by
  intro id w huser hw hactive
  obtain ⟨before, calls, rfl, hreturned⟩ := h id w huser hw hactive
  refine ⟨before, calls ++ [a], by rw [List.append_assoc], ?_⟩
  rw [written_append, ha id, List.append_nil]
  exact hreturned

/-- The writer is not there, or nobody has used it yet. -/
def Unused (id : WriterId T) (s : Bundle T) : Prop := ∀ w, s.objects id = some w → w.returned = []

theorem stable_unused (huser : C.user id = t) : Stable (both E C) t (Unused id) := by
  intro s s' hothers hs w hw
  obtain ⟨_, _, u, hu, hguar, hfile⟩ := hothers
  have hguar : Guarantee C u s s' := hguar
  have hfile : FileGuarantee C u s s' := hfile
  cases hold : s.objects id with
  | none => exact hfile.opened id w hold hw
  | some w₀ =>
    rw [(hguar.objects id w₀ (by rw [huser]; exact hu.symm) hold).1] at hw
    cases hw
    exact hs w hold

/-- Nobody can use a writer that there is not. -/
theorem file_unused {a : Action T P} (huser : C.user id = t)
    (ha : ∀ id', id' ≠ id → written id' [a] = []) (h : Progress C t done s)
    (hnone : s.objects id = none) :
    wp (lawfulSystem E C) (both E C) t (.pure () : Script T BundleError Unit)
      (fun _ => Progress C t (done ++ [a])) s := by
  have hunused : Unused id s := by
    intro w hw
    rw [hnone] at hw
    cases hw
  refine wp_pure (stable_progress.and (stable_unused huser)) ⟨h, hunused⟩ ?_
  intro s' _ hs
  refine hs.1.finish ha ?_
  intro w hw _
  exact ⟨done ++ [a], [], (List.append_nil _).symm, hs.2 w hw⟩

theorem file_action {index : Nat} {action : Action T P} {rest : List (Action T P)}
    (hactions : C.actions t = done ++ action :: rest) (h : Progress C t done s) :
    wp (lawfulSystem E C) (both E C) t (action.script E t index)
      (fun _ => Progress C t (done ++ [action])) s := by
  have huser : ∀ id, action.writer? = some id → C.user id = t :=
    fun id => C.oneThread t action (by rw [hactions]; simp) id
  cases action with
  | openArtifact name =>
    exact wp_mono (fun _ _ _ h => h.next fun _ => rfl) (file_openArtifact h)
  | publish payload =>
    refine wp_mono ?_ (file_publish h)
    intro out s _ h
    cases out with
    | ok _ => exact h.1.next fun _ => rfl
    | error e => exact Progress.next h fun _ => rfl
  | write id data =>
    refine file_step stable_true h trivial trivial (fun _ _ => trivial) ?_
    intro s r s' _ _ heffect hinv h
    obtain ⟨rfl, rfl⟩ := heffect
    cases hw : s'.objects id with
    | none => exact file_unused (huser id rfl) (written_others data) h hw
    | some w =>
      refine wp_bind hinv (wp_mono ?_ (file_write (huser id rfl) h ⟨hw, rfl⟩))
      intro out s _ hwritten
      cases out with
      | ok _ =>
        obtain ⟨h, w', huses⟩ := hwritten
        exact file_returned (huser id rfl) h huses
      | error e => exact wp_fail stable_progress hwritten fun _ _ h => h
  | finalize id =>
    refine file_step stable_true h trivial trivial (fun _ _ => trivial) ?_
    intro s r s' _ _ heffect hinv h
    obtain ⟨rfl, rfl⟩ := heffect
    cases hw : s'.objects id with
    | none => exact file_unused (huser id rfl) (fun _ _ => rfl) h hw
    | some w =>
      refine wp_bind hinv (wp_mono ?_ (file_finalize hactions (huser id rfl) h ⟨hw, rfl⟩))
      intro out s _ h
      cases out with
      | ok _ => exact wp_pure stable_progress h fun _ _ h => h
      | error e => exact wp_fail stable_progress h fun _ _ h => h

theorem file_client {index : Nat} (actions : List (Action T P)) (hinv : (both E C).inv s)
    (hactions : C.actions t = done ++ actions) (h : Progress C t done s) :
    wp (lawfulSystem E C) (both E C) t (client E t index actions)
      (fun _ => Progress C t (C.actions t)) s := by
  induction actions generalizing index done s with
  | nil =>
    rw [hactions, List.append_nil]
    exact wp_pure stable_progress h fun _ _ h => h
  | cons action rest ih =>
    refine wp_settle hinv (wp_mono ?_ (file_action hactions h))
    intro _ s hinv h
    exact ih hinv (by rw [hactions, List.append_assoc]; rfl) h

end

/-! ## A publish that returns -/

/-- All threads make their calls, and `t` publishes after its own. -/
def publisherProgs (E : Environment P) (C : Clients T P) (t : T) (payload : P) (u : T) :
    Script T BundleError Unit :=
  if u = t then (client E t 0 (C.actions t)).settle fun _ => publish E payload
  else client E u 0 (C.actions u)

def PublisherRuns (E : Environment P) (C : Clients T P) (t : T) (payload : P) (c : Run T) : Prop :=
  Reachable publicationSystem Bundle.allocate (publisherProgs E C t payload) c

section

variable {t : T} {payload : P}

theorem wp_publisher (u : T) :
    wp publicationSystem (rules E C) u (publisherProgs E C t payload u) (fun _ _ => True)
      Bundle.allocate := by
  have hclient := wp_threads E C u
  unfold publisherProgs
  split
  · rename_i heq
    subst heq
    refine wp_settle (sound_allocate E) (wp_mono ?_ hclient)
    intro _ s _ hready
    obtain ⟨index, hready⟩ := hready
    exact wp_mono (fun _ _ _ _ => trivial) (wp_publish hready)
  · exact wp_mono (fun _ _ _ _ => trivial) hclient

theorem filed_allocate : Filed C (Bundle.allocate : Bundle T) := by
  refine ⟨?_, ?_⟩ <;> intro id w hw <;> cases hw

/-- What `u` ends with: the publisher that returned has published. -/
def Returned (E : Environment P) (t : T) (payload : P) (u : T) (out : Except BundleError Unit)
    (s : Bundle T) : Prop :=
  u = t → out = .ok () → Published E payload t s

theorem file_publisher (u : T) :
    wp (lawfulSystem E C) (both E C) u (publisherProgs E C t payload u) (Returned E t payload u)
      Bundle.allocate := by
  have hinv : (both E C).inv Bundle.allocate := ⟨sound_allocate E, filed_allocate⟩
  have hstart : Progress C u [] Bundle.allocate := by
    intro id w _ hw
    cases hw
  have hclient := @file_client _ _ _ E C _ _ [] 0 (C.actions u) hinv rfl hstart
  unfold publisherProgs
  split
  · rename_i heq
    subst heq
    refine wp_settle hinv (wp_mono ?_ hclient)
    intro _ s _ h
    refine wp_mono ?_ (file_publish h)
    intro out s _ hended _ hok
    subst hok
    exact hended.2
  · rename_i hne
    exact wp_mono (fun _ _ _ _ heq => absurd heq hne) hclient

theorem kill_files (E : Environment P) (C : Clients T P) : ∀ t s s', (both E C).inv s →
    (lawfulSystem E C).kill t s s' → (both E C).inv s' ∧ (both E C).guar t s s' := by
  intro t s s' hinv hkill
  obtain ⟨heq, hsound, hguar⟩ := hkill
  obtain rfl : s' = s := heq
  have hkept : FileKept C t s' s' := .quiet hinv.2 rfl rfl fun _ hentry => hentry
  exact ⟨⟨hsound, hkept.1⟩, hguar, hkept.2⟩

/-- **Once `publish` has returned**, the manifest it validated is in its place, and every finalized
writer's child holds what was written to it, whatever the other threads do by then. -/
theorem runs_published {c : Run T} (hc : PublisherRuns E C t payload c)
    (hreturned : c.prog t = some (.pure ())) :
    Sound E c.state ∧ Filed C c.state ∧ Published E payload t c.state := by
  have hlawful := reachable_within (sound_allocate E) (kill_keeps E C) wp_publisher hc
  obtain ⟨hinv, hthreads⟩ := reachable_wp (R := both E C) ⟨sound_allocate E, filed_allocate⟩
    (kill_files E C) file_publisher hlawful
  exact ⟨hinv.1, hinv.2, wp_ended hinv (.ok ()) (hthreads t _ hreturned) rfl rfl⟩

end

end DrStore.Bundles.Contents
