import DrStore.Bundles.Publication

/-! # Publication happens once, after every writer

The invariant relates the publication's state, the entry of every name, the writer objects and
the descriptors. A name belongs to the thread that is opening it, then to the thread that uses its
writer, so an entry changes only in steps of its owner. -/
namespace DrStore.Bundles.OneShot
open DrStore.Base.PyJson DrStore.Base.Collections DrStore.Base.Programs DrStore.Base.Pool
open DrStore.Documents.FileSystem DrStore.Bundles.Models DrStore.Bundles.Publication
open DrStore.Store.ContentAddressing

variable {T P : Type} (E : Environment P) (C : Clients T P)

/-- The descriptor of all that the writer's handle has taken. -/
def describe (w : BundleArtifactWriter) : ArtifactDescriptor :=
  ⟨w.name, E.sha256 w.taken, w.taken.length⟩

/-- The hasher and the counter have seen all that the handle has taken, and it has taken what the
writes that returned have written. -/
structure Coherent (w : BundleArtifactWriter) : Prop where
  hashed : w.hashed = w.taken
  byteLength : w.byteLength = w.taken.length
  taken : w.taken = w.returned.flatten

theorem Coherent.create (name : ArtifactName) : Coherent (.create name) := ⟨rfl, rfl, rfl⟩

structure Sound (s : Bundle T) : Prop where
  terminal : s.state = .terminal → ∀ name w, s.writers.get? name = some w → w = .finalized
  failed : ∀ name, s.writers.get? name = some .failed → s.state = .poisoned
  opening : ∀ t name, s.opening t = some name → s.writers.get? name = some .active ∧
    ∀ id w, s.objects id = some w → w.name ≠ name
  openers : ∀ t u name, s.opening t = some name → s.opening u = some name → t = u
  unique : ∀ id id' w w', s.objects id = some w → s.objects id' = some w' → w.name = w'.name →
    id = id'
  entered : ∀ id w, s.objects id = some w → s.writers.get? w.name ≠ none
  described : ∀ name d, s.descriptors.get? name = some d → s.writers.get? name = some .finalized ∧
    ∃ id w, s.objects id = some w ∧ w.name = name ∧ d = describe E w
  finalized : ∀ name, s.writers.get? name = some .finalized → s.descriptors.get? name ≠ none
  delivered : ∀ id w, s.objects id = some w → s.writers.get? w.name = some .finalized →
    w.taken = w.returned.flatten
  attempted : s.attempts ≠ [] → s.state = .terminal ∧
    ∃ m, s.attempts = [m] ∧ m.artifacts = sortedDescriptors s.descriptors
  publisher : s.state ≠ .terminal → s.publisher = none

/-- What a step of `t` leaves alone. -/
structure Guarantee (t : T) (s s' : Bundle T) : Prop where
  absorbing : s.state ≠ .open → s'.state = s.state
  opening : ∀ u, u ≠ t → s'.opening u = s.opening u
  objects : ∀ id w, C.user id ≠ t → s.objects id = some w →
    s'.objects id = some w ∧ s'.writers.get? w.name = s.writers.get? w.name
  opened : ∀ id w, s.objects id = none → s'.objects id = some w → id.opener = t ∧ Coherent w
  kept : ∀ id w, s.objects id = some w → ∃ w', s'.objects id = some w' ∧ w'.name = w.name
  terminal : s.state = .terminal → s'.descriptors = s.descriptors ∧ s'.publisher = s.publisher ∧
    (s.publisher ≠ some t → s'.attempts = s.attempts)

variable {E C}

namespace Sound

variable {s : Bundle T} {name : ArtifactName}

/-- While a writer is active the publication is not terminal. -/
theorem not_terminal (h : Sound E s) (hactive : s.writers.get? name = some .active) :
    s.state ≠ .terminal := by
  intro hterminal
  cases h.terminal hterminal name _ hactive

theorem no_attempts (h : Sound E s) (hstate : s.state ≠ .terminal) : s.attempts = [] := by
  by_contra hattempts
  exact hstate (h.attempted hattempts).1

end Sound

def Kept (E : Environment P) (C : Clients T P) (t : T) (s s' : Bundle T) : Prop :=
  Sound E s' ∧ Guarantee C t s s'

namespace Kept

variable {s : Bundle T} {t : T} {name : ArtifactName} {id : WriterId T} {w : BundleArtifactWriter}

theorem refl (h : Sound E s) : Kept E C t s s := by
  refine ⟨h, fun _ => rfl, fun _ _ => rfl, fun _ _ _ hw => ⟨hw, rfl⟩, ?_, ?_, ?_⟩
  · intro id w hnone hsome
    rw [hnone] at hsome
    cases hsome
  · exact fun id w hw => ⟨w, hw, rfl⟩
  · exact fun _ => ⟨rfl, rfl, fun _ => rfl⟩

/-- Files are no part of the rules. -/
theorem children {s' : Bundle T} (h : Kept E C t s s') (children : String → Option Bytes) :
    Kept E C t s { s' with children := children } := by
  obtain ⟨hs, hg⟩ := h
  exact ⟨⟨hs.terminal, hs.failed, hs.opening, hs.openers, hs.unique, hs.entered, hs.described,
    hs.finalized, hs.delivered, hs.attempted, hs.publisher⟩, ⟨hg.absorbing, hg.opening, hg.objects, hg.opened,
    hg.kept, hg.terminal⟩⟩

variable [DecidableEq T]

theorem reserve (h : Sound E s) (hstate : s.state = .open) (hname : s.writers.get? name = none) :
    Kept E C t s ({ s with writers := s.writers.set name .active }.setOpening t (some name)) := by
  have hfree : ∀ id w, s.objects id = some w → w.name ≠ name := by
    intro id w hw heq
    exact h.entered id w hw (heq ▸ hname)
  have hopening : ∀ u, s.opening u ≠ some name := by
    intro u hu
    have hactive := (h.opening u name hu).1
    rw [hname] at hactive
    cases hactive
  have hentry : ∀ j, (s.writers.set name .active).get? j =
      if j = name then some .active else s.writers.get? j := fun j => Dict.get?_set ..
  have hopener : ∀ u, Function.update s.opening t (some name) u =
      if u = t then some name else s.opening u := fun u => Function.update_apply ..
  refine ⟨⟨?_, ?_, ?_, ?_, h.unique, ?_, ?_, ?_, ?_, h.attempted, h.publisher⟩,
    ⟨?_, ?_, ?_, ?_, ?_, ?_⟩⟩ <;> simp only [Bundle.setOpening, hentry, hopener]
  · grind
  · grind [h.failed]
  · grind [h.opening]
  · grind [h.openers]
  · grind [h.entered]
  · grind [h.described]
  · grind [h.finalized]
  · grind [h.delivered]
  all_goals grind

/-- A name that is being opened fails. -/
theorem creationFailed {error : BundleError} (h : Sound E s) (hname : s.opening t = some name) :
    Kept E C t s ((s.poison name error).setOpening t none) := by
  obtain ⟨hactive, hfree⟩ := h.opening t name hname
  have hstate := h.not_terminal hactive
  have hattempts := h.no_attempts hstate
  have hentry : ∀ j, (s.writers.set name .failed).get? j =
      if j = name then some .failed else s.writers.get? j := fun j => Dict.get?_set ..
  have hopener : ∀ u, Function.update s.opening t none u =
      if u = t then none else s.opening u := fun u => Function.update_apply ..
  refine ⟨⟨?_, ?_, ?_, ?_, h.unique, ?_, ?_, ?_, ?_, ?_, ?_⟩, ⟨?_, ?_, ?_, ?_, ?_, ?_⟩⟩ <;>
    simp only [Bundle.setOpening, Bundle.poison, hentry, hopener]
  · grind
  · grind
  · grind [h.opening, h.openers]
  · grind [h.openers]
  · grind [h.entered]
  · grind [h.described]
  · grind [h.finalized]
  · grind [h.delivered]
  · grind
  · grind [h.publisher]
  · cases hs : s.state <;> grind
  all_goals grind

/-- A name that is being opened is dropped. -/
theorem drop (h : Sound E s) (hname : s.opening t = some name) :
    Kept E C t s ({ s with writers := s.writers.erase name }.setOpening t none) := by
  obtain ⟨hactive, hfree⟩ := h.opening t name hname
  have hstate := h.not_terminal hactive
  have hentry : ∀ j, (s.writers.erase name).get? j =
      if j = name then none else s.writers.get? j := fun j => Dict.get?_erase ..
  have hopener : ∀ u, Function.update s.opening t none u =
      if u = t then none else s.opening u := fun u => Function.update_apply ..
  refine ⟨⟨?_, ?_, ?_, ?_, h.unique, ?_, ?_, ?_, ?_, h.attempted, h.publisher⟩,
    ⟨?_, ?_, ?_, ?_, ?_, ?_⟩⟩ <;> simp only [Bundle.setOpening, hentry, hopener]
  · grind
  · grind [h.failed]
  · grind [h.opening, h.openers]
  · grind [h.openers]
  · grind [h.entered]
  · grind [h.described]
  · grind [h.finalized]
  · grind [h.delivered]
  all_goals grind

/-- A name that is being opened gets its writer. -/
theorem admitWriter (h : Sound E s) (hname : s.opening t = some name) (hid : s.objects id = none)
    (hopener : id.opener = t) :
    Kept E C t s ((s.setObject id (.create name)).setOpening t none) := by
  obtain ⟨hactive, hfree⟩ := h.opening t name hname
  have hobject : ∀ j, Function.update s.objects id (some (.create name)) j =
      if j = id then some (.create name) else s.objects j := fun j => Function.update_apply ..
  have hopener : ∀ u, Function.update s.opening t none u =
      if u = t then none else s.opening u := fun u => Function.update_apply ..
  have hname' : (BundleArtifactWriter.create name).name = name := rfl
  refine ⟨⟨h.terminal, h.failed, ?_, ?_, ?_, ?_, ?_, h.finalized, ?_, h.attempted, h.publisher⟩,
    ⟨?_, ?_, ?_, ?_, ?_, ?_⟩⟩ <;> simp only [Bundle.setOpening, Bundle.setObject, hobject, hopener]
  · grind [h.opening, h.openers]
  · grind [h.openers]
  · grind [h.unique]
  · grind [h.entered]
  · grind [h.described]
  · grind [h.delivered]
  · grind
  · grind
  · grind
  · grind [Coherent.create]
  · grind
  · grind

/-- An object changes and keeps its name; a finalized one keeps what its handle has taken and what
was noted of it. -/
theorem setObject {w' : BundleArtifactWriter} (h : Sound E s) (hw : s.objects id = some w)
    (huser : C.user id = t) (hname : w'.name = w.name)
    (hkept : s.writers.get? w.name = some .finalized →
      w'.taken = w.taken ∧ w'.returned = w.returned) :
    Kept E C t s (s.setObject id w') := by
  have hobject : ∀ j, Function.update s.objects id (some w') j =
      if j = id then some w' else s.objects j := fun j => Function.update_apply ..
  refine ⟨⟨h.terminal, h.failed, ?_, h.openers, ?_, ?_, ?_, h.finalized, ?_, h.attempted,
    h.publisher⟩, ⟨?_, ?_, ?_, ?_, ?_, ?_⟩⟩ <;> simp only [Bundle.setObject, hobject]
  · grind [h.opening]
  · grind [h.unique]
  · grind [h.entered]
  · grind [h.described, describe]
  · grind [h.delivered]
  all_goals grind

/-- The object of an active writer changes. -/
theorem setActive {w' : BundleArtifactWriter} (h : Sound E s) (hw : s.objects id = some w)
    (huser : C.user id = t) (hname : w'.name = w.name)
    (hactive : s.writers.get? w.name = some .active) : Kept E C t s (s.setObject id w') := by
  refine .setObject h hw huser hname ?_
  intro hfinalized
  rw [hactive] at hfinalized
  cases hfinalized

omit [DecidableEq T] in
/-- A writer's entry goes from active to failed. -/
theorem poison {error : BundleError} (h : Sound E s) (hw : s.objects id = some w)
    (huser : C.user id = t) (hactive : s.writers.get? w.name = some .active) :
    Kept E C t s (s.poison w.name error) := by
  have hstate := h.not_terminal hactive
  have hattempts := h.no_attempts hstate
  have hentry : ∀ j, (s.writers.set w.name .failed).get? j =
      if j = w.name then some .failed else s.writers.get? j := fun j => Dict.get?_set ..
  refine ⟨⟨?_, ?_, ?_, h.openers, h.unique, ?_, ?_, ?_, ?_, ?_, ?_⟩, ⟨?_, ?_, ?_, ?_, ?_, ?_⟩⟩ <;>
    simp only [Bundle.poison, hentry]
  · grind
  · grind
  · grind [h.opening]
  · grind [h.entered]
  · grind [h.described]
  · grind [h.finalized]
  · grind [h.delivered]
  · grind
  · grind [h.publisher]
  · cases hs : s.state <;> grind
  · grind
  · grind [h.unique]
  all_goals grind

omit [DecidableEq T] in
/-- A writer's entry goes from active to finalized, with its descriptor. -/
theorem finalize (h : Sound E s) (hw : s.objects id = some w) (huser : C.user id = t)
    (hactive : s.writers.get? w.name = some .active) (htaken : w.taken = w.returned.flatten) :
    Kept E C t s { s with
      descriptors := s.descriptors.set w.name (describe E w)
      writers := s.writers.set w.name .finalized } := by
  have hstate := h.not_terminal hactive
  have hattempts := h.no_attempts hstate
  have hentry : ∀ j, (s.writers.set w.name .finalized).get? j =
      if j = w.name then some .finalized else s.writers.get? j := fun j => Dict.get?_set ..
  have hdescriptor : ∀ j, (s.descriptors.set w.name (describe E w)).get? j =
      if j = w.name then some (describe E w) else s.descriptors.get? j := fun j => Dict.get?_set ..
  refine ⟨⟨?_, ?_, ?_, h.openers, h.unique, ?_, ?_, ?_, ?_, ?_, h.publisher⟩,
    ⟨?_, ?_, ?_, ?_, ?_, ?_⟩⟩ <;> simp only [hentry, hdescriptor]
  · grind
  · grind [h.failed]
  · grind [h.opening]
  · grind [h.entered]
  · grind [h.described]
  · grind [h.finalized]
  · grind [h.delivered, h.unique]
  · grind
  · grind
  · grind
  · grind [h.unique]
  all_goals grind

omit [DecidableEq T] in
theorem attempt {manifest : BundleManifest} (h : Sound E s) (hstate : s.state = .terminal)
    (hpublisher : s.publisher = some t) (hattempts : s.attempts = [])
    (hartifacts : manifest.artifacts = sortedDescriptors s.descriptors) :
    Kept E C t s (s.attempt manifest) := by
  refine ⟨⟨h.terminal, h.failed, h.opening, h.openers, h.unique, h.entered, h.described,
    h.finalized, h.delivered, ?_, h.publisher⟩, ⟨?_, ?_, ?_, ?_, ?_, ?_⟩⟩ <;>
    simp only [Bundle.attempt]
  · intro _
    exact ⟨hstate, manifest, by rw [hattempts]; rfl, hartifacts⟩
  all_goals grind

omit [DecidableEq T] in
theorem terminate (h : Sound E s) (hstate : s.state = .open)
    (hactive : ∀ name, s.writers.get? name ≠ some .active) :
    Kept E C t s { s with state := .terminal, publisher := some t } := by
  refine ⟨⟨?_, ?_, h.opening, h.openers, h.unique, h.entered, h.described, h.finalized,
    h.delivered, ?_, ?_⟩, ⟨?_, ?_, ?_, ?_, ?_, ?_⟩⟩
  · intro _ name w hw
    cases w with
    | active => exact absurd hw (hactive name)
    | finalized => rfl
    | failed =>
      have hpoisoned := h.failed name hw
      rw [hstate] at hpoisoned
      cases hpoisoned
  · intro name hfailed
    have hpoisoned := h.failed name hfailed
    rw [hstate] at hpoisoned
    cases hpoisoned
  · intro hattempts
    exact absurd (h.no_attempts (by rw [hstate]; decide)) hattempts
  all_goals grind

end Kept

theorem requireOpenForAdmission_ok {s : Bundle T} {r : Unit}
    (h : s.requireOpenForAdmission = .ok r) : s.state = .open := by
  unfold Bundle.requireOpenForAdmission at h
  split at h
  · cases h
  · cases h
  · assumption

theorem checkPublishPreconditions_ok {s : Bundle T} {r : Unit}
    (h : s.checkPublishPreconditions = .ok r) :
    s.state = .open ∧ ∀ name, s.writers.get? name ≠ some .active := by
  unfold Bundle.checkPublishPreconditions at h
  split at h
  · cases h
  · cases h
  · rename_i hstate
    split at h
    · cases h
    · rename_i hactive
      refine ⟨hstate, ?_⟩
      intro name hname
      refine hactive (List.any_eq_true.mpr ⟨.active, ?_, by simp⟩)
      exact List.mem_map.mpr ⟨(name, .active), Dict.get?_eq_some.mp hname, rfl⟩

variable [DecidableEq T]

theorem reserve_cases {t : T} {s s' : Bundle T} {name : ArtifactName} {r : Except BundleError Unit}
    (h : Effect s t (.reserve name) r s') : (∃ e, r = .error e ∧ s' = s) ∨
      (r = .ok () ∧ s.state = .open ∧ s.writers.get? name = none ∧
        s' = { s with writers := s.writers.set name .active }.setOpening t (some name)) := by
  simp only [Effect] at h
  split at h
  · exact .inl ⟨_, h⟩
  · rename_i hadmission
    split at h
    · exact .inl ⟨_, h⟩
    · rename_i hname
      have hnone : s.writers.get? name = none := by simpa [Dict.contains] using hname
      exact .inr ⟨h.1, requireOpenForAdmission_ok hadmission, hnone, h.2⟩

/-- The steps that a thread may take, on the state it takes them in. -/
def Permitted (E : Environment P) (C : Clients T P) (t : T) (s : Bundle T) : Op T → Prop
  | .creationFailed name => s.opening t = some name
  | .admitWriter id name => s.opening t = some name ∧ id.opener = t ∧ s.objects id = none
  | .handleWrite id _ | .returned id _ => C.user id = t ∧
      ∀ w, s.objects id = some w → s.writers.get? w.name = some .active
  | .account id _ => C.user id = t
  | .writerFailed name _ => ∃ id w, C.user id = t ∧ s.objects id = some w ∧ w.name = name
  | .writerFinalized name descriptor => ∃ id w, C.user id = t ∧ s.objects id = some w ∧
      w.name = name ∧ descriptor = describe E w ∧ w.taken = w.returned.flatten
  | .publishManifest manifest _ => s.state = .terminal ∧ s.publisher = some t ∧ s.attempts = [] ∧
      manifest.artifacts = sortedDescriptors s.descriptors
  | _ => True

/-- **A permitted step keeps the invariant and the guarantee, whatever it answers.** -/
theorem effect_kept {t : T} {s s' : Bundle T} {op : Op T} {r : Reply op} (h : Sound E s)
    (hop : Permitted E C t s op) (heffect : Effect s t op r s') : Kept E C t s s' := by
  cases op with
  | reserve name =>
    obtain ⟨_, _, rfl⟩ | ⟨_, hstate, hname, rfl⟩ := reserve_cases heffect
    · exact .refl h
    · exact .reserve h hstate hname
  | openExclusiveBinary name =>
    obtain ⟨_, _, rfl⟩ | ⟨_, rfl⟩ := heffect
    · exact (Kept.refl h).children _
    · exact .refl h
  | creationFailed name =>
    obtain rfl : s' = _ := heffect
    exact .creationFailed h hop
  | admitWriter id name =>
    obtain ⟨hname, hopener, hid⟩ := hop
    simp only [Effect] at heffect
    split at heffect
    · obtain ⟨_, rfl⟩ := heffect
      exact .drop h hname
    · obtain ⟨_, rfl⟩ := heffect
      exact .admitWriter h hname hid hopener
  | writer id =>
    obtain ⟨_, rfl⟩ := heffect
    exact .refl h
  | requireActiveWriter name =>
    obtain ⟨_, rfl⟩ := heffect
    exact .refl h
  | handleWrite id data =>
    obtain ⟨w, n, m, hw, _, _, rfl⟩ := heffect
    have hset : Kept E C t s (s.setObject id { w with taken := w.taken ++ data.take n }) :=
      .setActive h hw hop.1 rfl (hop.2 w hw)
    exact hset.children _
  | handleFlush id =>
    obtain ⟨w, m, _, rfl, _⟩ := heffect
    exact (Kept.refl h).children _
  | handleClose id =>
    obtain rfl : s' = s := heffect
    exact .refl h
  | account id data =>
    obtain ⟨w, hw, rfl⟩ := heffect
    exact .setObject h hw hop rfl fun _ => ⟨rfl, rfl⟩
  | returned id data =>
    obtain ⟨w, hw, rfl⟩ := heffect
    exact .setActive h hw hop.1 rfl (hop.2 w hw)
  | writerFailed name error =>
    obtain ⟨id, w, huser, hw, rfl⟩ := hop
    obtain rfl : s' = _ := heffect
    split
    · rename_i hactive
      exact .poison h hw huser hactive
    · exact .refl h
  | writerFinalized name descriptor =>
    obtain ⟨id, w, huser, hw, rfl, rfl, htaken⟩ := hop
    simp only [Effect] at heffect
    split at heffect
    · rename_i hactive
      obtain ⟨_, rfl⟩ := heffect
      exact .finalize h hw huser hactive htaken
    · obtain ⟨_, rfl⟩ := heffect
      exact .refl h
  | checkPreconditions =>
    obtain ⟨_, rfl⟩ := heffect
    exact .refl h
  | terminate =>
    simp only [Effect] at heffect
    split at heffect
    · obtain ⟨_, rfl⟩ := heffect
      exact .refl h
    · rename_i hcheck
      obtain ⟨hstate, hactive⟩ := checkPublishPreconditions_ok hcheck
      obtain ⟨_, rfl⟩ := heffect
      exact .terminate h hstate hactive
  | publishManifest manifest encoded =>
    obtain ⟨hstate, hpublisher, hattempts, hartifacts⟩ := hop
    have hattempt : Kept E C t s (s.attempt manifest) :=
      .attempt h hstate hpublisher hattempts hartifacts
    simp only [Effect] at heffect
    split at heffect
    · obtain ⟨_, rfl⟩ := heffect
      exact hattempt
    · obtain rfl | ⟨_, rfl⟩ := heffect
      · exact hattempt.children _
      · exact hattempt

/-! ## Rules -/

def rules (E : Environment P) (C : Clients T P) : Rules T (Bundle T) where
  inv := Sound E
  guar := Guarantee C

/-- One step of `t`: an assertion that the others keep allows it, and what follows is right after
any of its effects. -/
theorem wp_step {ε α : Type} {t : T} {s : Bundle T} {op : Op T} {k : Reply op → Script T ε α}
    {Q : Except ε α → Bundle T → Prop} {A : Bundle T → Prop} (hA : Stable (rules E C) t A)
    (hs : A s) (hop : ∀ s, A s → Permitted E C t s op)
    (h : ∀ s r s', Sound E s → A s → Effect s t op r s' → Kept E C t s s' →
      wp publicationSystem (rules E C) t (k r) Q s') :
    wp publicationSystem (rules E C) t (.exec op k) Q s := by
  refine wp_exec hA hs ?_
  intro s' r s'' hinv ha heffect
  have hkept := effect_kept hinv (hop s' ha) heffect
  exact ⟨hkept.1, hkept.2, h s' r s'' hinv ha heffect hkept⟩

/-- What `t` knows of itself: the name that it is opening, that its next writers are not there
yet, and that each writer it uses, but the one it is busy with, is coherent or inactive. -/
structure Ready (C : Clients T P) (t : T) (index : Nat) (name? : Option ArtifactName)
    (busy : Option (WriterId T)) (s : Bundle T) : Prop where
  opening : s.opening t = name?
  ahead : ∀ id : WriterId T, id.opener = t → index ≤ id.index → s.objects id = none
  coherent : ∀ id w, C.user id = t → busy ≠ some id → s.objects id = some w → Coherent w ∨
    s.writers.get? w.name ≠ some .active

/-- The writer that `t` is busy with. -/
def Uses (id : WriterId T) (w : BundleArtifactWriter) (entry : Option WriterState) (s : Bundle T) :
    Prop :=
  s.objects id = some w ∧ s.writers.get? w.name = entry

section Stability

variable {t : T} {index : Nat} {name? : Option ArtifactName} {busy : Option (WriterId T)}
  {id : WriterId T} {w : BundleArtifactWriter}

omit [DecidableEq T] in
theorem stable_ready : Stable (rules E C) t (Ready C t index name? busy) := by
  rintro s s' ⟨_, _, u, hu, hg⟩ h
  have hg : Guarantee C u s s' := hg
  refine ⟨(hg.opening t hu.symm).trans h.opening, ?_, ?_⟩
  · intro id hid hindex
    cases hw : s'.objects id with
    | none => rfl
    | some w =>
      have hopener := (hg.opened id w (h.ahead id hid hindex) hw).1
      exact absurd (hid.symm.trans hopener) hu.symm
  · intro id w huser hbusy hw
    cases hold : s.objects id with
    | none => exact .inl (hg.opened id w hold hw).2
    | some w₀ =>
      obtain ⟨hkept, hentry⟩ := hg.objects id w₀ (by rw [huser]; exact hu.symm) hold
      rw [hkept] at hw
      cases hw
      rw [hentry]
      exact h.coherent id w huser hbusy hold

omit [DecidableEq T] in
theorem stable_uses {entry : Option WriterState} (huser : C.user id = t) :
    Stable (rules E C) t (Uses id w entry) := by
  rintro s s' ⟨_, _, u, hu, hg⟩ ⟨hw, hentry⟩
  have hg : Guarantee C u s s' := hg
  obtain ⟨hkept, hsame⟩ := hg.objects id w (by rw [huser]; exact hu.symm) hw
  exact ⟨hkept, hsame.trans hentry⟩

omit [DecidableEq T] in
theorem Ready.children {s : Bundle T} (h : Ready C t index name? busy s)
    (children : String → Option Bytes) :
    Ready C t index name? busy { s with children := children } :=
  ⟨h.opening, h.ahead, h.coherent⟩

omit [DecidableEq T] in
theorem Ready.next {s : Bundle T} (h : Ready C t index name? busy s) :
    Ready C t (index + 1) name? busy s :=
  ⟨h.opening, fun id hid hindex => h.ahead id hid (by omega), h.coherent⟩

end Stability

/-! ## Opening -/

section Opening

variable {t : T} {s : Bundle T} {index : Nat}

theorem ready_reserve {name : ArtifactName} (hinv : Sound E s)
    (hready : Ready C t index none none s) (hname : s.writers.get? name = none) :
    Ready C t index (some name) none
      ({ s with writers := s.writers.set name .active }.setOpening t (some name)) := by
  refine ⟨Function.update_self .., hready.ahead, ?_⟩
  intro id w huser hbusy hw
  have hne : w.name ≠ name := by
    intro heq
    exact hinv.entered id w hw (heq ▸ hname)
  have hentry : (s.writers.set name .active).get? w.name =
      if w.name = name then some .active else s.writers.get? w.name := Dict.get?_set ..
  rw [if_neg hne] at hentry
  simp only [Bundle.setOpening, hentry]
  exact hready.coherent id w huser hbusy hw

/-- The second section: the writer is there, or the name is dropped. -/
theorem ready_admitWriter {name : ArtifactName} {r : Except BundleError Unit} {s' : Bundle T}
    (hready : Ready C t index (some name) none s) (h : Effect s t (.admitWriter ⟨t, index⟩ name) r s') :
    Ready C t (index + 1) none none s' := by
  simp only [Effect] at h
  split at h
  · obtain ⟨_, rfl⟩ := h
    have hentry : ∀ j, (s.writers.erase name).get? j =
        if j = name then none else s.writers.get? j := fun j => Dict.get?_erase ..
    refine ⟨Function.update_self .., hready.next.ahead, ?_⟩
    intro id w huser hbusy hw
    simp only [Bundle.setOpening, hentry]
    split
    · exact .inr (by simp)
    · exact hready.coherent id w huser hbusy hw
  · obtain ⟨_, rfl⟩ := h
    refine ⟨Function.update_self .., ?_, ?_⟩
    · intro id hid hindex
      have hne : id ≠ ⟨t, index⟩ := by
        intro heq
        rw [heq] at hindex
        exact Nat.lt_irrefl _ hindex
      exact (Function.update_of_ne hne _ _).trans (hready.next.ahead id hid hindex)
    · intro id w huser hbusy hw
      by_cases hid : id = ⟨t, index⟩
      · subst hid
        simp only [Bundle.setOpening, Bundle.setObject, Function.update_self, Option.some.injEq] at hw
        subst hw
        exact .inl (.create name)
      · exact hready.coherent id w huser hbusy ((Function.update_of_ne hid _ _).symm.trans hw)

theorem ready_creationFailed {name : ArtifactName} {error : BundleError}
    (hready : Ready C t index (some name) none s) :
    Ready C t (index + 1) none none ((s.poison name error).setOpening t none) := by
  refine ⟨Function.update_self .., hready.next.ahead, ?_⟩
  intro id w huser hbusy hw
  have hentry : (s.writers.set name .failed).get? w.name =
      if w.name = name then some .failed else s.writers.get? w.name := Dict.get?_set ..
  simp only [Bundle.setOpening, Bundle.poison, hentry]
  split
  · exact .inr (by simp)
  · exact hready.coherent id w huser hbusy hw

theorem wp_openArtifact {name : String} (hready : Ready C t index none none s) :
    wp publicationSystem (rules E C) t (openArtifact E ⟨t, index⟩ name)
      (fun _ => Ready C t (index + 1) none none) s := by
  have hend {out : Except BundleError Unit} {s : Bundle T} (h : Ready C t (index + 1) none none s) :
      wp publicationSystem (rules E C) t (Prog.ofExcept out)
        (fun _ => Ready C t (index + 1) none none) s := by
    cases out with
    | ok _ => exact wp_pure stable_ready h fun _ _ h => h
    | error e => exact wp_fail stable_ready h fun _ _ h => h
  unfold openArtifact
  split
  · rename_i hname
    refine wp_step stable_ready hready (fun _ _ => trivial) ?_
    intro s r s' hinv hready heffect _
    obtain ⟨e, rfl, rfl⟩ | ⟨rfl, _, hnone, rfl⟩ := reserve_cases heffect
    · exact @hend (.error e) _ hready.next
    refine wp_step stable_ready (ready_reserve hinv hready hnone) (fun _ _ => trivial) ?_
    intro s r s' _ hready heffect _
    obtain ⟨rfl, _, rfl⟩ | ⟨rfl, rfl⟩ := heffect
    · refine wp_step stable_ready (hready.children _) (fun s h => ⟨h.opening, rfl, h.ahead _ rfl le_rfl⟩) ?_
      intro s r s' _ hready heffect _
      exact hend (ready_admitWriter hready heffect)
    · refine wp_step stable_ready hready (fun s h => h.opening) ?_
      intro s r s' _ hready heffect _
      obtain rfl : s' = _ := heffect
      exact @hend (.error (.couldNotCreate name)) _ (ready_creationFailed hready)
  · exact @hend (.error (.invalidName name)) s hready.next

end Opening

/-! ## Writing -/

section Writing

variable {t : T} {s : Bundle T} {index : Nat} {id : WriterId T} {w : BundleArtifactWriter}

omit [DecidableEq T] in
theorem Ready.begin (h : Ready C t index none none s) : Ready C t index none (some id) s :=
  ⟨h.opening, h.ahead, fun id' w huser _ hw => h.coherent id' w huser (by simp) hw⟩

omit [DecidableEq T] in
theorem Ready.done {entry : Option WriterState} (h : Ready C t index none (some id) s)
    (huses : Uses id w entry s) (hw : Coherent w ∨ entry ≠ some .active) :
    Ready C t index none none s := by
  refine ⟨h.opening, h.ahead, ?_⟩
  intro id' w' huser _ hw'
  by_cases hid : id = id'
  · subst hid
    rw [huses.1] at hw'
    cases hw'
    rw [huses.2]
    exact hw
  · exact h.coherent id' w' huser (fun heq => hid (Option.some.inj heq)) hw'

theorem Ready.setObject (h : Ready C t index none (some id) s) (hw : s.objects id = some w)
    (w' : BundleArtifactWriter) : Ready C t index none (some id) (s.setObject id w') := by
  refine ⟨h.opening, ?_, ?_⟩
  · intro id' hopener hindex
    have hne : id' ≠ id := by
      intro heq
      have hnone := h.ahead id' hopener hindex
      rw [heq, hw] at hnone
      cases hnone
    exact (Function.update_of_ne hne _ _).trans (h.ahead id' hopener hindex)
  · intro id' w₁ huser hbusy hw₁
    have hne : id' ≠ id := fun heq => hbusy (congrArg some heq.symm)
    exact h.coherent id' w₁ huser hbusy ((Function.update_of_ne hne _ _).symm.trans hw₁)

theorem Uses.setObject {entry : Option WriterState} (h : Uses id w entry s)
    (w' : BundleArtifactWriter) (hname : w'.name = w.name) : Uses id w' entry (s.setObject id w') := by
  refine ⟨Function.update_self .., ?_⟩
  rw [hname]
  exact h.2

/-- The writer with what its handle has taken by now. -/
def taking (w : BundleArtifactWriter) (taken : Bytes) : BundleArtifactWriter :=
  { w with taken := taken }

/-- What the loop ends with: all is taken, or it failed in between. -/
def Looped (C : Clients T P) (t : T) (index : Nat) (id : WriterId T) (w : BundleArtifactWriter)
    (taken : Bytes) : Except Unit Unit → Bundle T → Prop
  | .ok _, s => Ready C t index none (some id) s ∧ Uses id (taking w taken) (some .active) s
  | .error _, s => Ready C t index none (some id) s ∧
      ∃ part, Uses id (taking w part) (some .active) s

theorem wp_writeAll (huser : C.user id = t) (data : Bytes) {taken : Bytes}
    (hready : Ready C t index none (some id) s) (huses : Uses id (taking w taken) (some .active) s) :
    wp publicationSystem (rules E C) t (writeAll id data)
      (Looped C t index id w (taken ++ data)) s := by
  induction data using writeAll.induct generalizing taken s with
  | case1 =>
    rw [writeAll, if_pos rfl, List.append_nil]
    exact wp_pure (stable_ready.and (stable_uses huser)) ⟨hready, huses⟩ fun _ _ h => h
  | case2 data hdata ih =>
    rw [writeAll, if_neg hdata]
    refine wp_step (stable_ready.and (stable_uses huser)) ⟨hready, huses⟩ ?_ ?_
    · intro s hs
      refine ⟨huser, ?_⟩
      intro w' hw'
      rw [hs.2.1] at hw'
      cases hw'
      exact hs.2.2
    · intro s r s' _ hs heffect _
      obtain ⟨w', n, m, hw', _, hr, rfl⟩ := heffect
      obtain ⟨hready, huses⟩ := hs
      rw [huses.1] at hw'
      cases hw'
      have hready := (hready.setObject huses.1 (taking w (taken ++ data.take n))).children
        (Function.update s.children w.name.text (some ((taken ++ data.take n).take m)))
      have huses := huses.setObject (taking w (taken ++ data.take n)) rfl
      have hfail : wp publicationSystem (rules E C) t (.fail ())
          (Looped C t index id w (taken ++ data)) _ :=
        wp_fail (stable_ready.and (stable_uses huser)) ⟨hready, huses⟩
          fun _ _ h => ⟨h.1, _, h.2⟩
      obtain rfl | rfl := hr
      · by_cases hn : 0 < n ∧ data ≠ []
        · simp only [if_pos hn]
          have hrest := ih n hn hready huses
          rwa [List.append_assoc, List.take_append_drop] at hrest
        · simp only [if_neg hn]
          exact hfail
      · exact hfail

omit [DecidableEq T] in
/-- The entry of the writer is closed, one way or the other. -/
theorem Ready.close {s' : Bundle T} {entry : WriterState} (h : Ready C t index none (some id) s)
    (huses : Uses id w (some .active) s) (hobjects : s'.objects = s.objects)
    (hopening : s'.opening = s.opening) (hclosed : entry ≠ .active)
    (hentry : s'.writers = s.writers.set w.name entry) : Ready C t index none none s' := by
  have hget : ∀ j, s'.writers.get? j = if j = w.name then some entry else s.writers.get? j := by
    intro j
    rw [hentry, Dict.get?_set]
  have hready : Ready C t index none (some id) s' := by
    refine ⟨hopening ▸ h.opening, hobjects ▸ h.ahead, ?_⟩
    intro id' w' huser hbusy hw'
    rw [hget]
    split
    · exact .inr fun heq => hclosed (Option.some.inj heq)
    · exact h.coherent id' w' huser hbusy (hobjects ▸ hw')
  have huses : Uses id w (some entry) s' := ⟨hobjects ▸ huses.1, (hget w.name).trans (if_pos rfl)⟩
  exact hready.done huses (.inr fun heq => hclosed (Option.some.inj heq))

/-- A failing writer poisons the publication and raises. -/
theorem wp_writerFailed {α : Type} {error : BundleError} {Q : Except BundleError α → Bundle T → Prop}
    (huser : C.user id = t) (hready : Ready C t index none (some id) s)
    (huses : Uses id w (some .active) s)
    (hended : ∀ s, Ready C t index none none s → Q (.error error) s) :
    wp publicationSystem (rules E C) t
      (.exec (.writerFailed w.name error) fun _ => (.fail error : Script T BundleError α)) Q s := by
  refine wp_step (stable_ready.and (stable_uses huser)) ⟨hready, huses⟩
    (fun _ h => ⟨id, w, huser, h.2.1, rfl⟩) ?_
  intro s r s' _ hs heffect _
  obtain ⟨hready, huses⟩ := hs
  simp only [Effect, if_pos huses.2] at heffect
  subst heffect
  exact wp_fail stable_ready (hready.close huses rfl rfl (by decide) rfl) fun s _ h => hended s h

/-- The writer once a write is over. -/
def accounted (w : BundleArtifactWriter) (data : Bytes) : BundleArtifactWriter :=
  { w with
    hashed := w.hashed ++ data
    byteLength := w.byteLength + data.length
    taken := w.taken ++ data }

/-- The writer once its caller has noted the write. -/
def noted (w : BundleArtifactWriter) (data : Bytes) : BundleArtifactWriter :=
  { w with returned := w.returned ++ [data] }

theorem Coherent.write (h : Coherent w) (data : Bytes) : Coherent (noted (accounted w data) data) where
  hashed := congrArg (· ++ data) h.hashed
  byteLength := by simp [noted, accounted, h.byteLength]
  taken := by simp [noted, accounted, h.taken]

/-- What a write ends with: all is taken and accounted for, or the writer is not active. -/
def WriteEnded (C : Clients T P) (t : T) (index : Nat) (id : WriterId T) (w : BundleArtifactWriter)
    (data : Bytes) : Except BundleError Unit → Bundle T → Prop
  | .ok _, s => Coherent w ∧ Ready C t index none (some id) s ∧
      Uses id (accounted w data) (some .active) s
  | .error _, s => Ready C t index none none s

theorem wp_write {data : Bytes} {entry : Option WriterState}
    (huser : C.user id = t) (hready : Ready C t index none none s) (huses : Uses id w entry s) :
    wp publicationSystem (rules E C) t (write id w.name data)
      (WriteEnded C t index id w data) s := by
  refine wp_step (stable_ready.and (stable_uses huser)) ⟨hready, huses⟩ (fun _ _ => trivial) ?_
  intro s r s' hinv hs heffect _
  obtain ⟨hready, huses⟩ := hs
  obtain ⟨rfl, rfl⟩ := heffect
  rw [huses.2]
  by_cases hentry : entry = some .active
  · subst hentry
    have hcoherent : Coherent w := by
      rcases hready.coherent id w huser (by simp) huses.1 with h | h
      · exact h
      · exact absurd huses.2 h
    simp only [decide_true]
    show wp publicationSystem (rules E C) t ((writeAll id data).settle _) _ _
    refine wp_settle hinv (wp_mono ?_ (wp_writeAll huser data hready.begin huses))
    intro out s _ hlooped
    cases out with
    | error _ =>
      obtain ⟨hready, part, huses⟩ := hlooped
      refine wp_step (stable_ready.and (stable_uses huser)) ⟨hready, huses⟩ (fun _ _ => trivial) ?_
      intro s r s' _ hs heffect _
      obtain rfl : s' = s := heffect
      exact @wp_writerFailed T P E C _ t s' index id (taking w part) Unit _ _ huser hs.1 hs.2
        fun _ h => h
    | ok _ =>
      obtain ⟨hready, huses⟩ := hlooped
      refine wp_step (stable_ready.and (stable_uses huser)) ⟨hready, huses⟩ (fun _ _ => huser) ?_
      intro s r s' _ hs heffect _
      obtain ⟨hready, huses⟩ := hs
      obtain ⟨w', hw', rfl⟩ := heffect
      rw [huses.1] at hw'
      cases hw'
      exact wp_pure (stable_ready.and (stable_uses huser))
        ⟨hready.setObject huses.1 _, huses.setObject (accounted w data) rfl⟩
        fun _ _ h => ⟨hcoherent, h⟩
  · simp only [decide_eq_false hentry]
    exact wp_fail stable_ready hready fun _ _ h => h

/-- The caller notes a write that has returned. -/
theorem wp_returned {data : Bytes} (huser : C.user id = t) (hw : Coherent w)
    (hready : Ready C t index none (some id) s)
    (huses : Uses id (accounted w data) (some .active) s) :
    wp publicationSystem (rules E C) t (.perform (Op.returned id data) : Script T BundleError Unit)
      (fun _ => Ready C t index none none) s := by
  refine wp_step (stable_ready.and (stable_uses huser)) ⟨hready, huses⟩ ?_ ?_
  · intro s hs
    refine ⟨huser, ?_⟩
    intro w' hw'
    rw [hs.2.1] at hw'
    cases hw'
    exact hs.2.2
  · intro s r s' _ hs heffect _
    obtain ⟨hready, huses⟩ := hs
    obtain ⟨w', hw', rfl⟩ := heffect
    rw [huses.1] at hw'
    cases hw'
    have hready := (hready.setObject huses.1 (noted (accounted w data) data)).done
      (huses.setObject _ rfl) (.inl (hw.write data))
    exact wp_pure stable_ready hready fun _ _ h => h

theorem wp_finalize {entry : Option WriterState} (huser : C.user id = t)
    (hready : Ready C t index none none s) (huses : Uses id w entry s) :
    wp publicationSystem (rules E C) t (finalize E id w.name)
      (fun _ => Ready C t index none none) s := by
  refine wp_step (stable_ready.and (stable_uses huser)) ⟨hready, huses⟩ (fun _ _ => trivial) ?_
  intro s r s' _ hs heffect _
  obtain ⟨hready, huses⟩ := hs
  obtain ⟨rfl, rfl⟩ := heffect
  rw [huses.2]
  by_cases hentry : entry = some .active
  · subst hentry
    have hcoherent : Coherent w := by
      rcases hready.coherent id w huser (by simp) huses.1 with h | h
      · exact h
      · exact absurd huses.2 h
    simp only [decide_true]
    refine wp_step (stable_ready.and (stable_uses huser)) ⟨hready, huses⟩ (fun _ _ => trivial) ?_
    intro s flushed s' _ hs heffect _
    obtain ⟨hready, huses⟩ := hs
    obtain ⟨w', m, _, rfl, _⟩ := heffect
    have huses : Uses id w (some .active) (s.setChild w'.name (w'.taken.take m)) := huses
    refine wp_step (stable_ready.and (stable_uses huser)) ⟨hready.children _, huses⟩
      (fun _ _ => trivial) ?_
    intro s closed s' _ hs heffect _
    obtain ⟨hready, huses⟩ := hs
    obtain rfl : s' = s := heffect
    have hfailed : wp publicationSystem (rules E C) t (.exec (.writerFailed w.name
        (.couldNotFinalize w.name.text)) fun _ => .fail (.couldNotFinalize w.name.text))
        (fun (_ : Except BundleError ArtifactDescriptor) => Ready C t index none none) s' :=
      wp_writerFailed huser hready.begin huses fun _ h => h
    match flushed, closed with
    | false, _ => exact hfailed
    | true, false => exact hfailed
    | true, true =>
      refine wp_step (stable_ready.and (stable_uses huser)) ⟨hready, huses⟩ (fun _ _ => trivial) ?_
      intro s r s' _ hs heffect _
      obtain ⟨hready, huses⟩ := hs
      obtain ⟨rfl, rfl⟩ := heffect
      rw [huses.1]
      have hdescribe : (⟨w.name, E.sha256 w.hashed, w.byteLength⟩ : ArtifactDescriptor) =
          describe E w := by
        rw [hcoherent.hashed, hcoherent.byteLength, describe]
      refine wp_step (stable_ready.and (stable_uses huser)) ⟨hready, huses⟩
        (fun _ h => ⟨id, w, huser, h.2.1, rfl, hdescribe, hcoherent.taken⟩) ?_
      intro s r s' _ hs heffect _
      obtain ⟨hready, huses⟩ := hs
      simp only [Effect, if_pos huses.2] at heffect
      obtain ⟨rfl, rfl⟩ := heffect
      exact wp_pure stable_ready (hready.begin.close huses rfl rfl (by decide) rfl) fun _ _ h => h
  · simp only [decide_eq_false hentry]
    exact wp_fail stable_ready hready fun _ _ h => h

end Writing

/-! ## Publishing -/

/-- `t` has made the publication terminal and not tried the manifest yet. -/
structure Sealed (t : T) (descriptors : List ArtifactDescriptor) (s : Bundle T) : Prop where
  state : s.state = .terminal
  publisher : s.publisher = some t
  attempts : s.attempts = []
  descriptors : descriptors = sortedDescriptors s.descriptors

section Publishing

variable {t : T} {s : Bundle T} {index : Nat}

omit [DecidableEq T] in
theorem stable_sealed {descriptors : List ArtifactDescriptor} :
    Stable (rules E C) t (Sealed t descriptors) := by
  rintro s s' ⟨_, _, u, hu, hg⟩ h
  have hg : Guarantee C u s s' := hg
  obtain ⟨hdescriptors, hpublisher, hattempts⟩ := hg.terminal h.state
  have hne : s.publisher ≠ some u := by
    rw [h.publisher]
    exact fun heq => hu (Option.some.inj heq).symm
  refine ⟨?_, hpublisher.trans h.publisher, (hattempts hne).trans h.attempts, ?_⟩
  · rw [hg.absorbing (by rw [h.state]; decide), h.state]
  · rw [hdescriptors]
    exact h.descriptors

theorem wp_end {out : Except BundleError Unit} (h : Ready C t index none none s) :
    wp publicationSystem (rules E C) t (Prog.ofExcept out)
      (fun _ => Ready C t index none none) s := by
  cases out with
  | ok _ => exact wp_pure stable_ready h fun _ _ h => h
  | error e => exact wp_fail stable_ready h fun _ _ h => h

theorem wp_encodeAndPublish {descriptors : List ArtifactDescriptor} {payload : Json}
    (hready : Ready C t index none none s) (hsealed : Sealed t descriptors s) :
    wp publicationSystem (rules E C) t (encodeAndPublish E descriptors payload)
      (fun _ => Ready C t index none none) s := by
  unfold encodeAndPublish
  split
  · split
    · exact @wp_end T P E C _ t s index (.error _) hready
    · refine wp_step (stable_ready.and stable_sealed) ⟨hready, hsealed⟩ ?_ ?_
      · exact fun s h => ⟨h.2.state, h.2.publisher, h.2.attempts, h.2.descriptors⟩
      · intro s r s' _ hs heffect _
        have hready : Ready C t index none none s' := by
          obtain ⟨hready, _⟩ := hs
          simp only [Effect] at heffect
          split at heffect
          · obtain ⟨_, rfl⟩ := heffect
            exact ⟨hready.opening, hready.ahead, hready.coherent⟩
          · obtain rfl | ⟨_, rfl⟩ := heffect
            · exact ⟨hready.opening, hready.ahead, hready.coherent⟩
            · exact ⟨hready.opening, hready.ahead, hready.coherent⟩
        cases r with
        | ok _ => exact @wp_end T P E C _ t s' index (.ok _) hready
        | error e => exact @wp_end T P E C _ t s' index (.error _) hready
  · exact @wp_end T P E C _ t s index (.error _) hready

theorem wp_publish {payload : P} (hready : Ready C t index none none s) :
    wp publicationSystem (rules E C) t (publish E payload)
      (fun _ => Ready C t index none none) s := by
  refine wp_step stable_ready hready (fun _ _ => trivial) ?_
  intro s r s' _ hready heffect _
  obtain ⟨_, rfl⟩ := heffect
  cases r with
  | error e => exact @wp_end T P E C _ t s' index (.error e) hready
  | ok _ =>
    cases E.validatePayload payload with
    | none => exact @wp_end T P E C _ t s' index (.error _) hready
    | some validated =>
      refine wp_step stable_ready hready (fun _ _ => trivial) ?_
      intro s r s' hinv hready heffect _
      simp only [Effect] at heffect
      split at heffect
      · obtain ⟨rfl, rfl⟩ := heffect
        exact @wp_end T P E C _ t s' index (.error _) hready
      · rename_i hcheck
        obtain ⟨rfl, rfl⟩ := heffect
        obtain ⟨hstate, _⟩ := checkPublishPreconditions_ok hcheck
        refine wp_encodeAndPublish ⟨hready.opening, hready.ahead, hready.coherent⟩ ⟨rfl, rfl, ?_, rfl⟩
        exact hinv.no_attempts (by rw [hstate]; decide)

end Publishing

/-! ## Threads -/

section Threads

variable {t : T} {s : Bundle T} {index : Nat}

theorem wp_action {action : Action T P} (huser : ∀ id, action.writer? = some id → C.user id = t)
    (hready : Ready C t index none none s) :
    wp publicationSystem (rules E C) t (action.script E t index)
      (fun _ => Ready C t (index + 1) none none) s := by
  cases action with
  | openArtifact name => exact wp_openArtifact hready
  | publish payload => exact wp_mono (fun _ _ _ h => h.next) (wp_publish hready)
  | write id data =>
    refine wp_step stable_ready hready (fun _ _ => trivial) ?_
    intro s r s' _ hready heffect hkept
    obtain ⟨rfl, rfl⟩ := heffect
    cases hw : s'.objects id with
    | none => exact wp_pure stable_ready hready.next fun _ _ h => h
    | some w =>
      refine wp_bind hkept.1 (wp_mono ?_ (wp_write (huser id rfl) hready ⟨hw, rfl⟩))
      intro out s _ h
      cases out with
      | ok _ => exact wp_mono (fun _ _ _ h => h.next) (wp_returned (huser id rfl) h.1 h.2.1 h.2.2)
      | error e => exact wp_fail stable_ready h.next fun _ _ h => h
  | finalize id =>
    refine wp_step stable_ready hready (fun _ _ => trivial) ?_
    intro s r s' _ hready heffect hkept
    obtain ⟨rfl, rfl⟩ := heffect
    cases hw : s'.objects id with
    | none => exact wp_pure stable_ready hready.next fun _ _ h => h
    | some w =>
      refine wp_bind hkept.1 (wp_mono ?_ (wp_finalize (huser id rfl) hready ⟨hw, rfl⟩))
      intro out s _ h
      cases out with
      | ok _ => exact wp_pure stable_ready h.next fun _ _ h => h
      | error e => exact wp_fail stable_ready h.next fun _ _ h => h

theorem wp_client (actions : List (Action T P))
    (huser : ∀ a ∈ actions, ∀ id, a.writer? = some id → C.user id = t) (hinv : Sound E s)
    (hready : Ready C t index none none s) :
    wp publicationSystem (rules E C) t (client E t index actions)
      (fun _ s => ∃ index', Ready C t index' none none s) s := by
  induction actions generalizing index s with
  | nil => exact wp_pure stable_ready hready fun _ _ h => ⟨index, h⟩
  | cons action rest ih =>
    refine wp_settle hinv (wp_mono ?_ (wp_action (huser action (.head _)) hready))
    intro _ s hinv hready
    exact ih (fun a ha => huser a (.tail _ ha)) hinv hready

end Threads

/-! ## Every run -/

abbrev Run (T : Type) := Config T (Bundle T) (Op T) Reply BundleError Unit

/-- The threads' runs on a fresh publication. -/
def Runs (E : Environment P) (C : Clients T P) (c : Run T) : Prop :=
  Reachable publicationSystem Bundle.allocate (fun t => client E t 0 (C.actions t)) c

omit [DecidableEq T] in
theorem sound_allocate (E : Environment P) : Sound E (Bundle.allocate : Bundle T) := by
  refine ⟨?_, ?_, ?_, ?_, ?_, ?_, ?_, ?_, ?_, ?_, ?_⟩ <;> simp [Bundle.allocate]

theorem wp_threads (E : Environment P) (C : Clients T P) (t : T) :
    wp publicationSystem (rules E C) t (client E t 0 (C.actions t))
      (fun _ s => ∃ index, Ready C t index none none s) Bundle.allocate :=
  wp_client (C.actions t) (C.oneThread t) (sound_allocate E)
    ⟨rfl, fun _ _ _ => rfl, fun _ _ _ _ hw => by cases hw⟩

theorem kill_keeps (E : Environment P) (C : Clients T P) : ∀ t s s', (rules E C).inv s →
    publicationSystem.kill t s s' → (rules E C).inv s' ∧ (rules E C).guar t s s' := by
  rintro t s s' hinv rfl
  exact Kept.refl hinv

theorem runs_sound {c : Run T} (hc : Runs E C c) : Sound E c.state :=
  (reachable_wp (sound_allocate E) (kill_keeps E C) (wp_threads E C) hc).1

/-- A state that is not open stays. -/
theorem runs_absorbing {c c' : Run T} (hc : Runs E C c)
    (hsteps : Relation.ReflTransGen (Step publicationSystem) c c') (hstate : c.state.state ≠ .open) :
    c'.state.state = c.state.state := by
  have hguar := reachable_guar (sound_allocate E) (kill_keeps E C) (wp_threads E C) hc hsteps
  generalize c'.state = s' at hguar ⊢
  induction hguar with
  | refl => rfl
  | tail _ hstep ih =>
    obtain ⟨t, hg⟩ := hstep
    have hg : Guarantee C t _ _ := hg
    exact (hg.absorbing (by rw [ih]; exact hstate)).trans ih

theorem mem_sortedDescriptors {d : Dict ArtifactName ArtifactDescriptor}
    {descriptor : ArtifactDescriptor} :
    descriptor ∈ sortedDescriptors d ↔ ∃ name, d.get? name = some descriptor := by
  simp only [sortedDescriptors, List.mem_filterMap, List.mem_mergeSort]
  refine ⟨fun ⟨name, _, h⟩ => ⟨name, h⟩, fun ⟨name, h⟩ => ⟨name, ?_, h⟩⟩
  by_contra hname
  rw [Dict.get?_eq_none.mpr hname] at h
  cases h

omit [DecidableEq T] in
/-- The descriptors are those of the finalized writers. -/
theorem Sound.mem_descriptors {s : Bundle T} (h : Sound E s) {d : ArtifactDescriptor} :
    d ∈ sortedDescriptors s.descriptors ↔ ∃ id w, s.objects id = some w ∧
      s.writers.get? w.name = some .finalized ∧ d = describe E w := by
  rw [mem_sortedDescriptors]
  constructor
  · rintro ⟨name, hname⟩
    obtain ⟨hfinalized, id, w, hw, rfl, hd⟩ := h.described name d hname
    exact ⟨id, w, hw, hfinalized, hd⟩
  · rintro ⟨id, w, hw, hfinalized, rfl⟩
    obtain ⟨d, hd⟩ := Option.ne_none_iff_exists'.mp (h.finalized w.name hfinalized)
    obtain ⟨_, id', w', hw', hname, hdescribe⟩ := h.described w.name d hd
    obtain rfl := h.unique id id' w w' hw hw' hname.symm
    rw [hw] at hw'
    cases hw'
    exact ⟨w.name, hdescribe ▸ hd⟩

/-- Every path of the program that ends so takes only steps that leave the state as it is. -/
def Harmless {ε α : Type} (p : Script T ε α) (ends : Except ε α → Prop) : Prop :=
  p.ensures (fun clean op r clean' => clean' = (clean ∧ ∀ s t s', Effect s t op r s' → s' = s))
    (fun out clean => ends out → clean) True

def IsRefusal (out : Except BundleError Unit) : Prop := ∃ detail, out = .error (refusal detail)

theorem publish_refusal (payload : P) :
    Harmless (publish E payload : Script T BundleError Unit) IsRefusal := by
  rintro r _ rfl
  have hcheck : ∀ (s : Bundle T) t s', Effect s t .checkPreconditions r s' → s' = s :=
    fun s t s' h => h.2
  cases r with
  | error e => exact fun _ => ⟨trivial, hcheck⟩
  | ok _ =>
    cases E.validatePayload payload with
    | none => exact fun _ => ⟨trivial, hcheck⟩
    | some validated =>
      rintro r _ rfl
      cases r with
      | error e =>
        refine fun _ => ⟨⟨trivial, hcheck⟩, ?_⟩
        intro s t s' h
        simp only [Effect] at h
        split at h
        · exact h.2
        · cases h.1
      | ok descriptors =>
        show Prog.ensures _ (encodeAndPublish E descriptors validated) _ _
        unfold encodeAndPublish
        split
        · split
          · rintro ⟨detail, h⟩
            cases h
          · rintro r _ rfl
            cases r with
            | ok _ =>
              rintro ⟨detail, h⟩
              cases h
            | error e =>
              rintro ⟨detail, h⟩
              obtain ⟨stage, replacementState⟩ := e
              cases stage <;> cases h
        · rintro ⟨detail, h⟩
          cases h

/-- **One shot.** In every run, whatever fails and however the sections interleave: a poisoned or
terminal publication stays so; a terminal one has only finalized writers, and none is reached after
a failed writer; one manifest is tried at most, with the descriptors of all finalized writers in
strictly increasing name order; what those have taken is the data of the writes that returned; no
name has two writers; and a refused `publish` changes nothing. -/
theorem publication_one_shot (E : Environment P) (C : Clients T P) (c : Run T) (hc : Runs E C c) :
    (c.state.state ≠ .open → ∀ c', Relation.ReflTransGen (Step publicationSystem) c c' →
      c'.state.state = c.state.state) ∧
    (c.state.state = .terminal → ∀ name w, c.state.writers.get? name = some w → w = .finalized) ∧
    (∀ name, c.state.writers.get? name = some .failed →
      ∀ c', Relation.ReflTransGen (Step publicationSystem) c c' → c'.state.state ≠ .terminal) ∧
    (c.state.attempts.length ≤ 1 ∧ ∀ m ∈ c.state.attempts, Ordered m.artifacts ∧
      ∀ d, d ∈ m.artifacts ↔ ∃ id w, c.state.objects id = some w ∧
        c.state.writers.get? w.name = some .finalized ∧ d = describe E w) ∧
    (∀ id w, c.state.objects id = some w → c.state.writers.get? w.name = some .finalized →
      w.taken = w.returned.flatten) ∧
    (∀ id id' w w', c.state.objects id = some w → c.state.objects id' = some w' →
      w.name = w'.name → id = id') ∧
    (∀ payload, Harmless (publish E payload : Script T BundleError Unit) IsRefusal) := by
  have hsound := runs_sound hc
  refine ⟨fun hstate c' hsteps => runs_absorbing hc hsteps hstate, hsound.terminal, ?_, ?_,
    hsound.delivered, hsound.unique, publish_refusal⟩
  · intro name hfailed c' hsteps
    have hpoisoned := hsound.failed name hfailed
    rw [runs_absorbing hc hsteps (by rw [hpoisoned]; decide), hpoisoned]
    decide
  · by_cases hattempts : c.state.attempts = []
    · rw [hattempts]
      exact ⟨Nat.zero_le 1, fun m hm => by cases hm⟩
    · obtain ⟨_, m, hm, hartifacts⟩ := hsound.attempted hattempts
      rw [hm]
      refine ⟨le_rfl, ?_⟩
      intro m' hm'
      obtain rfl := List.mem_singleton.mp hm'
      refine ⟨m'.ordered, ?_⟩
      intro d
      rw [hartifacts, hsound.mem_descriptors]

/-! ## A run to the manifest -/

theorem Runs.call {c : Run T} (hc : Runs E C c) (t : T) (op : Op T) (r : Reply op)
    {k : Reply op → Script T BundleError Unit} {s' : Bundle T} (hp : c.prog t = some (.exec op k))
    (hs : Effect c.state t op r s') : Runs E C ⟨s', Function.update c.prog t (some (k r))⟩ :=
  Reachable.exec hc hp hs

/-- The SHA-256 of the text `10`. -/
def sampleDigest : Digest :=
  ⟨"4a44dc15364204a80fe80e9039455cc1608281820fe2b24f1e5233ade6af1dd5", by decide⟩

/-- Hashing as it is on that text, and the payload `None`. -/
def sampleEnvironment : Environment Unit where
  fold c := [c.toLower]
  sha256 _ := sampleDigest
  validatePayload _ := some .null
  validateDocument := some
  encode document := some (dumps (fun _ => []) document).toUTF8.toList

def sampleName : ArtifactName := ⟨"report.bin", by decide⟩

def sampleId : WriterId Unit := ⟨(), 0⟩

def sampleClient : Clients Unit Unit where
  actions _ :=
    [.openArtifact "report.bin", .write sampleId [49, 48], .finalize sampleId, .publish ()]
  user _ := ()
  oneThread _ _ _ _ _ := rfl

/-- One thread publishes one artifact. -/
theorem publication_one_shot_report : ∃ c, Runs sampleEnvironment sampleClient c ∧
    c.state.state = .terminal ∧ c.state.attempts ≠ [] ∧ c.state.attempts.length ≤ 1 := by
  have h : Runs sampleEnvironment sampleClient (start _ _) := .refl
  have h := h.call () (.reserve sampleName) (.ok ()) rfl ⟨rfl, rfl⟩
  have h := h.call () (.openExclusiveBinary sampleName) true rfl (.inl ⟨rfl, rfl, rfl⟩)
  have h := h.call () (.admitWriter sampleId sampleName) (.ok ()) rfl ⟨rfl, rfl⟩
  have h := h.call () (.writer sampleId) _ rfl ⟨rfl, rfl⟩
  have h := h.call () (.requireActiveWriter sampleName) true rfl ⟨rfl, rfl⟩
  change Runs _ _ ⟨_, Function.update _ ()
    (some ((((writeAll _ [49, 48]).settle _) >>= fun _ => _).settle _))⟩ at h
  rw [writeAll, if_neg (by decide)] at h
  have h := h.call () (.handleWrite sampleId [49, 48]) (some 2) rfl
    ⟨_, 2, 0, rfl, by decide, .inl rfl, rfl⟩
  change Runs _ _ ⟨_, Function.update _ ()
    (some ((((writeAll _ []).settle _) >>= fun _ => _).settle _))⟩ at h
  rw [writeAll, if_pos rfl] at h
  have h := h.call () (.account sampleId [49, 48]) () rfl ⟨_, rfl, rfl⟩
  have h := h.call () (.returned sampleId [49, 48]) () rfl ⟨_, rfl, rfl⟩
  have h := h.call () (.writer sampleId) _ rfl ⟨rfl, rfl⟩
  have h := h.call () (.requireActiveWriter sampleName) true rfl ⟨rfl, rfl⟩
  have h := h.call () (.handleFlush sampleId) true rfl ⟨_, 2, rfl, rfl, fun _ => by decide⟩
  have h := h.call () (.handleClose sampleId) true rfl rfl
  have h := h.call () (.writer sampleId) _ rfl ⟨rfl, rfl⟩
  have h := h.call () (.writerFinalized sampleName ⟨sampleName, sampleDigest, 2⟩) (.ok ()) rfl
    ⟨rfl, rfl⟩
  have h := h.call () .checkPreconditions (.ok ()) rfl ⟨rfl, rfl⟩
  have hsorted : sortedDescriptors ((Dict.empty : Dict ArtifactName ArtifactDescriptor).set
      sampleName ⟨sampleName, sampleDigest, 2⟩) = [⟨sampleName, sampleDigest, 2⟩] := by
    unfold sortedDescriptors
    rw [show Dict.keys _ = [sampleName] from rfl, List.mergeSort_singleton]
    rfl
  have h := h.call () .terminate (.ok [⟨sampleName, sampleDigest, 2⟩]) rfl
    ⟨congrArg _ hsorted.symm, rfl⟩
  have h := h.call () (.publishManifest ⟨[⟨sampleName, sampleDigest, 2⟩], .null, by decide⟩ _)
    (.ok ()) rfl (.inl rfl)
  exact ⟨_, h, rfl, List.cons_ne_nil _ _,
    (publication_one_shot sampleEnvironment sampleClient _ h).2.2.2.1.1⟩

end DrStore.Bundles.OneShot
