import DrStore.Documents.Reading

/-! # Publication is atomic and reported truthfully

Publishers and readers of one target run in any interleaving, with any call failing and any of
them dying at any point. -/
namespace DrStore.Documents.Publication
open DrStore.Base.Programs DrStore.Base.Pool DrStore.Documents.FileSystem
open DrStore.Documents.CanonicalJson DrStore.Documents.Sharing DrStore.Documents.Publishing
open DrStore.Documents.Reading

variable {T : Type} [DecidableEq T] {W : Callers T}

abbrev Run (T : Type) := Config T (Fs T) (Syscall T) SysReply DocumentError Answer

/-- The callers' runs, from the first state of the directory. -/
def Runs (W : Callers T) (c : Run T) : Prop :=
  Reachable directorySystem (Fs.boot W.files W.contents) (fun t => (W.calls t).script) c

/-- A step of `t` on the way to `c`. -/
def Moved (W : Callers T) (t : T) (c : Run T) (s s' : Fs T) : Prop :=
  Took directorySystem (Fs.boot W.files W.contents) (fun t => (W.calls t).script) t c s s'

/-! ## The start -/

omit [DecidableEq T] in
theorem consistent_boot (W : Callers T) : Consistent W (Fs.boot W.files W.contents) where
  content := by
    show ((W.files W.target).map Inode.initial).map _ = _
    rw [Option.map_map]
    rfl
  settled i hi := by
    obtain ⟨n, hn, rfl⟩ := Option.map_eq_some_iff.mp hi
    exact hn
  originals _ := rfl
  installers t ht := by cases ht
  created t i hi := by cases hi
  placed x t n hx := by
    obtain ⟨_, _, hne⟩ := Option.map_eq_some_iff.mp hx
    cases hne

/-- What holds of a call that has ended. -/
structure Ended (W : Callers T) (t : T) (out : Except DocumentError Answer) (s : Fs T) : Prop where
  published : ∀ file supported uuid encoded, W.calls t = .publish file supported uuid encoded →
    Reported W t out s
  read : ∀ file supported, W.calls t = .read file supported → ReadReported W t out s

theorem wp_script (W : Callers T) (t : T) :
    wp directorySystem (rules W) t (W.calls t).script (Ended W t)
      (Fs.boot W.files W.contents) := by
  have hidle : Idle t (Fs.boot W.files W.contents) := ⟨rfl, by simp [Fs.boot]⟩
  have hfile := W.onTarget t
  cases hcall : W.calls t with
  | publish file supported uuid encoded =>
    rw [hcall] at hfile
    refine wp_mono ?_ (wp_publish (consistent_boot W) (by rw [hcall]; rfl) hfile
      (by rw [hcall]; rfl) hidle)
    intro out s _ h
    exact ⟨fun _ _ _ _ _ => h, by simp [hcall]⟩
  | read file supported =>
    rw [hcall] at hfile
    refine wp_mono ?_ (wp_readBytes (consistent_boot W) hfile hidle)
    intro out s _ h
    exact ⟨by simp [hcall], fun _ _ _ => h⟩

/-! ## Every run -/

theorem run_rules {c : Run T} (hc : Runs W c) : Consistent W c.state ∧
    ∀ t out, c.prog t = some (Prog.ofExcept out) → Ended W t out c.state := by
  have hkill : ∀ t s s', (rules W).inv s → directorySystem.kill t s s' →
      (rules W).inv s' ∧ (rules W).guar t s s' := by
    rintro t s s' hinv rfl
    exact Kept.refl hinv
  obtain ⟨hinv, hthreads⟩ := reachable_wp (consistent_boot W) hkill (wp_script W) hc
  exact ⟨hinv, fun t out hout => wp_ended hinv out (hthreads t _ hout)⟩

theorem moved_consistent {t : T} {c : Run T} {s s' : Fs T} (h : Moved W t c s s') :
    Consistent W s ∧ Consistent W s' := by
  obtain ⟨c₁, op, k, r, hc, rfl, hp, hstep, _⟩ := h
  exact ⟨(run_rules hc).1, (run_rules (hc.exec hp hstep)).1⟩

/-- A replacement that has taken effect put the publisher's document in place, in a step of its
own. -/
theorem installed {t : T} {c : Run T} (hc : Runs W c) (ht : t ∈ c.state.installs) :
    ∃ b s s', Moved W t c s s' ∧ (W.calls t).encoded = some b ∧
      s'.content W.target = some b := by
  have hkill : ∀ u (s s' : Fs T), directorySystem.kill u s s' → t ∈ s'.installs →
      t ∈ s.installs := by
    rintro u s s' rfl h
    exact h
  obtain ⟨u, s, s', hmoved, hbefore, hafter⟩ := Reachable.took hkill hc (by simp [Fs.boot]) ht
  have hmoved : Moved W u c s s' := hmoved
  obtain ⟨_, hinv⟩ := moved_consistent hmoved
  obtain ⟨b, hb⟩ := (hinv.installers t hafter).2
  obtain ⟨c₁, op, k, r, _, _, _, hstep, _⟩ := id hmoved
  rcases Fs.installs_effect hstep with hsame | happend
  · exact absurd (hsame ▸ hafter) hbefore
  · rw [happend] at hafter
    have hut : t = u := by simpa [hbefore] using hafter
    subst hut
    refine ⟨b, s, s', hmoved, hb, ?_⟩
    rw [hinv.content, happend, Callers.shown_concat, hb]

/-- A publisher whose replacement has not taken effect has not changed the target. -/
theorem untouched {t : T} {c : Run T} (ht : t ∉ c.state.installs) {s s' : Fs T}
    (h : Moved W t c s s') : s'.content W.target = s.content W.target := by
  obtain ⟨hinv, hinv'⟩ := moved_consistent h
  obtain ⟨c₁, op, k, r, _, _, _, hstep, hrest⟩ := h
  have hgrow : ∀ u (s : Fs T) op r s', directorySystem.step u s op r s' → t ∈ s.installs →
      t ∈ s'.installs := by
    intro u s op r s' hs hmem
    rcases Fs.installs_effect hs with hsame | happend
    · rwa [hsame]
    · rw [happend]
      exact List.mem_append_left _ hmem
  rcases Fs.installs_effect hstep with hsame | happend
  · rw [hinv.content, hinv'.content, hsame]
  · refine absurd (steps_keep hgrow ?_ hrest ?_) ht
    · rintro u s s' rfl hmem
      exact hmem
    · rw [happend]
      exact List.mem_append_right _ (.head _)

/-- What a publication that has ended did. -/
structure Truthful (W : Callers T) (t : T) (c : Run T) (out : Except DocumentError Answer) :
    Prop where
  replaced : ((∃ a, out = .ok a) ∨ ∃ stage, out = .error (.publish stage .replaced)) →
    ∃ b s s', Moved W t c s s' ∧ (W.calls t).encoded = some b ∧ s'.content W.target = some b
  notReplaced : (∃ stage, out = .error (.publish stage .notReplaced)) →
    ∀ s s', Moved W t c s s' → s'.content W.target = s.content W.target
  closed : ∀ fd, .opened fd ∈ c.state.log t → (c.state.log t).count (.closed fd) = 1
  removed : .unlinkFailed ∉ c.state.log t →
    ∀ i x, .created i ∈ c.state.log t → c.state.names x = some i → x = W.target

theorem truthful_of_reported {t : T} {c : Run T} {out : Except DocumentError Answer}
    (hc : Runs W c) (h : Reported W t out c.state) : Truthful W t c out := by
  refine ⟨?_, ?_, h.accounted.closed_once, ?_⟩
  · rintro (⟨a, ha⟩ | ⟨stage, hstage⟩)
    · exact installed hc (h.returned a ha)
    · exact installed hc (h.replaced stage hstage)
  · rintro ⟨stage, hstage⟩ s s' hmoved
    exact untouched (h.notReplaced stage hstage) hmoved
  · intro hunlink i x hi hx
    have hinv := (run_rules hc).1
    obtain ⟨n, rfl⟩ := hinv.created t i hi
    rcases hinv.placed x t n hx with htarget | htemporary
    · exact htarget
    · exact absurd hx (h.cleaned hunlink x _ htemporary hi)

/-- **At every moment of every run the target is as it was at first, or holds all that one
publisher encoded that has called `replace`; a read returns only such documents; and a publication
that has ended reported truthfully, closed what it opened and removed what it made.** -/
theorem publication_atomic (W : Callers T) (c : Run T) (hc : Runs W c) :
    (c.state.content W.target = W.initial ∨ ∃ t b, .replacing ∈ c.state.log t ∧
      (W.calls t).encoded = some b ∧ c.state.content W.target = some b) ∧
    (∀ t file supported raw, W.calls t = .read file supported →
      c.prog t = some (Prog.ofExcept (.ok (.document raw))) → Complete W c.state raw) ∧
    (∀ t file supported uuid encoded out, W.calls t = .publish file supported uuid encoded →
      c.prog t = some (Prog.ofExcept out) → Truthful W t c out) := by
  obtain ⟨hinv, hended⟩ := run_rules hc
  refine ⟨hinv.content_complete, ?_, ?_⟩
  · intro t file supported raw hcall hout
    exact ((hended t _ hout).read file supported hcall).complete raw rfl
  · intro t file supported uuid encoded out hcall hout
    exact truthful_of_reported hc ((hended t out hout).published file supported uuid encoded hcall)

/-! ### One publisher, whose first write is short -/

/-- One more call. -/
theorem Runs.call {c : Run T} (hc : Runs W c) (t : T) (op : Syscall T) (r : SysReply op)
    {k : SysReply op → Script T DocumentError Answer} {s' : Fs T}
    (hp : c.prog t = some (.exec op k)) (hs : c.state.Effect t op r s') :
    Runs W ⟨s', Function.update c.prog t (some (k r))⟩ :=
  Reachable.exec hc hp hs

theorem report_unreserved :
    isReservedDocumentTempName (fun c => [c.toLower]) "report.json" = false := by decide

def reportFile : CanonicalJsonFile :=
  ⟨fun c => [c.toLower], "report.json", "9dbd938021609755", 1024, report_unreserved⟩

def reportTemporary : String := temporaryName reportFile.targetKey "0"

/-- The document is the number 10. -/
def lonePublisher : Callers Unit where
  target := "report.json"
  files _ := none
  contents _ := []
  calls _ := .publish reportFile true "0" (some [49, 48])
  onTarget _ := rfl
  distinct _ _ _ _ _ := rfl

theorem lonePublisher_returns : ∃ c, Runs lonePublisher c ∧
    c.prog () = some (Prog.ofExcept (.ok .published)) ∧
    c.state.content "report.json" = some [49, 48] := by
  have h : Runs lonePublisher (start _ _) := .refl
  have h := h.call () .openDirectory (.ok ⟨(), 0⟩) rfl ⟨⟨rfl, by decide⟩, rfl⟩
  have h := h.call () (.createTemp ⟨(), 0⟩ reportTemporary) (.ok ⟨(), 1⟩) rfl
    ⟨rfl, rfl, ⟨rfl, by decide⟩, 0, by decide, rfl⟩
  -- the loop is by well-founded recursion, so it is unfolded at each turn
  change Runs _ ⟨_, Function.update _ () (some ((writeAll _ _ [49, 48] >>= _).settle _))⟩ at h
  rw [writeAll, if_neg (by decide)] at h
  have h := h.call () (.write ⟨(), 1⟩ [49, 48]) (.ok 1) rfl ⟨by decide, _, rfl, rfl⟩
  change Runs _ ⟨_, Function.update _ () (some ((writeAll _ _ [48] >>= _).settle _))⟩ at h
  rw [writeAll, if_neg (by decide)] at h
  have h := h.call () (.write ⟨(), 1⟩ [48]) (.ok 1) rfl ⟨by decide, _, rfl, rfl⟩
  change Runs _ ⟨_, Function.update _ () (some ((writeAll _ _ [] >>= _).settle _))⟩ at h
  rw [writeAll, if_pos rfl] at h
  have h := h.call () (.close ⟨(), 1⟩) (.ok ()) rfl rfl
  have h := h.call () (.replace ⟨(), 0⟩ reportTemporary "report.json") (.ok ()) rfl
    ⟨rfl, _, rfl, rfl⟩
  have h := h.call () (.close ⟨(), 0⟩) (.ok ()) rfl rfl
  exact ⟨_, h, rfl, rfl⟩

theorem publication_atomic_report : ∃ c, Runs lonePublisher c ∧
    c.state.content "report.json" = some [49, 48] ∧
    Truthful lonePublisher () c (.ok .published) := by
  obtain ⟨c, hc, hout, hcontent⟩ := lonePublisher_returns
  obtain ⟨_, _, htruthful⟩ := publication_atomic lonePublisher c hc
  exact ⟨c, hc, hcontent, htruthful () _ _ _ _ _ rfl hout⟩

end DrStore.Documents.Publication
