import Editing.Proofs.Session.Enduring

/-!
# Locks in balance

Which locks a root holds can be told from the calls alone: it holds those that it took and has not
given back. At every moment of a run this is the lock of the file that its document visits, if the
document is modified, and nothing else. No lock is taken twice or given back without being held.
-/

namespace Editing

namespace Call

/-- The files whose locks a root holds after some calls, the newest call first. -/
def held (root : ViewId) : List Call → List Path
  | [] => []
  | .lock r path :: calls => if r = root then path :: held root calls else held root calls
  | .unlock r path :: calls =>
      if r = root then (held root calls).filter fun p => !p.same path else held root calls
  | _ :: calls => held root calls

/-- A root takes no lock that it holds already, and gives none back that it does not hold. -/
def Balanced (root : ViewId) : List Call → Prop
  | [] => True
  | .lock r path :: calls =>
      (r = root → ∀ p ∈ held root calls, p.same path = false) ∧ Balanced root calls
  | .unlock r path :: calls => (r = root → path ∈ held root calls) ∧ Balanced root calls
  | _ :: calls => Balanced root calls

/-- The calls are balanced, and leave each root with the lock of its file and no other one. -/
structure LocksFor (calls : List Call) (files : ViewId → Option Path) : Prop where
  balanced : ∀ root, Balanced root calls
  held : ∀ root, held root calls = (files root).toList

namespace LocksFor

variable {calls : List Call} {files : ViewId → Option Path} {root : ViewId} {path old : Path}

theorem take (h : LocksFor calls files) (hfree : files root = none) :
    LocksFor (.lock root path :: calls) fun r => if r = root then some path else files r where
  balanced r := by
    refine ⟨?_, h.balanced r⟩
    rintro rfl p hp
    rw [h.held, hfree] at hp
    cases hp
  held r := by
    rw [Call.held, h.held]
    by_cases hr : root = r
    · rw [if_pos hr, if_pos hr.symm, ← hr, hfree]
      rfl
    · rw [if_neg hr, if_neg (Ne.symm hr)]

theorem give (h : LocksFor calls files) (hpath : files root = some path) :
    LocksFor (.unlock root path :: calls) fun r => if r = root then none else files r where
  balanced r := by
    refine ⟨?_, h.balanced r⟩
    rintro rfl
    rw [h.held, hpath]
    exact List.mem_singleton.mpr rfl
  held r := by
    rw [Call.held, h.held]
    by_cases hr : root = r
    · rw [if_pos hr, if_pos hr.symm, ← hr, hpath]
      simp [Path.same_refl]
    · rw [if_neg hr, if_neg (Ne.symm hr)]

/-- The lock of another file is taken before that of the old one is given back. -/
theorem swap (h : LocksFor calls files) (hold : files root = some old)
    (hother : old.same path = false) :
    LocksFor (.unlock root old :: .lock root path :: calls)
      fun r => if r = root then some path else files r where
  balanced r := by
    refine ⟨?_, ?_, h.balanced r⟩
    · rintro rfl
      rw [Call.held, h.held, hold, if_pos rfl]
      exact List.mem_cons_of_mem _ (List.mem_singleton.mpr rfl)
    · rintro rfl p hp
      rw [h.held, hold] at hp
      rw [List.mem_singleton.mp hp]
      exact hother
  held r := by
    rw [Call.held, Call.held, h.held]
    by_cases hr : root = r
    · rw [if_pos hr, if_pos hr, if_pos hr.symm, ← hr, hold]
      simp [Path.same_refl, Path.same_symm path old, hother]
    · rw [if_neg hr, if_neg hr, if_neg (Ne.symm hr)]

end LocksFor

end Call

/-! ## Documents and their locks -/

namespace Document

/-- The file whose lock the document has while it is modified. -/
def lockedFile (d : Document) : Option Path := if d.isModified then d.file else none

/-- The document was not saved after its last change was made, and it is marked as locked exactly
when it is modified and visits a file. -/
structure Guarded (d : Document) : Prop where
  saved : d.saveTick ≤ d.tick
  marked : d.locked = (d.isModified && d.file.isSome)

theorem isModified_apply {d : Document} (h : d.saveTick ≤ d.tick) (c : Change) :
    (d.apply c).isModified = true := by
  cases c <;> exact decide_eq_true (Nat.lt_succ_of_le h)

theorem file_apply (d : Document) (c : Change) : (d.apply c).file = d.file := by
  cases c <;> rfl

theorem locked_apply (d : Document) (c : Change) : (d.apply c).locked = d.locked := by
  cases c <;> rfl

theorem lockedFile_revisited {d : Document} {file : Option Path} {locked : Bool}
    (h : ∀ path, d.isModified = true → file = some path → False) :
    lockedFile { d with file := file, locked := locked } = none := by
  change (if d.isModified then file else none) = none
  cases file with
  | none => exact ite_self none
  | some path => exact if_neg fun hmodified => h path hmodified rfl

namespace Guarded

variable {d : Document}

theorem lockedFile_eq (h : d.Guarded) : d.lockedFile = if d.locked then d.file else none := by
  rw [lockedFile, h.marked]
  cases d.isModified <;> cases d.file <;> rfl

theorem lockedFile_of_unwanted (h : d.Guarded) (hwanted : d.wanted = none) :
    d.lockedFile = d.file := by
  rw [wanted, h.marked] at hwanted
  rw [lockedFile]
  cases hmodified : d.isModified with
  | true => rfl
  | false =>
      rw [hmodified] at hwanted
      exact hwanted.symm

theorem lockedFile_of_wanted (h : d.Guarded) {path : Path} (hwanted : d.wanted = some path) :
    d.file = some path ∧ d.lockedFile = none := by
  rw [wanted, h.marked] at hwanted
  rw [lockedFile]
  cases hmodified : d.isModified with
  | true =>
      rw [hmodified] at hwanted
      cases hwanted
  | false =>
      rw [hmodified] at hwanted
      exact ⟨hwanted, rfl⟩

/-- The lock of the visited file is taken just when a document turns modified. -/
theorem locked_or_wanted (h : d.Guarded) : (d.locked || d.wanted.isSome) = d.file.isSome := by
  rw [wanted, h.marked]
  cases d.isModified <;> cases d.file <;> rfl

theorem apply (h : d.Guarded) (c : Change) :
    Guarded (Document.apply { d with locked := d.locked || d.wanted.isSome } c) where
  saved := by
    have hle := h.saved
    cases c <;> exact Nat.le_succ_of_le hle
  marked := by
    rw [locked_apply, isModified_apply, file_apply, h.locked_or_wanted]
    · rfl
    · exact h.saved

end Guarded

theorem guarded_enduring : Enduring Guarded where
  empty := ⟨Nat.le_refl 0, rfl⟩
  mark _ _ h := ⟨h.saved, h.marked⟩
  relog _ _ h := ⟨h.saved, h.marked⟩
  apply _ c _ h := h.apply c
  save d _ := ⟨Nat.le_refl _, by simp [isModified]⟩
  visit _ _ h := ⟨h.saved, rfl⟩
  place _ _ _ _ _ h := ⟨h.saved, h.marked⟩
  put _ _ _ _ _ h := ⟨h.saved, h.marked⟩
  erase _ _ h := ⟨h.saved, h.marked⟩
  clear _ h := ⟨h.saved, h.marked⟩

end Document

namespace Session

variable {s t : Session} {root : ViewId} {d : Document}

theorem unlocked_edit (s : Session) (f : Editor → Editor) (held : Bool) (root : ViewId)
    (file : Option Path) :
    (s.unlocked held root file).edit f = (s.edit f).unlocked held root file := by
  unfold unlocked edit
  repeat' split
  all_goals rfl

/-- The file whose lock the document of a root has, if there is a document. -/
def lockedFile (s : Session) (root : ViewId) : Option Path :=
  (s.editor.documents.get? root).bind Document.lockedFile

/-- A protocol is asked for locks, and each root holds the lock that its document has. -/
structure Locking (s : Session) : Prop where
  asked : s.locks.isSome = true
  locksFor : Call.LocksFor s.trace s.lockedFile

theorem lockedFile_eq (hd : s.editor.documents.get? root = some d) :
    s.lockedFile root = d.lockedFile := by
  rw [lockedFile, hd, Option.bind_some]

/-- What becomes of the files whose locks are held when one document changes. -/
theorem lockedFile_onDocument (hd : s.editor.documents.get? root = some d)
    (f : Document → Document) (r : ViewId) :
    (s.onDocument root f).lockedFile r =
      if r = root then (f d).lockedFile else s.lockedFile r := by
  rw [lockedFile, get?_onDocument]
  split
  · rename_i hr
    rw [hr, hd]
    rfl
  · rfl

namespace Locking

theorem congr (h : s.Locking) (hasked : t.locks.isSome = true) (htrace : t.trace = s.trace)
    (hfiles : ∀ r, t.lockedFile r = s.lockedFile r) : t.Locking := by
  refine ⟨hasked, ?_⟩
  rw [htrace, funext hfiles]
  exact h.locksFor

theorem aside (h : s.Locking) {f : Document → Document}
    (hf : ∀ d, (f d).lockedFile = d.lockedFile) : (s.onDocument root f).Locking := by
  refine h.congr h.asked rfl fun r => ?_
  rw [lockedFile, get?_onDocument]
  split
  · rw [lockedFile]
    cases s.editor.documents.get? r with
    | none => rfl
    | some d => exact hf d
  · rfl

theorem markers (h : s.Locking) (root : ViewId) (f : Document → Markers) :
    (s.onDocument root fun d => { d with markers := f d }).Locking := h.aside fun _ => rfl

theorem overlays (h : s.Locking) (root : ViewId) (f : Document → Overlays) :
    (s.onDocument root fun d => { d with overlays := f d }).Locking := h.aside fun _ => rfl

theorem lifted (h : s.Locking) (marker : MarkerId) (home : Option MarkerHome) :
    (s.lifted marker home).Locking := by
  cases home with
  | none => exact h
  | some home => exact h.aside fun _ => rfl

theorem advancing (h : s.Locking) (marker : MarkerId) (advances : Bool)
    (home : Option MarkerHome) : (s.advancing marker advances home).Locking := by
  cases home with
  | none => exact h
  | some home => exact h.aside fun _ => rfl

theorem edit (h : s.Locking) {f : Editor → Editor} (hf : ∀ e, (f e).documents = e.documents) :
    (s.edit f).Locking :=
  h.congr h.asked rfl fun r => by rw [lockedFile, lockedFile, editor_edit, hf]

/-- The lock of a document is given back when it is saved, when it goes, and when it visits no file
any more. -/
theorem released (h : s.Locking) (hd : s.editor.documents.get? root = some d) (hg : d.Guarded)
    (hlocks : t.locks = s.locks) (htrace : t.trace = s.trace)
    (hfiles : ∀ r, t.lockedFile r = if r = root then none else s.lockedFile r) :
    (t.unlocked d.locked root d.file).Locking := by
  have hasked : t.locks.isSome = true := by rw [hlocks, h.asked]
  have hroot : s.lockedFile root = if d.locked then d.file else none := by
    rw [lockedFile_eq hd, hg.lockedFile_eq]
  have hsilent : s.lockedFile root = none → t.Locking := by
    intro hnone
    refine h.congr hasked htrace fun r => ?_
    rw [hfiles]
    split
    · rename_i hr
      rw [hr, hnone]
    · rfl
  cases hlocked : d.locked with
  | false => exact hsilent (by rw [hroot, hlocked]; rfl)
  | true =>
      cases hfile : d.file with
      | none => exact hsilent (by rw [hroot, hlocked, hfile]; rfl)
      | some path =>
          have hpath : s.lockedFile root = some path := by
            rw [hroot, hlocked, hfile]
            rfl
          have hgiven := h.locksFor.give hpath
          rw [unlocked, if_pos hasked]
          refine ⟨hasked, ?_⟩
          rw [← htrace, ← funext hfiles] at hgiven
          exact hgiven

/-- A modified document that comes to visit another file takes the new lock before it gives the old
one back. -/
theorem visited (h : s.Locking) (hd : s.editor.documents.get? root = some d) (hg : d.Guarded)
    (hmodified : d.isModified = true) {path : Path}
    (hfile : Act.sameFile d.file (some path) = false) (f : Document → Bool) :
    (((s.granted root path).onDocument root fun d =>
      { d with file := some path, locked := f d }).unlocked d.locked root d.file).Locking := by
  have hgranted : s.granted root path = s.called (.lock root path) := if_pos h.asked
  have hroot : s.lockedFile root = d.file := by
    rw [lockedFile_eq hd, Document.lockedFile, if_pos hmodified]
  have hlocked : d.locked = d.file.isSome := by rw [hg.marked, hmodified, Bool.true_and]
  rw [hgranted, hlocked]
  generalize ht : ((s.called (.lock root path)).onDocument root fun d =>
    { d with file := some path, locked := f d }) = t
  have hasked : t.locks.isSome = true := by rw [← ht]; exact h.asked
  have htrace : t.trace = .lock root path :: s.trace := by rw [← ht]; rfl
  have hfiles : ∀ r, t.lockedFile r = if r = root then some path else s.lockedFile r := by
    intro r
    rw [← ht, lockedFile_onDocument (s := s.called (.lock root path)) hd]
    split
    · exact if_pos hmodified
    · rfl
  cases hold : d.file with
  | none =>
      have htaken : Call.LocksFor (.lock root path :: s.trace) _ :=
        h.locksFor.take (by rw [hroot, hold])
      rw [← funext hfiles, ← htrace] at htaken
      exact ⟨hasked, htaken⟩
  | some old =>
      rw [hold] at hroot hfile
      have hswapped := h.locksFor.swap hroot hfile
      rw [← funext hfiles, ← htrace] at hswapped
      rw [Option.isSome_some, unlocked, if_pos hasked]
      exact ⟨hasked, hswapped⟩

/-- The first change of an unmodified document takes the lock of its file. -/
theorem changed (h : s.Locking) (hd : s.editor.documents.get? root = some d) (hg : d.Guarded)
    (c : Change) : (s.changed root d c).Locking := by
  have hfiles : ∀ r, (s.changed root d c).lockedFile r =
      if r = root then d.file else s.lockedFile r := by
    intro r
    rw [lockedFile, documents_changed hd]
    split
    · rw [Option.bind_some, Document.lockedFile, Document.file_apply,
        if_pos (Document.isModified_apply _ c)]
      exact hg.saved
    · rfl
  suffices hcalls : Call.LocksFor (s.prepared root d).trace
      fun r => if r = root then d.file else s.lockedFile r by
    refine ⟨by rw [locks_changed, h.asked], ?_⟩
    rw [funext hfiles, Session.changed, trace_onDocument, announced]
    split
    · exact ⟨hcalls.balanced, hcalls.held⟩
    · exact hcalls
  have hroot := lockedFile_eq hd
  rw [prepared]
  cases hwanted : d.wanted with
  | none =>
      have hsame : (fun r => if r = root then d.file else s.lockedFile r) = s.lockedFile := by
        funext r
        split
        · rename_i hr
          rw [hr, hroot, hg.lockedFile_of_unwanted hwanted]
        · rfl
      rw [hsame]
      exact h.locksFor
  | some path =>
      obtain ⟨hfile, hnone⟩ := hg.lockedFile_of_wanted hwanted
      have htaken : Call.LocksFor (.lock root path :: s.trace) _ :=
        h.locksFor.take (by rw [hroot, hnone])
      simp only [trace_onDocument, granted, h.asked, if_true, hfile]
      exact htaken

end Locking

theorem Move.locking {mark : Option ViewId} (hmove : Move mark s t) (hw : s.editor.WellFormed)
    (hg : s.Every Document.Guarded) (h : s.Locking) : t.Locking := by
  cases hmove with
  | setLocks protocol => exact h.congr rfl rfl fun _ => rfl
  | setLimits limits => exact h.edit fun _ => rfl
  | setInhibit inhibit => exact h.edit fun _ => rfl
  | setReadOnly hv readOnly => exact h.edit fun _ => rfl
  | setCurrent hv => exact h.edit fun _ => rfl
  | addRoot name =>
      refine h.congr h.asked rfl fun r => ?_
      rw [lockedFile, lockedFile, editor_edit, Editor.addRoot, Table.get?_insert]
      split
      · rename_i hr
        rw [hr, hw.registry.document_nextView]
        rfl
      · rfl
  | @addIndirect _ base v hv hb name =>
      have hseated : (s.onDocument base fun d =>
          d.addView s.editor.nextMarkers (d.extent v.markers)).Locking := h.markers _ _
      exact hseated.congr h.asked rfl fun _ => rfl
  | @removeIndirect _ view root v hv hb =>
      have hlifted : (s.onDocument root fun d =>
          { d.removeView v.markers with
            markers := (s.editor.markersSetIn view).foldl Table.erase
              (d.removeView v.markers).markers }).Locking := h.markers _ _
      exact hlifted.congr h.asked rfl fun _ => rfl
  | @removeRoot _ root v hv hb halone c d hd hc =>
      have hlocked : c.locked = d.locked := by
        change c.unmarked.locked = d.unmarked.locked
        rw [hc]
      have hfile : c.file = d.file := by
        change c.unmarked.file = d.unmarked.file
        rw [hc]
      rw [unlocked_edit, ← hlocked, ← hfile]
      refine h.released hd (hg root c hd) rfl rfl fun r => ?_
      rw [lockedFile, editor_edit, Editor.removeRoot, Table.get?_erase]
      split
      · rfl
      · rfl
  | narrow hs hpq hq => exact h.aside fun _ => rfl
  | widen hs => exact h.aside fun _ => rfl
  | goto hs hlow hhigh => exact h.aside fun _ => rfl
  | change hs hrange hvoid hgrant => exact h.changed hs.document (hg _ _ hs.document) _
  | refused root path => exact ⟨h.asked, h.locksFor.balanced, h.locksFor.held⟩
  | restore root start stop key value => exact ⟨h.asked, h.locksFor.balanced, h.locksFor.held⟩
  | handler call => exact ⟨h.asked, h.locksFor.balanced, h.locksFor.held⟩
  | log hd hl => exact h.aside fun _ => rfl
  | readjust has =>
      refine h.aside fun d => ?_
      change (List.foldl Document.readjust d _).unmarked.lockedFile = d.unmarked.lockedFile
      rw [Document.unmarked_readjustAll]
  | @setUnmodified _ view root v d hs =>
      refine h.released hs.document (hg root d hs.document) rfl rfl fun r => ?_
      rw [lockedFile_onDocument hs.document]
      congr 1
      exact if_neg (by simp [Document.isModified])
  | @setFile _ root v d file hs hfile hgrant =>
      have hguarded := hg root d hs.document
      split
      · rename_i path hmodified
        exact h.visited hs.document hguarded hmodified hfile _
      · rename_i hother
        refine h.released hs.document hguarded rfl rfl fun r => ?_
        rw [lockedFile_onDocument hs.document]
        split
        · exact Document.lockedFile_revisited hother
        · rfl
  | makeMarker => exact h.edit fun _ => rfl
  | placeMarker hu hs pos => exact ((h.lifted _ _).markers _ _).edit fun _ => rfl
  | detachMarker hu => exact (h.lifted _ _).edit fun _ => rfl
  | setAdvances hu advances => exact (h.advancing _ _ _).edit fun _ => rfl
  | makeOverlay hs p q front rear => exact (h.overlays _ _).edit fun _ => rfl
  | setDetached ho p => exact h.edit fun _ => rfl
  | setAttached hh hs ho p => exact h.aside fun _ => rfl
  | deleteOverlay hh hs ho => exact (h.overlays _ _).edit fun _ => rfl
  | deleteAllOverlays hs => exact (h.overlays _ _).edit fun _ => rfl
  | moveDetached ho hs p q => exact (h.overlays _ _).edit fun _ => rfl
  | moveAttached hh hold ho hs p q =>
      exact ((h.overlays _ _).overlays _ _).edit fun _ => rfl

theorem locking_lasting : Lasting fun s => s.Every Document.Guarded ∧ s.Locking where
  move hw hmove h :=
    ⟨Document.guarded_enduring.move hmove h.1, hmove.locking hw h.1 h.2⟩
  relog root f h :=
    ⟨Document.guarded_enduring.lasting.relog root f h.1, h.2.aside fun _ => rfl⟩

theorem fresh_locking (limits : Limits) (protocol : LockProtocol) :
    (fresh limits (some protocol)).Locking := ⟨rfl, fun _ => trivial, fun _ => rfl⟩

/-- At every moment of a run that starts with a protocol for locks, and for every root: no lock was
taken while it was held, and none was given back without being held; the root holds the lock of a
file exactly if it is live and modified and visits that file; and its document is marked as locked
exactly if it is modified and visits a file. -/
theorem locks_balanced (limits : Limits) (protocol : LockProtocol) (steps : List Step) {t : Session}
    (ht : t ∈ (takeAll steps (fresh limits (some protocol))).2 ::
      runMoments steps (fresh limits (some protocol))) (root : ViewId) :
    Call.Balanced root t.trace ∧
      (∀ path, path ∈ Call.held root t.trace ↔
        root ∈ t.editor.rootList ∧ t.editor.isModified root = .ok true ∧
          t.editor.visitedFile root = .ok (some path)) ∧
      ∀ d, t.editor.documents.get? root = some d →
        (d.locked = true ↔ d.isModified = true ∧ ∃ path, d.file = some path) := by
  have hregistry := (run_settled ht).1
  obtain ⟨hguarded, hlocking⟩ := locking_lasting.run steps _ (fresh_atRest limits (some protocol))
    ⟨fresh_every limits _, fresh_locking limits protocol⟩ t ht
  refine ⟨hlocking.locksFor.balanced root, fun path => ?_, fun d hd => ?_⟩
  · rw [hlocking.locksFor.held root, Option.mem_toList, lockedFile]
    cases hd : t.editor.documents.get? root with
    | none =>
        have hdead : root ∉ t.editor.rootList := fun hroot => by
          obtain ⟨w, hw, hb⟩ := Act.mem_rootList.mp hroot
          obtain ⟨d, hd'⟩ := hregistry.owned root w hw hb
          rw [hd] at hd'
          cases hd'
        simp only [Option.bind_none, reduceCtorEq, hdead, false_and]
    | some d =>
        obtain ⟨w, hs, hb⟩ := hregistry.shows_root hd
        have hroot : root ∈ t.editor.rootList := Act.mem_rootList.mpr ⟨w, hs.live, hb⟩
        have hmodified : t.editor.isModified root = .ok d.isModified := by
          rw [Editor.isModified, hs.document_eq]
          rfl
        have hfile : t.editor.visitedFile root = .ok d.file := by
          rw [Editor.visitedFile, hs.document_eq]
          rfl
        rw [hmodified, hfile, Option.bind_some, Document.lockedFile]
        simp only [hroot, true_and, Except.ok.injEq, Option.ite_none_right_eq_some]
  · rw [(hguarded root d hd).marked, Bool.and_eq_true, Option.isSome_iff_exists]

/-- Refuses all locks to one root. -/
def pickyProtocol : LockProtocol where
  refusal _ root _ := if root = 1 then some (.because "in use") else none
  state _ _ := .unlocked

/-- One root saves its file and changes it again, and the other one is refused its lock. -/
def savingRun : List Step :=
  [.op (.createRoot "v"), .op (.setVisitedFile 0 (some ⟨"/v"⟩)), .op (.insert 0 ['x']),
    .op (.setUnmodified 0), .op (.insert 0 ['y']), .op (.createRoot "w"),
    .op (.setVisitedFile 1 (some ⟨"/w"⟩)), .op (.insert 1 ['z'])]

theorem savingRun_balanced :
    Call.Balanced 0 (takeAll savingRun (fresh .default (some pickyProtocol))).2.trace ∧
      ⟨"/v"⟩ ∈ Call.held 0 (takeAll savingRun (fresh .default (some pickyProtocol))).2.trace ∧
      ⟨"/w"⟩ ∉ Call.held 1 (takeAll savingRun (fresh .default (some pickyProtocol))).2.trace := by
  obtain ⟨hbalanced, hheld, -⟩ :=
    locks_balanced .default pickyProtocol savingRun List.mem_cons_self 0
  obtain ⟨-, hother, -⟩ := locks_balanced .default pickyProtocol savingRun List.mem_cons_self 1
  refine ⟨hbalanced, (hheld _).mpr ?_, fun hmem => absurd ((hother _).mp hmem) ?_⟩
  · decide +kernel
  · decide +kernel

end Session

end Editing
