import Editing.Proofs.Session.Operations

/-!
# What becomes of a text and its log

A move that does not name a root leaves its text and its log as they are. One that does either makes
the root, or applies one change to the document, or takes one step on the log. As no root is named
twice on the way through an operation, this also tells what an operation can do to a document.
-/

namespace Editing

/-- The same text with the same log; all else may differ. -/
structure Document.Alike (d c : Document) : Prop where
  text : c.text = d.text
  log : c.log = d.log

/-- What a document can become in one turn. -/
inductive Document.Turn (d c : Document) : Prop
  | kept (h : d.Alike c)
  | changed {b : Document} (h : d.Alike b) (change : Change)
      (hrange : change.rangeError b.length = none) (hvoid : change.isVoid = false)
      (h' : (b.apply change).Alike c)
  | stepped (htext : c.text = d.text) (hlog : d.log.Step c.log)

theorem Document.Alike.refl (d : Document) : d.Alike d := ⟨rfl, rfl⟩

theorem Document.Alike.trans {d c b : Document} (h : d.Alike c) (h' : c.Alike b) : d.Alike b :=
  ⟨h'.text.trans h.text, h'.log.trans h.log⟩

namespace Document.Turn

variable {d c b : Document}

theorem alike_left (h : d.Alike c) (h' : c.Turn b) : d.Turn b := by
  cases h' with
  | kept h' => exact .kept (h.trans h')
  | changed h' change hrange hvoid h'' => exact .changed (h.trans h') change hrange hvoid h''
  | stepped htext hlog => exact .stepped (htext.trans h.text) (h.log ▸ hlog)

theorem alike_right (h : d.Turn c) (h' : c.Alike b) : d.Turn b := by
  cases h with
  | kept h => exact .kept (h.trans h')
  | changed h change hrange hvoid h'' => exact .changed h change hrange hvoid (h''.trans h')
  | stepped htext hlog => exact .stepped (h'.text.trans htext) (h'.log ▸ hlog)

end Document.Turn

namespace Session

variable {s t : Session} {root : ViewId} {mark : Option ViewId}

/-- The texts and logs of all documents are as they were, as far as there are documents left. -/
def Keeps (s t : Session) : Prop :=
  ∀ r c, t.editor.documents.get? r = some c →
    ∃ d, s.editor.documents.get? r = some d ∧ d.Alike c

theorem Keeps.refl (s : Session) : s.Keeps s := fun _ c hc => ⟨c, hc, .refl c⟩

theorem Keeps.trans {u : Session} (h : s.Keeps t) (h' : t.Keeps u) : s.Keeps u := by
  intro r c hc
  obtain ⟨d, hd, hcd⟩ := h' r c hc
  obtain ⟨b, hb, hdb⟩ := h r d hd
  exact ⟨b, hb, hdb.trans hcd⟩

theorem keeps_of_documents (h : t.editor.documents = s.editor.documents) : s.Keeps t := by
  intro r c hc
  exact ⟨c, h ▸ hc, .refl c⟩

theorem keeps_onDocument {f : Document → Document}
    (hf : ∀ d : Document, d.Alike (f d)) : s.Keeps (s.onDocument root f) := by
  intro r c hc
  rw [get?_onDocument] at hc
  split at hc
  · obtain ⟨d, hd, rfl⟩ := Option.map_eq_some_iff.mp hc
    exact ⟨d, hd, hf d⟩
  · exact ⟨c, hc, .refl c⟩

theorem keeps_unlocked (s : Session) (held : Bool) (root : ViewId) (file : Option Path) :
    s.Keeps (s.unlocked held root file) :=
  keeps_of_documents (by rw [editor_unlocked])

theorem keeps_rehomed (s : Session) (marker : MarkerId) (home : Option MarkerHome) :
    s.Keeps (s.rehomed marker home) :=
  keeps_of_documents rfl

theorem keeps_overlaid (s : Session) (overlay : OverlayId) (home : OverlayHome) :
    s.Keeps (s.overlaid overlay home) :=
  keeps_of_documents rfl

theorem keeps_lifted (s : Session) (marker : MarkerId) (home : Option MarkerHome) :
    s.Keeps (s.lifted marker home) := by
  cases home with
  | none => exact .refl s
  | some home => exact keeps_onDocument fun _ => ⟨rfl, rfl⟩

theorem keeps_advancing (s : Session) (marker : MarkerId) (advances : Bool)
    (home : Option MarkerHome) : s.Keeps (s.advancing marker advances home) := by
  cases home with
  | none => exact .refl s
  | some home => exact keeps_onDocument fun _ => ⟨rfl, rfl⟩

theorem alike_readjustAll (d : Document) (as : List MarkerAdjustment) :
    d.Alike (as.foldl Document.readjust d) := by
  induction as generalizing d with
  | nil => exact .refl d
  | cons a as ih =>
      have hfirst : d.Alike (d.readjust a) := by
        rw [Document.readjust]
        split
        · exact .refl d
        · exact ⟨rfl, rfl⟩
      exact hfirst.trans (ih (d.readjust a))

/-- A move that names no root touches no text and no log. -/
theorem Move.keeps (h : Move none s t) : s.Keeps t := by
  cases h with
  | setLocks protocol => exact .refl s
  | setLimits limits => exact .refl s
  | setInhibit inhibit => exact .refl s
  | setReadOnly hv readOnly => exact keeps_of_documents rfl
  | setCurrent hv => exact keeps_of_documents rfl
  | addIndirect hv hb => exact keeps_onDocument fun _ => ⟨rfl, rfl⟩
  | removeIndirect hv hb => exact keeps_onDocument fun _ => ⟨rfl, rfl⟩
  | removeRoot hv hb halone hd hc =>
      intro r c hc
      rw [editor_edit, editor_unlocked, Editor.removeRoot] at hc
      simp only [Table.get?_erase] at hc
      split at hc
      · cases hc
      · exact ⟨c, hc, .refl c⟩
  | narrow hs hpq hq => exact keeps_onDocument fun _ => ⟨rfl, rfl⟩
  | widen hs => exact keeps_onDocument fun _ => ⟨rfl, rfl⟩
  | goto hs hlow hhigh => exact keeps_onDocument fun _ => ⟨rfl, rfl⟩
  | refused root path => exact .refl s
  | restore root start stop key value => exact .refl s
  | handler call => exact .refl s
  | readjust has => exact keeps_onDocument fun d => alike_readjustAll d _
  | setUnmodified hs =>
      refine (keeps_onDocument ?_).trans (keeps_unlocked _ _ _ _)
      exact fun _ => ⟨rfl, rfl⟩
  | setFile hs hfile hgrant =>
      refine Keeps.trans (Keeps.trans ?_ (keeps_onDocument ?_)) (keeps_unlocked _ _ _ _)
      · split
        · exact keeps_of_documents (by rw [editor_granted])
        · exact .refl s
      · exact fun _ => ⟨rfl, rfl⟩
  | makeMarker => exact keeps_of_documents rfl
  | placeMarker hu hs pos =>
      refine ((keeps_lifted s _ _).trans (keeps_onDocument ?_)).trans (keeps_rehomed _ _ _)
      exact fun _ => ⟨rfl, rfl⟩
  | detachMarker hu => exact (keeps_lifted s _ _).trans (keeps_rehomed _ _ _)
  | setAdvances hu advances => exact (keeps_advancing s _ _ _).trans (keeps_of_documents rfl)
  | makeOverlay hs p q front rear => exact keeps_onDocument fun _ => ⟨rfl, rfl⟩
  | setDetached ho p => exact keeps_of_documents rfl
  | setAttached hh hs ho p => exact keeps_onDocument fun _ => ⟨rfl, rfl⟩
  | deleteOverlay hh hs ho => exact keeps_onDocument fun _ => ⟨rfl, rfl⟩
  | deleteAllOverlays hs => exact keeps_onDocument fun _ => ⟨rfl, rfl⟩
  | moveDetached ho hs p q => exact keeps_onDocument fun _ => ⟨rfl, rfl⟩
  | moveAttached hh hold ho hs p q =>
      refine ((keeps_onDocument ?_).trans (keeps_onDocument ?_)).trans (keeps_overlaid _ _ _)
      · exact fun _ => ⟨rfl, rfl⟩
      · exact fun _ => ⟨rfl, rfl⟩

/-- A move that names a root leaves all other documents as they are. -/
theorem Move.others (h : Move (some root) s t) {r : ViewId} (hr : r ≠ root) :
    t.editor.documents.get? r = s.editor.documents.get? r := by
  cases h with
  | addRoot name => exact Table.get?_insert_of_ne _ _ hr
  | change hs hrange hvoid hgrant => rw [documents_changed hs.document, if_neg hr]
  | log hd hl => rw [get?_onDocument_of_ne _ hr]

/-- What a move does to the document that it names. -/
theorem Move.turn (h : Move (some root) s t) {c : Document}
    (hc : t.editor.documents.get? root = some c) :
    (∃ d, s.editor.documents.get? root = some d ∧ d.Turn c) ∨
      c.text = [] ∧ c.log = .empty := by
  cases h with
  | addRoot name =>
      rw [editor_edit, Editor.addRoot, Table.get?_insert_self] at hc
      cases hc
      exact Or.inr ⟨rfl, rfl⟩
  | change hs hrange hvoid hgrant =>
      rw [documents_changed hs.document, if_pos rfl] at hc
      cases hc
      rename_i c
      refine Or.inl ⟨_, hs.document, .changed (.refl _) c hrange hvoid ?_⟩
      exact ⟨by cases c <;> rfl, by cases c <;> rfl⟩
  | log hd hl =>
      rw [get?_onDocument_self hd] at hc
      cases hc
      exact Or.inl ⟨_, hd, .stepped rfl hl⟩

theorem Moves.untouched {roots : List ViewId} (h : Moves roots s t) (hr : root ∉ roots)
    {c : Document} (hc : t.editor.documents.get? root = some c) :
    ∃ d, s.editor.documents.get? root = some d ∧ d.Alike c := by
  induction h generalizing c with
  | refl => exact ⟨c, hc, .refl c⟩
  | @step roots mark s t u hmoves hmove ih =>
      cases mark with
      | none =>
          obtain ⟨b, hb, hbc⟩ := hmove.keeps root c hc
          obtain ⟨d, hd, hdb⟩ := ih hr hb
          exact ⟨d, hd, hdb.trans hbc⟩
      | some other =>
          have hne : root ≠ other := fun heq => hr (heq ▸ List.mem_cons_self)
          rw [hmove.others hne] at hc
          exact ih (fun hmem => hr (List.mem_cons_of_mem other hmem)) hc

/-- What an operation other than an undo does to a document is at most one turn. -/
theorem Leads.turn (h : s.Leads t) {c : Document} (hc : t.editor.documents.get? root = some c) :
    (∃ d, s.editor.documents.get? root = some d ∧ d.Turn c) ∨ c.text = [] ∧ c.log = .empty := by
  obtain ⟨roots, hn, hmoves⟩ := h
  induction hmoves generalizing c with
  | refl => exact Or.inl ⟨c, hc, .kept (.refl c)⟩
  | @step roots mark s t u hmoves hmove ih =>
      cases mark with
      | none =>
          obtain ⟨b, hb, hbc⟩ := hmove.keeps root c hc
          rcases ih hb hn with ⟨d, hd, hdb⟩ | ⟨htext, hlog⟩
          · exact Or.inl ⟨d, hd, hdb.alike_right hbc⟩
          · exact Or.inr ⟨hbc.text.trans htext, hbc.log.trans hlog⟩
      | some other =>
          obtain ⟨hother, hn⟩ := List.nodup_cons.mp hn
          by_cases hr : root = other
          · subst hr
            rcases hmove.turn hc with ⟨b, hb, hbc⟩ | hnew
            · obtain ⟨d, hd, hdb⟩ := hmoves.untouched hother hb
              exact Or.inl ⟨d, hd, hbc.alike_left hdb⟩
            · exact Or.inr hnew
          · rw [hmove.others hr] at hc
            exact ih hc hn

end Session

end Editing
