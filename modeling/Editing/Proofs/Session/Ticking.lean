import Editing.Proofs.Session.Enduring
import Editing.Proofs.Session.Sparing

/-!
# Ticks

The tick that counts the changes of a document never goes back, and a change of the text itself sets
the tick of the text to a value that the document did not have before. So two moments at which the
tick of the text is the same have the same text, and as long as a document counts as unmodified it
has the text that was declared unmodified last.
-/

namespace Editing

/-- The tick that counts all changes is ahead of the others. -/
structure Document.Ticked (d : Document) : Prop where
  save_le : d.saveTick ≤ d.tick
  chars_le : d.charsTick ≤ d.tick

/-- What becomes of a document: the text and its tick stay, or the text gets a new tick. -/
structure Document.Ages (d c : Document) : Prop where
  tick_le : d.tick ≤ c.tick
  chars : c.charsTick = d.charsTick ∧ c.text = d.text ∨ d.tick < c.charsTick

namespace Document

variable {b d c : Document}

namespace Ages

theorem trans (h : b.Ages d) (h' : d.Ages c) : b.Ages c where
  tick_le := Nat.le_trans h.tick_le h'.tick_le
  chars := by
    rcases h'.chars with ⟨hchars, htext⟩ | hlater
    · rcases h.chars with ⟨hchars', htext'⟩ | hlater
      · exact Or.inl ⟨hchars.trans hchars', htext.trans htext'⟩
      · exact Or.inr (hchars ▸ hlater)
    · exact Or.inr (Nat.lt_of_le_of_lt h.tick_le hlater)

theorem chars_le (h : d.Ages c) (hd : d.Ticked) : d.charsTick ≤ c.charsTick := by
  rcases h.chars with ⟨hchars, -⟩ | hlater
  · exact Nat.le_of_eq hchars.symm
  · exact Nat.le_trans hd.chars_le (Nat.le_of_lt hlater)

theorem text_eq (h : d.Ages c) (hd : d.Ticked) (heq : c.charsTick = d.charsTick) :
    c.text = d.text := by
  rcases h.chars with ⟨-, htext⟩ | hlater
  · exact htext
  · exact absurd hd.chars_le (Nat.not_le.mpr (heq ▸ hlater))

/-- Another text comes with higher ticks. -/
theorem raised (h : d.Ages c) (hd : d.Ticked) (hc : c.Ticked) (htext : c.text ≠ d.text) :
    d.tick < c.tick ∧ d.charsTick < c.charsTick := by
  rcases h.chars with ⟨-, heq⟩ | hlater
  · exact absurd heq htext
  · exact ⟨Nat.lt_of_lt_of_le hlater hc.chars_le, Nat.lt_of_le_of_lt hd.chars_le hlater⟩

end Ages

/-- What does not concern the text and the count of its changes. -/
theorem aged (htick : c.tick = d.tick) (hchars : c.charsTick = d.charsTick)
    (hsave : c.saveTick = d.saveTick) (htext : c.text = d.text) (h : d.Ticked) :
    c.Ticked ∧ d.Ages c :=
  ⟨⟨by rw [hsave, htick]; exact h.save_le, by rw [hchars, htick]; exact h.chars_le⟩,
    ⟨Nat.le_of_eq htick.symm, Or.inl ⟨hchars, htext⟩⟩⟩

theorem aged_apply (d : Document) (c : Change) (h : d.Ticked) :
    (d.apply c).Ticked ∧ d.Ages (d.apply c) := by
  have hsave := Nat.le_succ_of_le h.save_le
  cases c with
  | insert pos text =>
      exact ⟨⟨hsave, Nat.le_refl _⟩, ⟨Nat.le_succ _, Or.inr (Nat.lt_succ_self _)⟩⟩
  | delete start stop =>
      exact ⟨⟨hsave, Nat.le_refl _⟩, ⟨Nat.le_succ _, Or.inr (Nat.lt_succ_self _)⟩⟩
  | property start stop key value =>
      exact ⟨⟨hsave, Nat.le_succ_of_le h.chars_le⟩, ⟨Nat.le_succ _, Or.inl ⟨rfl, rfl⟩⟩⟩

theorem ages_onward : Document.Onward fun d c => d.Ticked → c.Ticked ∧ d.Ages c where
  refl _ h := aged rfl rfl rfl rfl h
  trans h h' hb := by
    obtain ⟨hd, hbd⟩ := h hb
    obtain ⟨hc, hdc⟩ := h' hd
    exact ⟨hc, hbd.trans hdc⟩
  mark _ _ h := aged rfl rfl rfl rfl h
  relog _ _ h := aged rfl rfl rfl rfl h
  apply d c _ h := by
    have hlocked : Ticked { d with locked := d.locked || d.wanted.isSome } ∧
        d.Ages { d with locked := d.locked || d.wanted.isSome } := aged rfl rfl rfl rfl h
    obtain ⟨hd, hsame⟩ := hlocked
    obtain ⟨hc, hages⟩ := aged_apply _ c hd
    exact ⟨hc, hsame.trans hages⟩
  save _ h := ⟨⟨Nat.le_refl _, h.chars_le⟩, ⟨Nat.le_refl _, Or.inl ⟨rfl, rfl⟩⟩⟩
  visit _ _ h := aged rfl rfl rfl rfl h
  place _ _ _ _ _ h := aged rfl rfl rfl rfl h
  put _ _ _ _ _ h := aged rfl rfl rfl rfl h
  erase _ _ h := aged rfl rfl rfl rfl h
  clear _ h := aged rfl rfl rfl rfl h

theorem empty_ticked : empty.Ticked := ⟨Nat.le_refl _, Nat.le_refl _⟩

end Document

/-! ## What becomes of documents along operations -/

namespace Editor

variable {Q : Document → Document → Prop} {allows : Effect → Prop} {e e' : Editor}

theorem descends_of_documents (hQ : ∀ d, Q d d) (hnext : e.nextView ≤ e'.nextView)
    (hdocuments : e'.documents = e.documents) : e.Descends Q e' :=
  ⟨hnext, fun _ c hc => Or.inl ⟨c, hdocuments ▸ hc, hQ c⟩⟩

/-- A relation between a document and what becomes of it that holds across what the effects that are
allowed do to a document. -/
theorem frame_descends (hplain : allows .plain) (hrefl : ∀ d, Q d d)
    (htrans : ∀ {b c d : Document}, Q b c → Q c d → Q b d)
    (hamends : ∀ {a : Effect} {d c : Document}, allows a → Document.Amends a d c → Q d c) :
    Session.Frame (Within fun e e' => e.Descends Q e') allows := by
  have hamend : ∀ {a : Effect}, allows a → ∀ (e : Editor) (root : ViewId)
      {f : Document → Document}, (∀ d, Document.Amends a d (f d)) →
      e.Descends Q { e with documents := e.documents.modify root f } := by
    intro a ha e root f hf
    refine ⟨Nat.le_refl _, fun r c hc => Or.inl ?_⟩
    rw [Table.get?_modify] at hc
    split at hc
    · obtain ⟨d, hd, rfl⟩ := Option.map_eq_some_iff.mp hc
      exact ⟨d, hd, hamends ha (hf d)⟩
    · exact ⟨c, hc, hrefl c⟩
  have hsame : ∀ {e e' : Editor}, e.nextView ≤ e'.nextView → e'.documents = e.documents →
      e.Descends Q e' := descends_of_documents hrefl
  constructor
  case trans => exact fun h h' => Descends.trans htrans h h'
  case besides =>
    exact fun hdocuments _ hcounters _ =>
      hsame (Nat.le_of_eq (congrArg Prod.fst hcounters).symm) hdocuments
  case plain => exact hplain
  case call => exact fun _ _ _ _ => hsame (Nat.le_refl _) rfl
  case amend => exact fun ha s root _ hf => hamend ha s.editor root hf
  case erase =>
    refine fun _ s root => ⟨Nat.le_refl _, fun r c hc => Or.inl ?_⟩
    rw [Session.editor_edit, Table.get?_erase] at hc
    split at hc
    · cases hc
    · exact ⟨c, hc, hrefl c⟩
  case rehouse => exact fun _ _ _ => hsame (Nat.le_refl _) rfl
  case makeRoot =>
    refine fun _ s name => ⟨Nat.le_succ _, fun root c hc => ?_⟩
    rw [Session.editor_edit, addRoot, Table.get?_insert] at hc
    split at hc
    · rename_i hr
      cases hc
      exact Or.inr ⟨Nat.le_of_eq hr.symm, hamends hplain (.mark .empty _)⟩
    · exact Or.inl ⟨c, hc, hrefl c⟩
  case makeIndirect =>
    intro _ s base place name
    have hseated := hamend hplain s.editor base fun d =>
      .mark d (d.addView s.editor.nextMarkers (d.extent place)).markers
    exact ⟨Nat.le_succ _, hseated.descent⟩
  case makeMarker => exact fun _ _ _ _ => hsame (Nat.le_refl _) rfl
  case makeOverlay => exact fun _ _ _ _ => hsame (Nat.le_refl _) rfl

/-- Documents keep the ticks at which they were declared unmodified. -/
def KeepsSaves (e e' : Editor) : Prop := e.Descends (fun d c => c.saveTick = d.saveTick) e'

/-- Only declaring a text unmodified marks its tick. -/
instance : Session.Frame (Within KeepsSaves) (· ≠ .save) := by
  refine frame_descends (by simp) (fun _ => rfl) (fun h h' => h'.trans h) ?_
  intro a d c ha hc
  cases hc with
  | apply _ c => exact d.saveTick_apply c
  | save => exact absurd rfl ha
  | _ => rfl

end Editor

theorem Op.effect_ne_save {o : Op} (ho : ∀ view, o ≠ .setUnmodified view) : o.effect ≠ .save := by
  intro heffect
  cases o with
  | setUnmodified view => exact ho view rfl
  | _ => cases heffect

namespace Session

variable {s t : Session} {view root : ViewId} {v : View} {d : Document} {o : Op}
  {starts later : List (Session × Op)} {passed : List Session}

/-! ## The text declared unmodified last -/

/-- The text of a root that an operation declares unmodified, if it does so. -/
def saves (root : ViewId) : Session × Op → Option Text
  | (s, .setUnmodified view) =>
      if s.editor.rootOf view = .ok root then
        (s.editor.documents.get? root).map Document.text
      else none
  | _ => none

/-- The text of a root that was declared unmodified last, or the empty text if none was. -/
def savedText (root : ViewId) (starts : List (Session × Op)) : Text :=
  (starts.reverse.findSome? (saves root)).getD []

theorem savedText_concat (root : ViewId) (starts : List (Session × Op)) (x : Session × Op) :
    savedText root (starts ++ [x]) = (saves root x).getD (savedText root starts) := by
  rw [savedText, savedText, List.reverse_concat, List.findSome?_cons]
  cases saves root x <;> rfl

theorem saves_of_ne (ho : ∀ view, o ≠ .setUnmodified view) (root : ViewId) (s : Session) :
    saves root (s, o) = none := by
  cases o with
  | setUnmodified view => exact absurd rfl (ho view)
  | _ => rfl

/-- Every document that counts as unmodified has the text that was declared unmodified last. -/
def Recalls (starts : List (Session × Op)) (t : Session) : Prop :=
  ∀ root d, t.editor.documents.get? root = some d → d.isModified = false →
    d.text = savedText root starts

/-- Every text that did not change since its tick was marked is the one that was declared unmodified
last, and none was yet for the roots to come. -/
structure Remembers (starts : List (Session × Op)) (t : Session) : Prop where
  ticked : t.Every Document.Ticked
  unchanged : ∀ root d, t.editor.documents.get? root = some d → d.charsTick ≤ d.saveTick →
    d.text = savedText root starts
  unused : ∀ root, t.editor.nextView ≤ root → savedText root starts = []

namespace Remembers

theorem recalls (h : t.Remembers starts) : t.Recalls starts := by
  intro root d hd hmodified
  have htick : d.tick ≤ d.saveTick := Nat.not_lt.mp (of_decide_eq_false hmodified)
  exact h.unchanged root d hd (Nat.le_trans (h.ticked root d hd).chars_le htick)


/-- Declaring nothing unmodified keeps what was declared. -/
theorem keep (h : s.Remembers starts) (hr : s.editor.Registry)
    (hages : s.editor.Descends (fun d c => d.Ticked → c.Ticked ∧ d.Ages c) t.editor)
    (hsaves : s.editor.KeepsSaves t.editor)
    (hkept : ∀ root, savedText root later = savedText root starts) : t.Remembers later where
  ticked root c hc := by
    rcases hages.descent root c hc with ⟨d, hd, hdc⟩ | ⟨-, hempty⟩
    · exact (hdc (h.ticked root d hd)).1
    · exact (hempty Document.empty_ticked).1
  unchanged root c hc hmarked := by
    rw [hkept]
    cases hd : s.editor.documents.get? root with
    | some d =>
        have hroot := hr.document_lt hd
        obtain ⟨d', hd', hdc⟩ := hages.later hroot hc
        obtain ⟨d'', hd'', hsave⟩ := hsaves.later hroot hc
        obtain rfl := Option.some.inj (hd.symm.trans hd')
        obtain rfl := Option.some.inj (hd.symm.trans hd'')
        have hticked := h.ticked root d hd
        have hages := (hdc hticked).2
        rw [hsave] at hmarked
        -- The tick of the text is not new, as the document was marked with a later one.
        have hchars : c.charsTick = d.charsTick := by
          rcases hages.chars with ⟨hchars, -⟩ | hlater
          · exact hchars
          · have hmark := hticked.save_le
            omega
        rw [hages.text_eq hticked hchars]
        exact h.unchanged root d hd (hchars ▸ hmarked)
    | none =>
        rcases hages.descent root c hc with ⟨d, hd', -⟩ | ⟨hnew, hempty⟩
        · rw [hd] at hd'
          cases hd'
        · rcases hsaves.descent root c hc with ⟨d, hd', -⟩ | ⟨-, hsave⟩
          · rw [hd] at hd'
            cases hd'
          · have hages := (hempty Document.empty_ticked).2
            have hchars : c.charsTick = Document.empty.charsTick :=
              Nat.le_zero.mp (Nat.le_trans hmarked (Nat.le_of_eq hsave))
            rw [hages.text_eq Document.empty_ticked hchars, h.unused root hnew]
            rfl
  unused root hroot := by
    rw [hkept]
    exact h.unused root (Nat.le_trans hages.numbered hroot)

theorem fresh (limits : Limits) (locks : Option LockProtocol) :
    (Session.fresh limits locks).Remembers [] where
  ticked _ _ hd := by cases hd
  unchanged _ _ hd := by cases hd
  unused _ _ := rfl

end Remembers

theorem after_setUnmodified_of_dead (h : s.editor.views.get? view = none) :
    s.after (.setUnmodified view) = s := by
  rw [after, Op.act, Act.run_quietly, Act.setUnmodified,
    Act.run_ask_bind_error (Editor.document_of_dead h)]

theorem editor_after_setUnmodified (hs : s.editor.Shows view v root d) :
    (s.after (.setUnmodified view)).editor =
      (s.onDocument root fun d => { d with saveTick := d.tick, locked := false }).editor := by
  rw [after, Op.act, Act.run_quietly, Act.setUnmodified, Act.run_ask_bind hs.document_eq,
    Act.run_ask_bind hs.rootOf_eq, Act.run_bind_ok (Act.run_changeDocument _ _ _),
    Act.run_unlockIf, editor_unlocked]

/-- A text that is declared unmodified is the one remembered for its root. -/
theorem Remembers.save (h : s.Remembers starts) (hr : s.editor.Registry) (view : ViewId) :
    (s.after (.setUnmodified view)).Remembers (starts ++ [(s, .setUnmodified view)]) := by
  rcases hr.dead_or_shows view with hdead | ⟨v, root, d, hs⟩
  · rw [after_setUnmodified_of_dead hdead]
    refine h.keep hr (Document.ages_onward.descends_refl _)
      (Editor.descends_of_documents (fun _ => rfl) (Nat.le_refl _) rfl) fun r => ?_
    rw [savedText_concat, saves, Editor.rootOf_of_dead hdead]
    rfl
  · have hsaved : ∀ r, savedText r (starts ++ [(s, .setUnmodified view)]) =
        if r = root then d.text else savedText r starts := by
      intro r
      rw [savedText_concat, saves, hs.rootOf_eq]
      by_cases hroot : r = root
      · rw [hroot, if_pos rfl, if_pos rfl, hs.document]
        rfl
      · rw [if_neg fun heq => hroot (Except.ok.inj heq).symm, if_neg hroot]
        rfl
    constructor
    · intro r c hc
      rw [editor_after_setUnmodified hs, get?_onDocument] at hc
      split at hc
      · obtain ⟨b, hb, rfl⟩ := Option.map_eq_some_iff.mp hc
        exact ⟨Nat.le_refl _, (h.ticked r b hb).chars_le⟩
      · exact h.ticked r c hc
    · intro r c hc hmarked
      rw [editor_after_setUnmodified hs, get?_onDocument] at hc
      rw [hsaved]
      split at hc
      · rename_i hroot
        rw [hroot, hs.document] at hc
        cases hc
        rw [if_pos hroot]
      · rename_i hroot
        rw [if_neg hroot]
        exact h.unchanged r c hc hmarked
    · intro r hroot
      rw [editor_after_setUnmodified hs] at hroot
      rw [hsaved, if_neg (Nat.ne_of_gt (Nat.lt_of_lt_of_le (hr.document_lt hs.document) hroot))]
      exact h.unused r hroot

theorem Remembers.op (h : s.Remembers starts) (hrest : s.AtRest) (ht : t ∈ s.moments o) :
    t.Remembers (starts ++ [(s, o)]) := by
  by_cases ho : ∃ view, o = .setUnmodified view
  · obtain ⟨view, rfl⟩ := ho
    obtain rfl := List.mem_singleton.mp ht
    exact h.save hrest.wellFormed.registry view
  · have ho : ∀ view, o ≠ .setUnmodified view := fun view hview => ho ⟨view, hview⟩
    have hsaves := respects_moments (R := Editor.Within Editor.KeepsSaves) (Op.effect_ne_save ho) ht
    refine h.keep hrest.wellFormed.registry (Document.ages_onward.onward.op hrest ht) hsaves
      fun root => ?_
    rw [savedText_concat, saves_of_ne ho]
    rfl

/-- Wherever operations and changes of the current view lead, the texts declared unmodified last are
remembered. -/
theorem Walk.remembers (hwalk : s.Walk starts passed t) (hrest : s.AtRest)
    (h : s.Remembers []) : t.Remembers starts := by
  induction hwalk with
  | rest => exact h
  | op hwalk o ih => exact ih.op (hwalk.atRest hrest) (after_mem_moments _ o)
  | switch hwalk ht ih =>
      have hregistry := (hwalk.atRest hrest).wellFormed.registry
      rcases ht with rfl | ⟨view, v, -, rfl⟩
      · exact ih
      · have hsame := Document.ages_onward.descends_refl
        exact ih.keep hregistry (Document.ages_onward.edit (hsame _) fun _ => ⟨rfl, rfl⟩)
          (Editor.descends_of_documents (fun _ => rfl) (Nat.le_refl _) rfl) fun _ => rfl

end Session

/-! ## Changes of properties -/

/-- The view through which an operation notes a change of a property, if it does so. -/
def Op.viewNoted : Op → Option ViewId
  | .noteProperty view .. | .notePropertyRaw view .. => some view
  | _ => none

theorem Act.makeChange_property {s : Session} {view root : ViewId} {v : View} {d : Document}
    (hs : s.editor.Shows view v root d) {start stop : Nat} {key : String} {value : Value}
    (h : ((makeChange view (.property start stop key value)).run s).1 = .ok ()) :
    ∃ c, ((makeChange view (.property start stop key value)).run s).2.editor.document view =
        .ok c ∧
      c.tick = d.tick + 1 ∧ c.charsTick = d.charsTick ∧ c.text = d.text ∧
        c.saveTick = d.saveTick := by
  rcases makeChange_cases hs (.property start stop key value) with
    ⟨e, hrun⟩ | ⟨path, reason, hrun⟩ | ⟨-, -, hrun⟩
  · rw [hrun] at h
    cases h
  · rw [hrun] at h
    cases h
  · rw [hrun]
    exact ⟨_, (Session.shows_revised hs).document_eq, rfl, rfl, rfl, rfl⟩

theorem Act.run_noted {s : Session} {o : Op} {view : ViewId} (ho : o.viewNoted = some view)
    {reply : Reply} (h : (o.act.run s).1 = .ok reply) :
    ∃ start stop key value, o.act.run s =
      (Op.quietly (makeChange view (.property start stop key value))).run s := by
  cases o with
  | notePropertyRaw _ start stop key value =>
      cases ho
      exact ⟨start, stop, key, value, rfl⟩
  | noteProperty _ pos length key value =>
      cases ho
      refine ⟨pos, pos + length, key, value, ?_⟩
      rw [Op.act, run_quietly, run_noteProperty] at h ⊢
      split at h
      · cases h
      · rename_i hlength
        rw [if_neg hlength, run_quietly]
  | _ => cases ho

/-- A noted change of a property raises the tick of all changes and nothing else. -/
theorem Session.ticks_noted {s : Session} (hr : s.editor.Registry) {o : Op} {view : ViewId}
    (ho : o.viewNoted = some view) {reply : Reply} (h : (o.act.run s).1 = .ok reply) :
    ∃ d c, s.editor.document view = .ok d ∧ (s.after o).editor.document view = .ok c ∧
      c.tick = d.tick + 1 ∧ c.charsTick = d.charsTick ∧ c.text = d.text ∧
        c.saveTick = d.saveTick := by
  obtain ⟨start, stop, key, value, hrun⟩ := Act.run_noted ho h
  rw [hrun, Act.run_quietly] at h
  rw [after, hrun, Act.run_quietly]
  rcases hr.dead_or_shows view with hdead | ⟨v, root, d, hs⟩
  · rw [Act.makeChange, Act.run_ask_bind_error (Editor.document_of_dead hdead)] at h
    cases h
  · cases hchange : ((Act.makeChange view (.property start stop key value)).run s).1 with
    | error e =>
        rw [hchange] at h
        cases h
    | ok _ =>
        obtain ⟨c, hc, hticks⟩ := Act.makeChange_property hs hchange
        exact ⟨d, c, hs.document_eq, hc, hticks⟩

/-! ## Runs -/

namespace Session

/-- At every moment of a run, within an undo too, no tick of a live root is ahead of the one that
counts all changes. From one moment to a later one the ticks do not fall, both rise if the text is
another one, and if the tick of the text is the same, the text was the same all the time between.
Noting a property raises only the tick of all changes. Whenever a text counts as unmodified it is
the one declared unmodified last by the operations begun so far. -/
theorem unmodified_unchanged (limits : Limits) (locks : Option LockProtocol) (steps : List Step) :
    let start := fresh limits locks
    let run := takeAll steps start
    let moments := start :: runMoments steps start
    let starts := runStarts steps start
    run.2 ∈ moments ∧
    (∀ t ∈ moments, ∀ root ∈ t.editor.rootList, ∃ d, t.editor.documents.get? root = some d ∧
      d.saveTick ≤ d.tick ∧ d.charsTick ≤ d.tick) ∧
    (∀ earlier r between t later root d c, moments = earlier ++ r :: (between ++ t :: later) →
      r.editor.documents.get? root = some d → t.editor.documents.get? root = some c →
      d.tick ≤ c.tick ∧ d.charsTick ≤ c.charsTick ∧
      (c.text ≠ d.text → d.tick < c.tick ∧ d.charsTick < c.charsTick) ∧
      (c.charsTick = d.charsTick → c.text = d.text ∧
        ∀ m ∈ between, ∃ b, m.editor.documents.get? root = some b ∧ b.text = d.text)) ∧
    (∀ t ∈ moments, ∀ o view reply, Op.viewNoted o = some view →
      (o.act.run t).1 = .ok reply →
      ∃ d c, t.editor.document view = .ok d ∧ (t.after o).editor.document view = .ok c ∧
        c.tick = d.tick + 1 ∧ c.charsTick = d.charsTick ∧ c.text = d.text ∧
          c.saveTick = d.saveTick) ∧
    (∀ earlier s o later, starts = earlier ++ (s, o) :: later →
      s.Recalls earlier ∧ ∀ t ∈ s.moments o, t.Recalls (earlier ++ [(s, o)])) ∧
    run.2.Recalls starts := by
  intro start run moments starts
  have hrest := fresh_atRest limits locks
  have honward := Document.ages_onward.onward
  have hwalk := walk_all steps start hrest
  have hregistry : ∀ t ∈ moments, t.editor.Registry := fun t ht =>
    (settled_lasting.moments steps start hrest
      ⟨hrest.wellFormed.registry, hrest.wellFormed.marking⟩ t ht).1
  have hticked : ∀ t ∈ moments, t.Every Document.Ticked := fun t ht root d hd =>
    ((honward.run_start steps start hrest t ht).of_fresh hd Document.empty_ticked).1
  refine ⟨hwalk.end_mem, fun t ht root hroot => ?_, ?_, ?_, ?_, ?_⟩
  · obtain ⟨v, hv, hb⟩ := Act.mem_rootList.mp hroot
    obtain ⟨d, hd⟩ := (hregistry t ht).owned root v hv hb
    have hd' := hticked t ht root d hd
    exact ⟨d, hd, hd'.save_le, hd'.chars_le⟩
  · intro earlier r between t later root d c hsplit hd hc
    have hpairs := honward.run steps start hrest
    rw [show start :: runMoments steps start = earlier ++ r :: (between ++ t :: later) from hsplit]
      at hpairs
    obtain ⟨hfrom, hpairs⟩ := List.pairwise_cons.mp (List.pairwise_append.mp hpairs).2.1
    have hto := (List.pairwise_append.mp hpairs).2.2
    have ht : t ∈ between ++ t :: later := List.mem_append_right _ List.mem_cons_self
    have hr : r ∈ moments := hsplit ▸ List.mem_append_right _ List.mem_cons_self
    have hroot : root < r.editor.nextView := (hregistry r hr).document_lt hd
    have hdticked := hticked r hr root d hd
    obtain ⟨d', hd', hdc⟩ := (hfrom t ht).later hroot hc
    obtain rfl := Option.some.inj (hd.symm.trans hd')
    obtain ⟨hcticked, hages⟩ := hdc hdticked
    refine ⟨hages.tick_le, hages.chars_le hdticked, hages.raised hdticked hcticked,
      fun hchars => ⟨hages.text_eq hdticked hchars, fun m hm => ?_⟩⟩
    -- The root had a document at every moment between, as it would not have come back.
    have hrm := hfrom m (List.mem_append_left _ hm)
    obtain ⟨b, hb, hbc⟩ := (hto m hm t List.mem_cons_self).later
      (Nat.lt_of_lt_of_le hroot hrm.numbered) hc
    obtain ⟨d', hd', hdb⟩ := hrm.later hroot hb
    obtain rfl := Option.some.inj (hd.symm.trans hd')
    obtain ⟨hbticked, hdb⟩ := hdb hdticked
    have hle := (hbc hbticked).2.chars_le hbticked
    have heq : b.charsTick = d.charsTick :=
      Nat.le_antisymm (hchars ▸ hle) (hdb.chars_le hdticked)
    exact ⟨b, hb, hdb.text_eq hdticked heq⟩
  · intro t ht o view reply ho h
    exact ticks_noted (hregistry t ht) ho h
  · intro earlier s o later hsplit
    obtain ⟨passed, hcut⟩ := hwalk.cut hsplit
    have hs := hcut.remembers hrest (.fresh limits locks)
    exact ⟨hs.recalls, fun t ht => (hs.op (hcut.atRest hrest) ht).recalls⟩
  · exact (hwalk.remembers hrest (.fresh limits locks)).recalls

/-- A run that declares a text unmodified, changes it, takes that back, declares it unmodified
again, and notes a property. -/
def savedTwice : List Step :=
  [.op (.createRoot "v"), .op (.insert 0 ['a', 'b']), .op (.setUnmodified 0),
    .withCurrent 0 [.op (.closeGroup 0), .op (.insert 0 ['c']), .op (.undo 0)] none,
    .op (.setUnmodified 0), .op (.goto 0 1), .op (.noteProperty 0 0 1 "face" .nil)]

theorem savedTwice_unchanged :
    (∃ r t d c,
      [r, t] <+: (fresh .default none :: runMoments savedTwice (fresh .default none)).drop 8 ∧
      r.editor.documents.get? 0 = some d ∧ t.editor.documents.get? 0 = some c ∧
      d.tick < c.tick ∧ d.charsTick < c.charsTick) ∧
    (∃ s o d, (runStarts savedTwice (fresh .default none))[7]? = some (s, o) ∧
      s.editor.documents.get? 0 = some d ∧
      d.text = savedText 0 ((runStarts savedTwice (fresh .default none)).take 7)) ∧
    (∃ d c, (takeAll savedTwice (fresh .default none)).2.editor.document 0 = .ok d ∧
      ((takeAll savedTwice (fresh .default none)).2.after
        (.notePropertyRaw 0 0 2 "face" .nil)).editor.document 0 = .ok c ∧
      c.tick = d.tick + 1 ∧ c.charsTick = d.charsTick) := by
  obtain ⟨hlast, -, hlater, hnoted, hrecalls, -⟩ := unmodified_unchanged .default none savedTwice
  refine ⟨?_, ?_, ?_⟩
  · have hlength : 9 < (fresh .default none ::
        runMoments savedTwice (fresh .default none)).length := by decide +kernel
    have htext : (((fresh .default none ::
        runMoments savedTwice (fresh .default none))[8].editor.documents.get? 0).map
          Document.text) = some ['a', 'b', 'c'] := by decide +kernel +revert
    have htext' : (((fresh .default none ::
        runMoments savedTwice (fresh .default none))[9].editor.documents.get? 0).map
          Document.text) = some ['a', 'b'] := by decide +kernel +revert
    have hdrop : (fresh .default none :: runMoments savedTwice (fresh .default none)).drop 8 =
        (fresh .default none :: runMoments savedTwice (fresh .default none))[8] ::
          (fresh .default none :: runMoments savedTwice (fresh .default none))[9] ::
            (fresh .default none :: runMoments savedTwice (fresh .default none)).drop 10 := by
      rw [List.drop_eq_getElem_cons (Nat.lt_of_succ_lt hlength), List.drop_eq_getElem_cons hlength]
    obtain ⟨d, hd, htext⟩ := Option.map_eq_some_iff.mp htext
    obtain ⟨c, hc, htext'⟩ := Option.map_eq_some_iff.mp htext'
    obtain ⟨-, -, hraised, -⟩ := hlater _ _ [] _ _ 0 d c
      ((List.take_append_drop 8 _).symm.trans (congrArg _ hdrop)) hd hc
    refine ⟨_, _, d, c, hdrop ▸ ⟨_, rfl⟩, hd, hc, hraised ?_⟩
    rw [htext, htext']
    decide
  · have hlength : 7 < (runStarts savedTwice (fresh .default none)).length := by decide +kernel
    have hmodified : ((runStarts savedTwice (fresh .default none))[7].1.editor.documents.get?
        0).map Document.isModified = some false := by decide +kernel +revert
    have hsplit : runStarts savedTwice (fresh .default none) =
        (runStarts savedTwice (fresh .default none)).take 7 ++
          (runStarts savedTwice (fresh .default none))[7] ::
            (runStarts savedTwice (fresh .default none)).drop 8 := by
      rw [← List.drop_eq_getElem_cons hlength, List.take_append_drop]
    obtain ⟨d, hd, hmodified⟩ := Option.map_eq_some_iff.mp hmodified
    exact ⟨_, _, d, List.getElem?_eq_getElem hlength, hd,
      (hrecalls _ _ _ _ hsplit).1 0 d hd hmodified⟩
  · obtain ⟨d, c, hd, hc, htick, hchars, -⟩ :=
      hnoted _ hlast (.notePropertyRaw 0 0 2 "face" .nil) 0 .done rfl
        (Act.run_quietly_ok_iff.mpr (by decide +kernel))
    exact ⟨d, c, hd, hc, htick, hchars⟩

end Session

end Editing
