import Editing.Proofs.History.Keeping
import Editing.Proofs.Session.Roster
import Editing.Proofs.Session.Truncated

/-!
# Cutting all logs back

Without a handler a truncation asks nothing of the rest of the session but its limits, and does
nothing but cut one log back. So what becomes of the logs of several roots does not depend on the
order in which they are truncated, and what they have been cut back to is not cut again.
-/

namespace Editing

namespace UndoLog

variable {l : UndoLog} {limits : Limits}

theorem truncate_of_unhandled (hs : l.suspended = false) (h : limits.handler = none) :
    l.truncate limits = ⟨.ok (l.cutBack limits.soft limits.strong).1,
      (l.cutBack limits.soft limits.strong).2, []⟩ := by
  obtain ⟨-, -, hcalled⟩ := calls_truncate hs limits
  refine truncate_of_uncalled hs ?_
  by_contra hcalls
  have hsome := (hcalled.mp hcalls).1
  rw [h] at hsome
  cases hsome

/-- What a log has been cut back to is not cut again. -/
theorem WellFormed.cutBack_again (hl : l.WellFormed) (hs : l.suspended = false) {soft strong : Nat}
    (hlt : soft < strong) :
    (l.cutBack soft strong).2.cutBack soft strong = (.unchanged, (l.cutBack soft strong).2) := by
  let limits : Limits := ⟨soft, strong, none, none, hlt⟩
  have hfirst : l.truncate limits =
      ⟨.ok (l.cutBack soft strong).1, (l.cutBack soft strong).2, []⟩ :=
    truncate_of_unhandled hs rfl
  have hcalls : (l.truncate limits).calls = [] := by rw [hfirst]
  have hs' : (l.cutBack soft strong).2.suspended = false :=
    (CutTo.cutBack l soft strong).suspended_eq.trans hs
  have hsecond : (l.cutBack soft strong).2.truncate limits =
      ⟨.ok ((l.cutBack soft strong).2.cutBack soft strong).1,
        ((l.cutBack soft strong).2.cutBack soft strong).2, []⟩ :=
    truncate_of_unhandled hs' rfl
  have hagain := hl.truncate_again hs hcalls
  rw [hfirst, hsecond] at hagain
  exact Prod.ext (Except.ok.inj hagain.1) hagain.2

end UndoLog

theorem Editor.mem_rootList_iff {e : Editor} {root : ViewId} :
    root ∈ e.rootList ↔ e.baseOf root = .ok none := by
  rw [Act.mem_rootList]
  constructor
  · rintro ⟨v, hv, hbase⟩
    rw [baseOf_of_get hv, hbase]
  · exact live_of_baseOf

/-- The document with its log cut back to limits. -/
def Document.cut (limits : Limits) (d : Document) : Document :=
  d.relogged (d.log.cutBack limits.soft limits.strong).2

namespace Session

variable {s t : Session} {root : ViewId} {roots later : List ViewId} {d : Document}

/-- What cutting the log of a root back comes to. -/
def cutting (s : Session) (root : ViewId) : Truncation :=
  match s.editor.documents.get? root with
  | some d => (d.log.cutBack s.editor.limits.soft s.editor.limits.strong).1
  | none => .unchanged

/-- What cutting the logs of some roots back comes to, with the roots. -/
def cuttings (s : Session) (roots : List ViewId) : List (ViewId × Truncation) :=
  roots.map fun root => (root, s.cutting root)

/-- The session with the logs of some roots cut back, each by itself. -/
def cutAll (s : Session) (roots : List ViewId) : Session :=
  s.edit fun e => { e with
    documents := e.documents.mapEntries fun root d => if root ∈ roots then d.cut e.limits else d }

/-- The session apart from all undo logs. -/
def logless (s : Session) : Session :=
  s.edit fun e => { e with documents := e.documents.map (·.relogged .empty) }

theorem map_fst_cuttings (s : Session) (roots : List ViewId) :
    (s.cuttings roots).map Prod.fst = roots := by
  rw [cuttings, List.map_map]
  exact List.map_id roots

theorem mem_cuttings {outcome : Truncation} :
    (root, outcome) ∈ s.cuttings roots ↔ root ∈ roots ∧ outcome = s.cutting root := by
  rw [cuttings, List.mem_map]
  constructor
  · rintro ⟨r, hr, heq⟩
    cases heq
    exact ⟨hr, rfl⟩
  · rintro ⟨hr, rfl⟩
    exact ⟨root, hr, rfl⟩

theorem get?_cutAll (s : Session) (roots : List ViewId) (root : ViewId) :
    (s.cutAll roots).editor.documents.get? root =
      (s.editor.documents.get? root).map fun d =>
        if root ∈ roots then d.cut s.editor.limits else d :=
  Table.get?_mapEntries _ _ _

theorem get?_cutAll_of_mem (s : Session) (h : root ∈ roots) :
    (s.cutAll roots).editor.documents.get? root =
      (s.editor.documents.get? root).map (·.cut s.editor.limits) := by
  simp only [get?_cutAll, if_pos h]

theorem get?_cutAll_of_not_mem (s : Session) (h : root ∉ roots) :
    (s.cutAll roots).editor.documents.get? root = s.editor.documents.get? root := by
  simp only [get?_cutAll, if_neg h, Option.map_id']

theorem cutting_cutAll_of_not_mem (s : Session) (h : root ∉ roots) :
    (s.cutAll roots).cutting root = s.cutting root := by
  rw [cutting, get?_cutAll_of_not_mem s h]
  rfl

/-- The session apart from its documents. -/
def bare (s : Session) : Session := s.edit fun e => { e with documents := .empty }

theorem eq_of_bare (hbare : t.bare = s.bare)
    (h : ∀ root, t.editor.documents.get? root = s.editor.documents.get? root) : t = s := by
  have hdocuments := Table.ext_get? h
  calc
    t = ⟨{ t.bare.editor with documents := t.editor.documents }, t.bare.locks, t.bare.trace⟩ := rfl
    _ = ⟨{ s.bare.editor with documents := s.editor.documents }, s.bare.locks, s.bare.trace⟩ := by
      rw [hbare, hdocuments]
    _ = s := rfl

theorem cutAll_nil (s : Session) : s.cutAll [] = s := by
  apply eq_of_bare
  · rfl
  · exact fun root => get?_cutAll_of_not_mem s List.not_mem_nil

/-- It does not matter in which order logs are cut back. -/
theorem cutAll_congr (s : Session) (h : ∀ root, root ∈ later ↔ root ∈ roots) :
    s.cutAll later = s.cutAll roots := by
  apply eq_of_bare
  · rfl
  · intro root
    rw [get?_cutAll, get?_cutAll]
    simp only [h]

theorem cutAll_cons (s : Session) (h : root ∉ roots) :
    (s.cutAll [root]).cutAll roots = s.cutAll (root :: roots) := by
  apply eq_of_bare
  · rfl
  · intro r
    by_cases hr : r ∈ roots
    · have hne : r ∉ [root] := fun hmem => h (List.mem_singleton.mp hmem ▸ hr)
      rw [get?_cutAll_of_mem _ hr, get?_cutAll_of_not_mem s hne,
        get?_cutAll_of_mem s (List.mem_cons_of_mem root hr)]
      rfl
    · rw [get?_cutAll_of_not_mem _ hr]
      by_cases heq : r = root
      · subst heq
        rw [get?_cutAll_of_mem s List.mem_cons_self, get?_cutAll_of_mem s List.mem_cons_self]
      · have hne : r ∉ root :: roots := List.not_mem_cons_of_ne_of_not_mem heq hr
        rw [get?_cutAll_of_not_mem s hne, get?_cutAll_of_not_mem s (by rwa [List.mem_singleton])]

/-- Cutting logs back does nothing to the session but to its logs. -/
theorem logless_cutAll (s : Session) (roots : List ViewId) :
    (s.cutAll roots).logless = s.logless := by
  apply eq_of_bare
  · rfl
  · intro root
    change ((s.cutAll roots).editor.documents.map _).get? root =
      (s.editor.documents.map _).get? root
    rw [Table.get?_map, Table.get?_map, get?_cutAll, Option.map_map]
    congr 1
    funext d
    rw [Function.comp_apply]
    split
    · rfl
    · rfl

/-- What has been cut back stays as it is when it is cut back again. -/
theorem cutAll_again (h : s.editor.WellFormed) (roots : List ViewId) :
    (s.cutAll roots).cutAll roots = s.cutAll roots ∧
      ∀ root ∈ roots, (s.cutAll roots).cutting root = .unchanged := by
  have hagain : ∀ root d, s.editor.documents.get? root = some d →
      (d.cut s.editor.limits).log.cutBack s.editor.limits.soft s.editor.limits.strong =
        (.unchanged, (d.cut s.editor.limits).log) := by
    intro root d hd
    have hadmits := h.admits hd
    exact hadmits.log.cutBack_again hadmits.takes s.editor.limits.soft_lt_strong
  constructor
  · apply eq_of_bare
    · rfl
    · intro root
      by_cases hr : root ∈ roots
      · rw [get?_cutAll_of_mem _ hr, get?_cutAll_of_mem s hr, Option.map_map]
        cases hd : s.editor.documents.get? root with
        | none => rfl
        | some d =>
            have hlog := congrArg Prod.snd (hagain root d hd)
            exact congrArg (fun l => some ((d.cut s.editor.limits).relogged l)) hlog
      · rw [get?_cutAll_of_not_mem _ hr]
  · intro root hr
    rw [cutting, get?_cutAll_of_mem s hr]
    cases hd : s.editor.documents.get? root with
    | none => rfl
    | some d => exact congrArg Prod.fst (hagain root d hd)

/-! ## Truncations one after the other -/

theorem run_truncateUndo_of_unhandled (h : s.editor.WellFormed)
    (hs : s.editor.limits.handler = none) (hroot : s.editor.baseOf root = .ok none) :
    (Act.truncateUndo root).run s = (.ok (s.cutting root), s.cutAll [root]) := by
  obtain ⟨v, hv, hbase⟩ := Editor.live_of_baseOf hroot
  obtain ⟨d, hd⟩ := h.registry.owned root v hv hbase
  have hshows : s.editor.Shows root v root d := ⟨hv, by rw [hbase]; rfl, hd⟩
  have hcut : s.truncated root (d.log.truncate s.editor.limits) = s.cutAll [root] := by
    rw [UndoLog.truncate_of_unhandled (h.admits hd).takes hs]
    apply eq_of_bare
    · rfl
    · intro r
      change (s.relogged root _).editor.documents.get? r = _
      by_cases hr : r = root
      · subst hr
        rw [relogged, get?_onDocument_self hd, get?_cutAll_of_mem s List.mem_cons_self, hd]
        rfl
      · rw [relogged, get?_onDocument_of_ne _ hr,
          get?_cutAll_of_not_mem s (by rwa [List.mem_singleton])]
  rw [Act.run_truncateUndo h hshows, hcut, UndoLog.truncate_of_unhandled (h.admits hd).takes hs,
    cutting, hd]

theorem run_truncateUndo_op (h : s.editor.WellFormed) (hs : s.editor.limits.handler = none)
    (hroot : s.editor.baseOf root = .ok none) :
    (Op.truncateUndo root).act.run s = (.ok (.truncation (s.cutting root)), s.cutAll [root]) := by
  rw [Op.act, Act.run_map, run_truncateUndo_of_unhandled h hs hroot]
  rfl

theorem Reachable.cut (h : s.Reachable) (hs : s.editor.limits.handler = none)
    (hroot : s.editor.baseOf root = .ok none) : (s.cutAll [root]).Reachable := by
  have hafter := h.after (.truncateUndo root)
  rwa [Session.after, run_truncateUndo_op h.atRest.wellFormed hs hroot] at hafter

/-- By what the logs of later roots are cut back does not depend on those cut back before. -/
theorem run_truncateAll_of_unhandled (h : s.Reachable) (hs : s.editor.limits.handler = none)
    (hn : roots.Nodup) (hroots : ∀ root ∈ roots, s.editor.baseOf root = .ok none) :
    (Act.truncateAll roots).run s = (.ok (s.cuttings roots), s.cutAll roots) := by
  induction roots generalizing s with
  | nil =>
      rw [cutAll_nil]
      rfl
  | cons root roots ih =>
      obtain ⟨hnew, hn⟩ := List.nodup_cons.mp hn
      have hroot := hroots root List.mem_cons_self
      have hfirst := run_truncateUndo_of_unhandled h.atRest.wellFormed hs hroot
      have hrest := ih (h.cut hs hroot) hs hn fun r hr => hroots r (List.mem_cons_of_mem root hr)
      -- The logs of the later roots are still as they were.
      have hsame : (s.cutAll [root]).cuttings roots = s.cuttings roots := by
        apply List.map_congr_left
        intro r hr
        have hne : r ∉ [root] := by
          rw [List.mem_singleton]
          exact fun heq => hnew (heq ▸ hr)
        rw [cutting_cutAll_of_not_mem s hne]
      rw [Act.truncateAll, Act.run_bind_ok hfirst, Act.run_bind_ok hrest, Act.run_pure,
        cutAll_cons s hnew, hsame, cuttings, cuttings, List.map_cons]

/-- Truncating some roots, if it succeeds, is truncating one after the other. -/
theorem afterAll_of_truncateAll {outcomes : List (ViewId × Truncation)}
    (h : (Act.truncateAll roots).run s = (.ok outcomes, t)) :
    s.afterAll (roots.map .truncateUndo) = t := by
  induction roots generalizing s outcomes with
  | nil => exact congrArg Prod.snd h
  | cons root roots ih =>
      obtain ⟨outcome, u, hfirst, h⟩ := Act.exists_of_bind h
      obtain ⟨rest, r, hrest, h⟩ := Act.exists_of_bind h
      obtain rfl : r = t := congrArg Prod.snd h
      have hafter : s.after (.truncateUndo root) = u := by
        rw [after, Op.act, Act.run_map, hfirst]
      rw [List.map_cons, afterAll, List.foldl_cons, hafter]
      exact ih hrest

theorem afterAll_truncateUndos (h : s.Reachable) (hs : s.editor.limits.handler = none)
    (hn : roots.Nodup) (hroots : ∀ root ∈ roots, s.editor.baseOf root = .ok none) :
    s.afterAll (roots.map .truncateUndo) = s.cutAll roots :=
  afterAll_of_truncateAll (run_truncateAll_of_unhandled h hs hn hroots)

/-- A root is truncated after others as it would be before them. -/
theorem truncateUndo_in_turn (h : s.Reachable) (hs : s.editor.limits.handler = none)
    {earlier : List ViewId} (hn : (earlier ++ root :: later).Nodup)
    (hroots : ∀ r ∈ earlier ++ root :: later, s.editor.baseOf r = .ok none) :
    ((Op.truncateUndo root).act.run (s.afterAll (earlier.map .truncateUndo))).1 =
      .ok (.truncation (s.cutting root)) := by
  obtain ⟨hfirst, -, hapart⟩ := List.nodup_append.mp hn
  have hearlier : s.afterAll (earlier.map .truncateUndo) = s.cutAll earlier :=
    afterAll_truncateUndos h hs hfirst fun r hr => hroots r (List.mem_append_left _ hr)
  have hnew : root ∉ earlier := fun hmem => hapart root hmem root List.mem_cons_self rfl
  have hroot : s.editor.baseOf root = .ok none :=
    hroots root (List.mem_append_right _ List.mem_cons_self)
  have hreachable := h.afterAll (earlier.map .truncateUndo)
  rw [hearlier] at hreachable ⊢
  rw [run_truncateUndo_op hreachable.atRest.wellFormed hs hroot, cutting_cutAll_of_not_mem s hnew]

/-! ## Reclaiming -/

theorem run_reclaim_of_unhandled (h : s.Reachable) (hs : s.editor.limits.handler = none) :
    Op.reclaim.act.run s =
      (.ok (.truncations (s.cuttings s.editor.rootList)), s.cutAll s.editor.rootList) := by
  have hrun := run_truncateAll_of_unhandled h hs (Act.nodup_rootList s.editor)
    fun root hroot => Editor.mem_rootList_iff.mp hroot
  rw [Op.act, Act.run_map, Act.reclaim, Act.run_bind_ok (Act.run_get s), hrun]
  rfl

theorem run_reclaim_again (h : s.Reachable) (hs : s.editor.limits.handler = none) :
    Op.reclaim.act.run (s.after .reclaim) =
      (.ok (.truncations ((s.cuttings s.editor.rootList).map fun x => (x.1, .unchanged))),
        s.after .reclaim) := by
  obtain ⟨hsame, hunchanged⟩ := cutAll_again h.atRest.wellFormed s.editor.rootList
  have hreachable := h.after .reclaim
  have hafter : s.after .reclaim = s.cutAll s.editor.rootList :=
    congrArg Prod.snd (run_reclaim_of_unhandled h hs)
  rw [hafter] at hreachable ⊢
  have hcuttings : (s.cutAll s.editor.rootList).cuttings s.editor.rootList =
      (s.cuttings s.editor.rootList).map fun x => (x.1, .unchanged) := by
    rw [cuttings, cuttings, List.map_map]
    exact List.map_congr_left fun root hr => Prod.ext rfl (hunchanged root hr)
  have hagain := run_reclaim_of_unhandled hreachable hs
  change _ = (Except.ok (Reply.truncations ((s.cutAll s.editor.rootList).cuttings
    s.editor.rootList)), (s.cutAll s.editor.rootList).cutAll s.editor.rootList) at hagain
  rw [hagain, hcuttings, hsame]

/-- Without a handler, reclaiming truncates the log of every live root, oldest root first, each as
if it were truncated alone. So the roots may as well be truncated one by one in any order, with the
same answers. Nothing else changes, and reclaiming again finds nothing to cut. -/
theorem reclaim_truncates_each_root (h : s.Reachable) (hs : s.editor.limits.handler = none) :
    let t := s.after .reclaim
    ∃ outcomes : List (ViewId × Truncation),
      (Op.reclaim.act.run s).1 = .ok (.truncations outcomes) ∧
      (outcomes.map Prod.fst).Pairwise (· < ·) ∧
      (∀ root, root ∈ outcomes.map Prod.fst ↔ s.editor.baseOf root = .ok none) ∧
      (∀ root outcome, (root, outcome) ∈ outcomes →
        ((Op.truncateUndo root).act.run s).1 = .ok (.truncation outcome) ∧
        t.editor.documents.get? root =
          (s.after (.truncateUndo root)).editor.documents.get? root) ∧
      (∀ roots, roots.Perm (outcomes.map Prod.fst) →
        s.afterAll (roots.map .truncateUndo) = t ∧
        ∀ earlier root later outcome, roots = earlier ++ root :: later →
          (root, outcome) ∈ outcomes →
          ((Op.truncateUndo root).act.run (s.afterAll (earlier.map .truncateUndo))).1 =
            .ok (.truncation outcome)) ∧
      t.logless = s.logless ∧
      Op.reclaim.act.run t =
        (.ok (.truncations (outcomes.map fun x => (x.1, .unchanged))), t) := by
  intro t
  have hrun := run_reclaim_of_unhandled h hs
  have ht : t = s.cutAll s.editor.rootList := congrArg Prod.snd hrun
  refine ⟨s.cuttings s.editor.rootList, congrArg Prod.fst hrun, ?_, fun root => ?_,
    fun root outcome hmem => ?_, fun roots hperm => ?_, ?_, run_reclaim_again h hs⟩
  · rw [map_fst_cuttings, s.editor.rootList_eq_filter]
    exact s.editor.views.keys_ascending.filter _
  · rw [map_fst_cuttings]
    exact Editor.mem_rootList_iff
  · obtain ⟨hroot, rfl⟩ := mem_cuttings.mp hmem
    have halone := run_truncateUndo_op h.atRest.wellFormed hs (Editor.mem_rootList_iff.mp hroot)
    refine ⟨congrArg Prod.fst halone, ?_⟩
    rw [ht, after, halone, get?_cutAll_of_mem s hroot, get?_cutAll_of_mem s List.mem_cons_self]
  · rw [map_fst_cuttings] at hperm
    have hn := hperm.nodup_iff.mpr (Act.nodup_rootList s.editor)
    have hroots : ∀ root ∈ roots, s.editor.baseOf root = .ok none :=
      fun root hroot => Editor.mem_rootList_iff.mp (hperm.mem_iff.mp hroot)
    constructor
    · rw [afterAll_truncateUndos h hs hn hroots, ht]
      exact cutAll_congr s fun _ => hperm.mem_iff
    · rintro earlier root later outcome rfl hmem
      rw [(mem_cuttings.mp hmem).2]
      exact truncateUndo_in_turn h hs hn hroots
  · rw [ht, logless_cutAll]

/-- Three groups in the log of one root, one in that of another, and an older root that is dead. -/
def threeGroups : List Op :=
  [.createRoot "old", .createRoot "long", .insert 1 ['a'], .closeGroup 1, .goto 1 0,
    .insert 1 ['b'], .closeGroup 1, .goto 1 0, .insert 1 ['c'], .createRoot "short",
    .insert 2 ['d'], .kill 0, .createIndirect 1 "part", .setLimits 60 100 none none]

theorem threeGroups_reclaimed :
    let s := (fresh .default none).afterAll threeGroups
    s.Reachable ∧ s.editor.limits.handler = none ∧
      (Op.reclaim.act.run s).1 = .ok (.truncations [(1, .severed 3 2), (2, .unchanged)]) ∧
      s.afterAll [.truncateUndo 2, .truncateUndo 1] = s.after .reclaim ∧
      Op.reclaim.act.run (s.after .reclaim) =
        (.ok (.truncations [(1, .unchanged), (2, .unchanged)]), s.after .reclaim) := by
  intro s
  have hreachable : s.Reachable := (Reachable.fresh .default none).afterAll threeGroups
  have hnone : s.editor.limits.handler.isNone = true := by decide +kernel
  have hs : s.editor.limits.handler = none := Option.isNone_iff_eq_none.mp hnone
  have hanswer : (Act.reclaim.run s).1 = .ok [(1, .severed 3 2), (2, .unchanged)] := by
    decide +kernel
  have hreply : (Op.reclaim.act.run s).1 =
      .ok (.truncations [(1, .severed 3 2), (2, .unchanged)]) := by
    rw [Op.act, Act.run_map, hanswer]
    rfl
  obtain ⟨outcomes, houtcomes, -, -, -, hperm, -, hagain⟩ :=
    reclaim_truncates_each_root hreachable hs
  obtain rfl : outcomes = [(1, .severed 3 2), (2, .unchanged)] := by
    rw [hreply] at houtcomes
    cases houtcomes
    rfl
  exact ⟨hreachable, hs, hreply, (hperm [2, 1] (List.Perm.swap 1 2 [])).1, hagain⟩

end Session

end Editing
