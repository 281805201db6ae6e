import CliServer.Files.SqliteTree

/-!
# Runs of the SQLite provider

Which operations leave the rows a tree (`Sqlite.Keeps`): all but writes, copies and moves into a directory that the
second normalisation of its path makes another one, copies and moves that put a file where something stays below
it, and removals whose pattern finds a directory and not what is in it.  The runs themselves are in `SqliteTextRuns`.
-/

namespace CliServer

open NamedTree Transition

namespace Sqlite

variable {L : Like} {t t' : Table} {s d : Path} {op : FileOp}

/-- The directory of a place is there, or will be made under this path. -/
def ParentKept (view : FileView Str) (d : Path) : Prop := view d.dropLast = some .node ∨ parentsOf d = d.dropLast

/-- No file of the source comes to stand where something stays below it. -/
def FreePlace (view : FileView Str) (s d : Path) (gone : Path → Prop) : Prop :=
  ∀ x z v, z ≠ [] → view (s ++ x) = some (.leaf v) → view (d ++ x ++ z) ≠ none → gone (d ++ x ++ z)

/-- A copy or a move of `s` to `d` is refused before it writes a row at `d`. -/
def Refused (view : FileView Str) (s d : Path) : Prop := d = [] ∨ view s = none ∨ Blocked view (parentsOf d)

/-- A write leaves the rows a tree. -/
def WriteKeeps (view : FileView Str) (d : Path) : Prop := d = [] ∨ Blocked view (parentsOf d) ∨ ParentKept view d

/-- A recursive `remove` leaves the rows a tree. -/
def RemoveKeeps (L : Like) (view : FileView Str) (d : Path) : Prop :=
  d = [] ∨ view d = none ∨ L.refuses (below (key d)) = true ∨ GoneDown L view d

/-- A copy leaves the rows a tree.  Of a directory whose path is too long only the row at `d` is written. -/
def CopyKeeps (L : Like) (view : FileView Str) (s d : Path) : Prop :=
  Refused view s d ∨ (ParentKept view d ∧
    (s = [] ∨ (view s = some .node ∧ L.refuses (below (key s)) = true) ∨ FreePlace view s d fun _ => False))

/-- A move leaves the rows a tree.  Of a source whose path is too long nothing is deleted. -/
def MoveKeeps (L : Like) (view : FileView Str) (s d : Path) : Prop :=
  s = [] ∨ Refused view s d ∨
    if L.refuses (below (key s)) = true then
      ParentKept view d ∧ (view s = some .node ∨ FreePlace view s d fun _ => False)
    -- what is moved to or below itself is deleted
    else s <+: d ∨ (ParentKept view d ∧ FreePlace view s d fun p => s <+: p)

/-- The operation leaves the rows a tree. -/
def Keeps (view : FileView Str) : FileOp → Prop
  | .writeFile path _ | .uploadFile path _ => WriteKeeps view (sqlParts path)
  | .remove path recursive => recursive = true → RemoveKeeps .sqlite view (sqlParts path)
  | .copy src dest => CopyKeeps .sqlite view (sqlParts src) (sqlParts dest)
  | .move src dest => MoveKeeps .sqlite view (sqlParts src) (sqlParts dest)
  | _ => True

/-- Of the rows there before and after a move was written, `LIKE` finds only those below the source. -/
def MoveExact (L : Like) (view : FileView Str) (s d : Path) : Prop :=
  ∀ p, (view p ≠ none ∨ p = d ∨ p <+: parentsOf d ∨ ∃ x, p = d ++ x ∧ view (s ++ x) ≠ none) →
    L.finds (below (key s)) (key p) = true → ∃ x, x ≠ [] ∧ p = s ++ x

/-- `LIKE` finds only what is below the source of a copy or a move, where it is asked. -/
def Exact (view : FileView Str) : FileOp → Prop
  | .copy src dest => view (sqlParts src) = some .node → Like.sqlite.refuses (below (key (sqlParts src))) = false →
    CopyExact .sqlite view (sqlParts src) (sqlParts dest)
  | .move src dest => Like.sqlite.refuses (below (key (sqlParts src))) = false →
    MoveExact .sqlite view (sqlParts src) (sqlParts dest)
  | _ => True

/-- What a write leaves is a tree exactly if the parent is kept. -/
private theorem closed_written_iff {view : FileView Str} (hclosed : Closed view) (hd : d ≠ [])
    (hblocked : ¬Blocked view (parentsOf d)) (hfree : ∀ z, z ≠ [] → view (d ++ z) = none) (v : Str)
    (hparent : withParents view (parentsOf d) d.dropLast = some .node ↔ ParentKept view d) :
    Closed (Function.update (withParents view (parentsOf d)) d (some (.leaf v))) ↔ ParentKept view d := by
  rw [closed_write_iff (hclosed.withParents hblocked) hd, hparent]
  refine and_iff_left (.inr fun z hz => ?_)
  rw [withParents_of_not_above (not_prefix_parentsOf hd z), hfree z hz]

/-- What a copy leaves, without what is deleted then, is a tree exactly if the parent is kept and no file covers
anything. -/
private theorem closed_copied_iff {view : FileView Str} (hclosed : Closed view) (hd : d ≠ [])
    (hblocked : ¬Blocked view (parentsOf d)) {kind : Kind Str} (hkind : view s = some kind)
    (hparent : withParents view (parentsOf d) d.dropLast = some .node ↔ ParentKept view d)
    (gone : Path → Prop) [DecidablePred gone] (hdown : ∀ p n, gone p → gone (p ++ [n])) (hstays : ¬gone d) :
    Closed (fun q => if gone q then none else copied view s d kind q) ↔
      ParentKept view d ∧ (s = [] ∨ FreePlace view s d gone) := by
  have hmade := hclosed.withParents hblocked
  have hbelow : ∀ z, withParents view (parentsOf d) (d ++ z) = view (d ++ z) := fun z =>
    withParents_of_not_above (not_prefix_parentsOf hd z)
  cases kind with
  | leaf v =>
    have hs : s ≠ [] := by
      rintro rfl
      rw [hclosed.root] at hkind
      cases hkind
    have hfree : FreePlace view s d gone ↔ ∀ z, z ≠ [] → view (d ++ z) ≠ none → gone (d ++ z) := by
      constructor
      · intro h z hz hsome
        have hplace := h [] z v hz (by rw [List.append_nil]; exact hkind)
        rw [List.append_nil] at hplace
        exact hplace hsome
      · intro h x z v' hz hfile hsome
        by_cases hx : x = []
        · rw [hx, List.append_nil] at hsome ⊢
          exact h z hz hsome
        · rw [hclosed.below (by rw [hkind]; simp) hx] at hfile
          cases hfile
    simp only [copied, reduceCtorEq, false_and, if_false]
    rw [closed_write_drop_iff _ hmade hd _ hdown hstays, hparent, or_iff_right hs, hfree]
    simp only [reduceCtorEq, false_or, hbelow]
  | node =>
    by_cases hs : s = []
    · simp only [copied, hs, ne_eq, not_true_eq_false, and_false, if_false, true_or, and_true]
      rw [closed_write_drop_iff _ hmade hd _ hdown hstays, hparent]
      simp
    · simp only [copied, hs, ne_eq, not_false_eq_true, and_self, if_true, false_or]
      have hself : Function.update (withParents view (parentsOf d)) d (some .node) d = some .node :=
        Function.update_self ..
      have hpos : 0 < d.length := List.length_pos_of_ne_nil hd
      have hdir : d.dropLast ≠ d := by
        intro heq
        have hlen := congrArg List.length heq
        rw [List.length_dropLast] at hlen
        omega
      have hwritten : Closed (Function.update (withParents view (parentsOf d)) d (some .node)) ↔ ParentKept view d := by
        rw [closed_write_iff hmade hd, hparent]
        simp
      have hfree : Closed (Function.update (withParents view (parentsOf d)) d (some .node)) →
          (Closed (fun q => if gone q then none
            else overlay (Function.update (withParents view (parentsOf d)) d (some .node)) s d q) ↔
              FreePlace view s d gone) := by
        intro hclosed'
        rw [closed_overlay_drop_iff hclosed' hself hdown hstays]
        have hplace : ∀ x z, z ≠ [] → Function.update (withParents view (parentsOf d)) d (some .node) (d ++ x ++ z) =
            view (d ++ x ++ z) := by
          intro x z hz
          rw [List.append_assoc, Function.update_of_ne, hbelow]
          simp [hz]
        constructor
        · intro hcovered x z v hz hfile hsome
          by_cases hx : x = []
          · rw [hx, List.append_nil, hkind] at hfile
            cases hfile
          · by_cases hsx : s ++ x = d
            · rw [hsx] at hfile
              rw [List.append_assoc, hclosed.below (by rw [hfile]; simp) (by simp [hx])] at hsome
              exact absurd rfl hsome
            · refine hcovered x z v hx hz ?_ ?_
              · rw [Function.update_of_ne hsx, withParents_ne_none (by rw [hfile]; simp), hfile]
              · rw [hplace x z hz]
                exact hsome
        · intro hfree x z v hx hz hfile hsome
          rw [hplace x z hz] at hsome
          refine hfree x z v hz ?_ hsome
          by_cases hsx : s ++ x = d
          · rw [hsx, hself] at hfile
            cases hfile
          · rw [Function.update_of_ne hsx] at hfile
            unfold withParents at hfile
            split at hfile
            · cases hfile
            · exact hfile
      constructor
      · intro hclosed'
        have hnode : overlay (Function.update (withParents view (parentsOf d)) d (some .node)) s d d = some .node := by
          rw [overlay_of_not_below, hself]
          intro x hx heq
          exact hx (List.append_right_eq_self.1 heq.symm)
        have hinit : ¬gone d.dropLast := by
          refine not_gone_above (z := [d.getLast hd]) hdown ?_
          rwa [List.dropLast_append_getLast hd]
        have hlast := hclosed'.dropLast hd (by simp only [if_neg hstays, hnode]; simp)
        simp only [if_neg hinit] at hlast
        rw [overlay_of_not_below, Function.update_of_ne hdir] at hlast
        · have hkept := hparent.1 hlast
          exact ⟨hkept, (hfree (hwritten.2 hkept)).1 hclosed'⟩
        · intro x hx heq
          have hlen := congrArg List.length heq
          rw [List.length_dropLast, List.length_append] at hlen
          omega
      · rintro ⟨hkept, hplace⟩
        exact (hfree (hwritten.2 hkept)).2 hplace

/-- What an operation leaves: formed rows, which are a tree exactly if `kept`. -/
structure Leaves (t' : Table) (kept : Prop) : Prop where
  formed : t'.Formed
  closed_iff : Closed t'.view ↔ kept

theorem Leaves.of_closed {kept : Prop} (hformed : t'.Formed) (hclosed : Closed t'.view) (hkept : kept) :
    Leaves t' kept :=
  ⟨hformed, iff_of_true hclosed hkept⟩

private theorem root_written {view : FileView Str} (hclosed : Closed view) (hd : d ≠ []) (kind : Kind Str) :
    Function.update (withParents view (parentsOf d)) d (some kind) [] = some .node := by
  rw [Function.update_of_ne hd.symm, withParents_ne_none (by rw [hclosed.root]; simp), hclosed.root]

private theorem root_copied {view : FileView Str} (hclosed : Closed view) (hd : d ≠ []) (kind : Kind Str) :
    copied view s d kind [] = some .node := by
  unfold copied
  split
  · rw [overlay_of_not_below, root_written hclosed hd]
    intro x hx heq
    exact hd (List.append_eq_nil_iff.1 heq.symm).1
  · exact root_written hclosed hd kind

theorem writeAt_leaves (hformed : t.Formed) (hclosed : Closed t.view) (d : Path) (path text : Str) :
    Leaves (writeAt t (key d) path text).1 (WriteKeeps t.view d) := by
  rcases writeAt_cases hformed hclosed d path text with
    ⟨hd, hrun⟩ | ⟨hd, hblocked, t', c, hrun, hformed', hview⟩ | ⟨hd, hblocked, hnode, t', hrun, hformed', hview⟩ |
    ⟨hd, hblocked, hnode, t', hrun, hformed', hview⟩
  · rw [hrun]
    exact .of_closed hformed hclosed (.inl hd)
  · rw [hrun]
    exact .of_closed hformed' (by rw [hview]; exact hclosed) (.inr (.inl hblocked))
  · rw [hrun]
    refine .of_closed hformed' (by rw [hview]; exact hclosed.withParents hblocked) (.inr (.inr (.inl ?_)))
    exact hclosed.dropLast hd (by rw [hnode]; exact Option.some_ne_none _)
  · rw [hrun]
    refine ⟨hformed', ?_⟩
    rw [hview, closed_written_iff hclosed hd hblocked (fun z hz => hclosed.below hnode hz) _
      (parent_made_iff hclosed hblocked), WriteKeeps, or_iff_right hd, or_iff_right hblocked]

theorem mkdirAt_leaves (hformed : t.Formed) (hclosed : Closed t.view) (d : Path) (path : Str) (recursive : Bool) :
    Leaves (mkdirAt t (key d) path recursive).1 True := by
  rcases mkdirAt_cases hformed hclosed d path recursive with
    ⟨hd, hrun⟩ | ⟨hd, -, hblocked, t', c, hrun, hformed', hview⟩ | ⟨hd, -, hblocked, t', hrun, hformed', hview⟩ |
    ⟨hd, -, ⟨hparent, hrun⟩ | ⟨v, hparent, hrun⟩ | ⟨hparent, ⟨v, hplace, hrun⟩ | ⟨hplace, hrun⟩ |
      ⟨hplace, t', hrun, hformed', hview⟩⟩⟩
  · rw [hrun]
    exact .of_closed hformed hclosed trivial
  · rw [hrun]
    exact .of_closed hformed' (by rw [hview]; exact hclosed) trivial
  · rw [hrun]
    exact .of_closed hformed' (by rw [hview]; exact hclosed.withParents hblocked) trivial
  · rw [hrun]
    exact .of_closed hformed hclosed trivial
  · rw [hrun]
    exact .of_closed hformed hclosed trivial
  · rw [hrun]
    exact .of_closed hformed hclosed trivial
  · rw [hrun]
    exact .of_closed hformed hclosed trivial
  · rw [hrun]
    refine .of_closed hformed' ?_ trivial
    rw [hview, closed_write_iff hclosed hd]
    exact ⟨hparent, .inl rfl⟩

private theorem Closed.root_ne_none {view : FileView Str} (h : Closed view) : view [] ≠ none := by
  rw [h.root]
  exact Option.some_ne_none _

theorem removeAt_leaves (L : Like) (hformed : t.Formed) (hclosed : Closed t.view) (d : Path) (path : Str)
    (recursive : Bool) :
    Leaves (removeAt L t (key d) path recursive).1 (recursive = true → RemoveKeeps L t.view d) := by
  rcases removeAt_cases L hformed (Closed.root_ne_none hclosed) d path recursive with
    ⟨hd, hrun⟩ | ⟨hd, hnone, hrun⟩ | ⟨hd, -, hsingle, -, hrun⟩ | ⟨hd, hsome, hrecursive, hlong, hrun⟩ |
    ⟨hd, hsome, hshort, hallowed, t', hrun, hformed', hview⟩
  · rw [hrun]
    exact .of_closed hformed hclosed fun _ => .inl hd
  · rw [hrun]
    exact .of_closed hformed hclosed fun _ => .inr (.inl hnone)
  · rw [hrun]
    exact .of_closed hformed hclosed fun h => nomatch hsingle.symm.trans h
  · rw [hrun]
    exact .of_closed hformed hclosed fun _ => .inr (.inr (.inl hlong))
  · rw [hrun]
    refine ⟨hformed', ?_⟩
    rw [hview]
    cases recursive with
    | true =>
      have hnot : ¬L.refuses (below (key d)) = true := by simp [hshort rfl]
      rw [if_pos rfl, closed_gone_iff hclosed, RemoveKeeps, or_iff_right hd, or_iff_right hsome, or_iff_right hnot]
      exact ⟨fun h _ => h, fun h => h rfl⟩
    | false =>
      -- nothing stands below what is removed
      have hempty : ∀ n, t.view (d ++ [n]) = none := by
        intro n
        by_contra hn
        exact hallowed ⟨hclosed.parent _ n hn, rfl, n, hn⟩
      refine iff_of_true ?_ (fun h => nomatch h)
      simp only [Bool.false_eq_true, if_false]
      refine ⟨?_, fun p n hp => ?_⟩
      · rw [Function.update_of_ne hd.symm, hclosed.root]
      · have hpn : p ++ [n] ≠ d := by
          intro heq
          rw [heq, Function.update_self] at hp
          exact hp rfl
        rw [Function.update_of_ne hpn] at hp
        have hpath : p ≠ d := by
          rintro rfl
          exact hp (hempty n)
        rw [Function.update_of_ne hpath]
        exact hclosed.parent p n hp

theorem not_refused (hd : d ≠ []) (hsome : t.view s ≠ none) (hblocked : ¬Blocked t.view (parentsOf d)) :
    ¬Refused t.view s d := by
  rintro (h | h | h)
  · exact hd h
  · exact hsome h
  · exact hblocked h

/-- What a copy of a directory leaves when it is stopped before it reads the rows below. -/
private theorem closed_stopped_iff (hclosed : Closed t.view) (hd : d ≠ []) (hblocked : ¬Blocked t.view (parentsOf d)) :
    Closed (Function.update (withParents t.view (parentsOf d)) d (some .node)) ↔ ParentKept t.view d := by
  rw [closed_write_iff (hclosed.withParents hblocked) hd, parent_made_iff hclosed hblocked]
  exact and_iff_left (.inl rfl)

theorem copyAt_leaves (L : Like) (hformed : t.Formed) (hclosed : Closed t.view) (s d : Path) (src dest : Str)
    (hexact : t.view s = some .node → L.refuses (below (key s)) = false → CopyExact L t.view s d) :
    Leaves (copyAt L t (key s) (key d) src dest).1 (CopyKeeps L t.view s d) := by
  rcases copyAt_cases L hformed hclosed s d src dest with
    ⟨hd, hrun⟩ | ⟨hd, hnone, hrun⟩ | ⟨hd, hsome, hblocked, t', c, hrun, hformed', hview⟩ |
    ⟨hd, hblocked, hnode, hlong, t', hrun, hformed', hview⟩ | ⟨hd, hblocked, kind, t', hkind, hshort, hrun, hresult⟩
  · rw [hrun]
    exact .of_closed hformed hclosed (.inl (.inl hd))
  · rw [hrun]
    exact .of_closed hformed hclosed (.inl (.inr (.inl hnone)))
  · rw [hrun]
    exact .of_closed hformed' (by rw [hview]; exact hclosed) (.inl (.inr (.inr hblocked)))
  · rw [hrun]
    refine ⟨hformed', ?_⟩
    have hrefused := not_refused (s := s) hd (by rw [hnode]; exact Option.some_ne_none _) hblocked
    rw [hview, closed_stopped_iff hclosed hd hblocked, CopyKeeps, or_iff_right hrefused]
    exact (and_iff_left (.inr (.inl ⟨hnode, hlong⟩))).symm
  · rw [hrun]
    obtain ⟨hformed', hview⟩ := hresult fun hnode => hexact (by rw [hkind, hnode]) (hshort hnode)
    have hrefused := not_refused (s := s) hd (by rw [hkind]; exact Option.some_ne_none _) hblocked
    have hcopied := closed_copied_iff hclosed hd hblocked hkind
      (parent_made_iff hclosed hblocked) (fun _ => False) (fun _ _ h => h) id
    simp only [if_false] at hcopied
    have hnot : ¬(t.view s = some .node ∧ L.refuses (below (key s)) = true) := by
      rintro ⟨hnode, hlong⟩
      rw [hshort (Option.some.inj (hkind.symm.trans hnode))] at hlong
      cases hlong
    refine ⟨hformed', ?_⟩
    rw [hview, CopyKeeps, or_iff_right hrefused, or_iff_right hnot]
    exact hcopied

/-- A row that is there when a move deletes its source. -/
private theorem copied_ne_none {view : FileView Str} {kind : Kind Str} {p : Path} (hnot : ¬s <+: d)
    (h : copied view s d kind p ≠ none) :
    view p ≠ none ∨ p = d ∨ p <+: parentsOf d ∨ ∃ x, p = d ++ x ∧ view (s ++ x) ≠ none := by
  have hwritten : Function.update (withParents view (parentsOf d)) d (some kind) p ≠ none →
      view p ≠ none ∨ p = d ∨ p <+: parentsOf d := by
    intro hp
    by_cases hpd : p = d
    · exact .inr (.inl hpd)
    · rw [Function.update_of_ne hpd] at hp
      rcases withParents_ne_none_iff.1 hp with hmade | hold
      · exact .inr (.inr hmade.2)
      · exact .inl hold
  have hother : view p ≠ none ∨ p = d ∨ p <+: parentsOf d →
      view p ≠ none ∨ p = d ∨ p <+: parentsOf d ∨ ∃ x, p = d ++ x ∧ view (s ++ x) ≠ none := by
    rintro (hp | hp | hp)
    · exact .inl hp
    · exact .inr (.inl hp)
    · exact .inr (.inr (.inl hp))
  unfold copied at h
  split at h
  · by_cases hbelow : ∃ x, x ≠ [] ∧ p = d ++ x
    · obtain ⟨x, hx, rfl⟩ := hbelow
      rw [overlay_below hx] at h
      split at h
      · next hsrc =>
        -- neither `dest` nor what was made for it is below the source
        have hne : s ++ x ≠ d := fun heq => hnot ⟨x, heq⟩
        rw [Function.update_of_ne hne] at hsrc
        rcases withParents_ne_none_iff.1 hsrc with hmade | hold
        · have hstrict : s ≠ parentsOf d := by
            rintro rfl
            have hlen := hmade.2.length_le
            have hpos : 0 < x.length := List.length_pos_of_ne_nil hx
            rw [List.length_append] at hlen
            omega
          have habove := prefix_dropLast_of_ne ((List.prefix_append s x).trans hmade.2) hstrict
          exact absurd (habove.trans (parentsOf_dropLast d)) hnot
        · exact .inr (.inr (.inr ⟨x, rfl, hold⟩))
      · exact hother (hwritten h)
    · rw [overlay_of_not_below (fun x hx heq => hbelow ⟨x, hx, heq⟩)] at h
      exact hother (hwritten h)
  · exact hother (hwritten h)

/-- What is at or below the source is always deleted. -/
theorem gone_of_below (L : Like) (hs : s ≠ []) {p : Path} (h : s <+: p) : Gone L s p := by
  obtain ⟨x, rfl⟩ := h
  by_cases hx : x = []
  · exact .inl (by rw [hx, List.append_nil])
  · right
    obtain ⟨n, x, rfl⟩ := List.exists_cons_of_ne_nil hx
    rw [key_append hs, joined_cons]
    exact L.finds_below _ _

/-- Where `LIKE` is exact, what a move deletes is at or below its source. -/
private theorem gone_iff_of_exact {view : FileView Str} (hs : s ≠ []) (hexact : MoveExact L view s d) {p : Path}
    (hp : view p ≠ none ∨ p = d ∨ p <+: parentsOf d ∨ ∃ x, p = d ++ x ∧ view (s ++ x) ≠ none) :
    Gone L s p ↔ s <+: p := by
  constructor
  · rintro (rfl | hlike)
    · exact List.prefix_refl p
    · obtain ⟨x, -, rfl⟩ := hexact p hp hlike
      exact List.prefix_append s x
  · exact gone_of_below L hs

theorem gone_iff {view : FileView Str} (hs : s ≠ []) (hnot : ¬s <+: d) (hexact : MoveExact L view s d)
    {kind : Kind Str} {p : Path} (hp : copied view s d kind p ≠ none) : Gone L s p ↔ s <+: p :=
  gone_iff_of_exact hs hexact (copied_ne_none hnot hp)

/-- What a move leaves once its rows are written and the source is deleted. -/
private theorem closed_moved_iff (hclosed : Closed t.view) (hs : s ≠ []) (hd : d ≠ [])
    (hblocked : ¬Blocked t.view (parentsOf d)) {kind : Kind Str} (hkind : t.view s = some kind)
    (hexact : MoveExact L t.view s d) :
    Closed (fun q => if Gone L s q then none else copied t.view s d kind q) ↔
      s <+: d ∨ (ParentKept t.view d ∧ FreePlace t.view s d fun p => s <+: p) := by
  by_cases hbelow : s <+: d
  · -- all that was written is deleted again
    have hsame : (fun q => if Gone L s q then none else copied t.view s d kind q) =
        fun q => if s <+: q then none else withParents t.view (parentsOf d) q := by
      funext q
      by_cases hq : s <+: q
      · rw [if_pos hq, if_pos (gone_of_below L hs hq)]
      · have hne : ∀ x, q ≠ d ++ x := by
          rintro x rfl
          exact hq (hbelow.trans (List.prefix_append d x))
        have hqd : q ≠ d := by simpa using hne []
        have hcopied : copied t.view s d kind q = withParents t.view (parentsOf d) q := by
          unfold copied
          split
          · rw [overlay_of_not_below fun x _ => hne x, Function.update_of_ne hqd]
          · rw [Function.update_of_ne hqd]
        rw [if_neg hq, hcopied]
        split
        · next hgone =>
          by_contra hthere
          refine hq ((gone_iff_of_exact hs hexact ?_).1 hgone)
          rcases withParents_ne_none_iff.1 (Ne.symm hthere) with hmade | hold
          · exact .inr (.inr (.inl hmade.2))
          · exact .inl hold
        · rfl
    rw [hsame]
    refine iff_of_true ?_ (.inl hbelow)
    exact (hclosed.withParents hblocked).drop (s <+: ·) (fun hroot => hs (List.prefix_nil.1 hroot))
      fun p n hp => hp.trans (List.prefix_append p [n])
  · have hsame : (fun q => if Gone L s q then none else copied t.view s d kind q) =
        fun q => if s <+: q then none else copied t.view s d kind q := by
      funext q
      by_cases hq : copied t.view s d kind q = none
      · rw [hq, ite_self, ite_self]
      · simp only [gone_iff hs hbelow hexact hq]
    rw [hsame, closed_copied_iff hclosed hd hblocked hkind (parent_made_iff hclosed hblocked) _
      (fun p n h => h.trans (List.prefix_append p [n])) hbelow, or_iff_right hs, or_iff_right hbelow]

theorem moveAt_leaves (L : Like) (hformed : t.Formed) (hclosed : Closed t.view) (s d : Path) (src dest : Str)
    (hexact : L.refuses (below (key s)) = false → MoveExact L t.view s d) :
    Leaves (moveAt L t (key s) (key d) src dest).1 (MoveKeeps L t.view s d) := by
  by_cases hs : s = []
  · have hrun : moveAt L t (key s) (key d) src dest = (t, some (.permission src)) := by
      simp [moveAt, key_eq_slash_iff, hs]
    rw [hrun]
    exact .of_closed hformed hclosed (.inl hs)
  by_cases hd : d = []
  · have hrun : moveAt L t (key s) (key d) src dest = (t, some (.isADirectory dest)) := by
      simp [moveAt, key_eq_slash_iff, hs, hd]
    rw [hrun]
    exact .of_closed hformed hclosed (.inr (.inl (.inl hd)))
  by_cases hnone : t.view s = none
  · have hrun : moveAt L t (key s) (key d) src dest = (t, some (.notFound src)) := by
      simp [moveAt, key_eq_slash_iff, hs, hd, Table.view_eq_none_iff.1 hnone]
    rw [hrun]
    exact .of_closed hformed hclosed (.inr (.inl (.inr (.inl hnone))))
  rw [moveAt_eq L hs hd hnone]
  rcases copyAt_cases L hformed hclosed s d src dest with
    ⟨hroot, -⟩ | ⟨-, hmissing, -⟩ | ⟨-, -, hblocked, t', c, hrun, hformed', hview⟩ |
    ⟨-, hblocked, hnode, hlong, t', hrun, hformed', hview⟩ | ⟨-, hblocked, kind, t', hkind, hshort, hrun, hresult⟩
  · exact absurd hroot hd
  · exact absurd hmissing hnone
  · rw [hrun]
    exact .of_closed hformed' (by rw [hview]; exact hclosed) (.inr (.inl (.inr (.inr hblocked))))
  · rw [hrun]
    refine ⟨hformed', ?_⟩
    rw [hview, closed_stopped_iff hclosed hd hblocked, MoveKeeps, or_iff_right hs,
      or_iff_right (not_refused hd hnone hblocked), if_pos hlong]
    exact (and_iff_left (.inl hnode)).symm
  · rw [hrun, MoveKeeps, or_iff_right hs, or_iff_right (not_refused hd hnone hblocked)]
    cases hlong : L.refuses (below (key s)) with
    | true =>
      -- the file is copied, and nothing is deleted
      have hfile : kind ≠ .node := by
        intro hnode
        rw [hshort hnode] at hlong
        cases hlong
      obtain ⟨hformed', hview⟩ := hresult fun hnode => absurd hnode hfile
      have hroot : t'.view [] ≠ none := by
        rw [hview, root_copied hclosed hd]
        exact Option.some_ne_none _
      rcases deleteTree_cases L hformed' hroot hs with ⟨-, hdelete⟩ | ⟨hshort', -⟩
      · have hcopied := closed_copied_iff hclosed hd hblocked hkind
          (parent_made_iff hclosed hblocked) (fun _ => False) (fun _ _ h => h) id
        simp only [if_false] at hcopied
        simp only [hdelete]
        refine ⟨hformed', ?_⟩
        have hnot : ¬t.view s = some .node := by
          rw [hkind]
          exact fun h => hfile (Option.some.inj h)
        rw [hview, if_true, or_iff_right hnot]
        exact hcopied.trans (and_congr_right fun _ => or_iff_right hs)
      · rw [hlong] at hshort'
        cases hshort'
    | false =>
      have hmoveExact := hexact hlong
      have hcopyExact : CopyExact L t.view s d := by
        intro p hp hlike
        refine hmoveExact p ?_ hlike
        rcases hp with hp | hp | hp
        · exact .inl hp
        · exact .inr (.inl hp)
        · exact .inr (.inr (.inl hp))
      obtain ⟨hformed', hview⟩ := hresult fun _ => hcopyExact
      have hroot : t'.view [] ≠ none := by
        rw [hview, root_copied hclosed hd]
        exact Option.some_ne_none _
      rcases deleteTree_cases L hformed' hroot hs with ⟨hlong', -⟩ | ⟨-, t'', hdelete, hformed'', hview''⟩
      · rw [hlong] at hlong'
        cases hlong'
      · simp only [hdelete, Bool.false_eq_true, if_false]
        refine ⟨hformed'', ?_⟩
        rw [hview'', hview]
        exact closed_moved_iff hclosed hs hd hblocked hkind hmoveExact

theorem run_leaves (hformed : t.Formed) (hclosed : Closed t.view) (op : FileOp) (hexact : Exact t.view op) :
    Leaves (provider.run t op).1 (Keeps t.view op) := by
  cases op with
  | writeFile path content => exact writeAt_leaves hformed hclosed (sqlParts path) path content.decoded
  | uploadFile path content => exact writeAt_leaves hformed hclosed (sqlParts path) path _
  | mkdir path recursive => exact mkdirAt_leaves hformed hclosed (sqlParts path) path recursive
  | remove path recursive => exact removeAt_leaves .sqlite hformed hclosed (sqlParts path) path recursive
  | copy src dest => exact copyAt_leaves .sqlite hformed hclosed (sqlParts src) (sqlParts dest) src dest hexact
  | move src dest => exact moveAt_leaves .sqlite hformed hclosed (sqlParts src) (sqlParts dest) src dest hexact
  | _ => exact .of_closed hformed hclosed trivial

/-- One operation on the table. -/
def step (t : Table) (op : FileOp) : Option Table := some (provider.run t op).1

theorem initial_formed : initial.Formed := by
  intro row hrow
  obtain rfl := List.mem_singleton.1 hrow
  exact ⟨⟨[], rfl, rfl, rfl⟩, rfl, rfl⟩

theorem initial_view (p : Path) : initial.view p = if p = [] then some .node else none := by
  by_cases hp : p = []
  · subst hp
    rfl
  · have hne : ¬['/'] = key p := fun h => hp (key_eq_slash_iff.1 h.symm)
    rw [if_neg hp, Table.view, Table.kindAt, Table.select, List.find?_eq_none.2]
    · rfl
    · intro row hrow
      obtain rfl := List.mem_singleton.1 hrow
      simpa using hne

theorem initial_closed : Closed initial.view where
  root := by rw [initial_view, if_pos rfl]
  parent p n h := by
    rw [initial_view, if_neg (by simp)] at h
    exact absurd rfl h

end Sqlite

end CliServer
