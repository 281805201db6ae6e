import CliServer.Files.Moves

/-!
# Views of a tree of directories

A view is `Closed` when it is that of a tree: its root is a directory, and what stands anywhere else stands in one.
What the operations of a store do to a view keeps that: making parents (`Closed.withParents`), dropping what is below
(`Closed.drop`), and, exactly when nothing is left without its directory, writing at one path (`closed_write_iff`) and
laying a subtree over another place (`closed_overlay_iff`).
-/

namespace CliServer

open NamedTree

variable {γ : Type*} {view : FileView γ} {p q s d parents : Path} {n : Name}

/-- The root is a directory, and what stands anywhere else stands in one. -/
structure Closed (view : FileView γ) : Prop where
  root : view [] = some .node
  parent : ∀ p n, view (p ++ [n]) ≠ none → view p = some .node

/-- Whatever has something below it is a directory. -/
theorem Closed.above (h : Closed view) {z : Path} (hz : z ≠ []) (hsome : view (p ++ z) ≠ none) :
    view p = some .node := by
  induction z using List.reverseRecOn with
  | nil => exact absurd rfl hz
  | append_singleton z n ih =>
    have hparent : view (p ++ z) = some .node := by
      rw [← List.append_assoc] at hsome
      exact h.parent _ n hsome
    by_cases hnil : z = []
    · rw [hnil, List.append_nil] at hparent
      exact hparent
    · refine ih hnil ?_
      rw [hparent]
      exact Option.some_ne_none _

theorem Closed.ne_none_above (h : Closed view) (hpq : p <+: q) (hsome : view q ≠ none) : view p ≠ none := by
  obtain ⟨z, rfl⟩ := hpq
  by_cases hz : z = []
  · rw [hz, List.append_nil] at hsome
    exact hsome
  · rw [h.above hz hsome]
    exact Option.some_ne_none _

/-- Nothing stands below a file, or below nothing. -/
theorem Closed.below (h : Closed view) (hp : view p ≠ some .node) {z : Path} (hz : z ≠ []) : view (p ++ z) = none := by
  by_contra hsome
  exact hp (h.above hz hsome)

theorem Closed.dropLast (h : Closed view) (hp : p ≠ []) (hsome : view p ≠ none) : view p.dropLast = some .node := by
  refine h.above (z := [p.getLast hp]) (by simp) ?_
  rw [List.dropLast_append_getLast hp]
  exact hsome

/-- The view of a tree is closed. -/
theorem closed_tree (cs : Forest Name γ) : Closed (node cs).view where
  root := view_nil_node cs
  parent _ _ h := view_node_of_append (by simp) h

/-! ### Making parents -/

theorem withParents_nil (view : FileView γ) : withParents view [] = view := by
  funext q
  rw [withParents, if_neg]
  rintro ⟨hq, hprefix, -⟩
  exact hq (List.prefix_nil.1 hprefix)

theorem withParents_ne_none_iff : withParents view parents q ≠ none ↔ (q ≠ [] ∧ q <+: parents) ∨ view q ≠ none := by
  unfold withParents
  split
  · next h => exact iff_of_true (Option.some_ne_none _) (.inl ⟨h.1, h.2.1⟩)
  · next h =>
    constructor
    · exact .inr
    · rintro (hmade | hsome)
      · intro hnone
        exact h ⟨hmade.1, hmade.2, hnone⟩
      · exact hsome

/-- A directory of the path, where no file is in the way. -/
theorem withParents_node (hblocked : ¬Blocked view parents) (hq : q ≠ []) (habove : q <+: parents) :
    withParents view parents q = some .node := by
  unfold withParents
  split
  · rfl
  · next h =>
    cases hview : view q with
    | none => exact absurd ⟨hq, habove, hview⟩ h
    | some kind =>
      cases kind with
      | node => rfl
      | leaf v => exact absurd ⟨q, v, hq, habove, hview⟩ hblocked

theorem withParents_eq_self (h : Closed view) (hsome : view parents ≠ none) : withParents view parents = view := by
  funext q
  unfold withParents
  split
  · next hmade => exact absurd hmade.2.2 (h.ne_none_above hmade.2.1 hsome)
  · rfl

theorem Closed.withParents (h : Closed view) (hblocked : ¬Blocked view parents) :
    Closed (withParents view parents) where
  root := by
    rw [CliServer.withParents, if_neg]
    · exact h.root
    · exact fun hmade => hmade.1 rfl
  parent p n hsome := by
    by_cases hp : p = []
    · rw [hp, CliServer.withParents, if_neg]
      · exact h.root
      · exact fun hmade => hmade.1 rfl
    · rcases withParents_ne_none_iff.1 hsome with ⟨-, hprefix⟩ | hold
      · exact withParents_node hblocked hp ((List.prefix_append p [n]).trans hprefix)
      · have hnode := h.parent p n hold
        rw [withParents_ne_none (by rw [hnode]; exact Option.some_ne_none _), hnode]

/-! ### Dropping, writing, overlaying -/

/-- To drop what is downward closed. -/
theorem Closed.drop (h : Closed view) (gone : Path → Prop) [DecidablePred gone] (hroot : ¬gone [])
    (hdown : ∀ p n, gone p → gone (p ++ [n])) : Closed fun q => if gone q then none else view q where
  root := by rw [if_neg hroot, h.root]
  parent p n hsome := by
    split at hsome
    · exact absurd rfl hsome
    · next hstays =>
      rw [if_neg fun hp => hstays (hdown p n hp)]
      exact h.parent p n hsome

section Gone

variable {gone : Path → Prop} [DecidablePred gone]

omit [DecidablePred gone] in
theorem not_gone_above (hdown : ∀ p n, gone p → gone (p ++ [n])) {z : Path} (h : ¬gone (p ++ z)) : ¬gone p := by
  intro hp
  apply h
  clear h
  induction z using List.reverseRecOn with
  | nil => rwa [List.append_nil]
  | append_singleton z n ih =>
    rw [← List.append_assoc]
    exact hdown _ n ih

variable (gone) in
/-- To write at one path and drop what is downward closed. -/
theorem closed_write_drop_iff (h : Closed view) (hd : d ≠ []) (kind : Kind γ) (hdown : ∀ p n, gone p → gone (p ++ [n]))
    (hstays : ¬gone d) :
    Closed (fun q => if gone q then none else Function.update view d (some kind) q) ↔
      view d.dropLast = some .node ∧ (kind = .node ∨ ∀ z, z ≠ [] → view (d ++ z) ≠ none → gone (d ++ z)) := by
  have hother : ∀ q, q ≠ d → Function.update view d (some kind) q = view q := fun q hq => Function.update_of_ne hq _ _
  have hself : Function.update view d (some kind) d = some kind := Function.update_self ..
  have hlonger : ∀ z, z ≠ [] → d ++ z ≠ d := fun z hz heq => hz (List.append_right_eq_self.1 heq)
  have hlast : d.dropLast ++ [d.getLast hd] = d := List.dropLast_append_getLast hd
  have hinit : d.dropLast ≠ d := by
    intro heq
    have hlen := congrArg List.length heq
    have hpos : 0 < d.length := List.length_pos_of_ne_nil hd
    rw [List.length_dropLast] at hlen
    omega
  have hinitStays : ¬gone d.dropLast := by
    refine not_gone_above (z := [d.getLast hd]) hdown ?_
    rwa [hlast]
  have hrootStays : ¬gone [] := not_gone_above (z := d) hdown hstays
  constructor
  · intro hclosed
    have hparent := hclosed.dropLast hd (by simp only [if_neg hstays, hself]; exact Option.some_ne_none _)
    simp only [if_neg hinitStays, hother _ hinit] at hparent
    refine ⟨hparent, or_iff_not_imp_left.2 fun hkind z hz hsome => ?_⟩
    by_contra hthere
    have hbelow := hclosed.below (p := d)
      (by simp only [if_neg hstays, hself]; exact fun heq => hkind (Option.some.inj heq)) hz
    simp only [if_neg hthere, hother _ (hlonger z hz)] at hbelow
    exact hsome hbelow
  · rintro ⟨hparent, hkind⟩
    refine ⟨?_, fun p n hsome => ?_⟩
    · simp only [if_neg hrootStays, hother [] hd.symm, h.root]
    · split at hsome
      · exact absurd rfl hsome
      · next hthere =>
        have hp : ¬gone p := fun hp => hthere (hdown p n hp)
        simp only [if_neg hp]
        by_cases hpd : p = d
        · subst hpd
          rw [hother _ (hlonger [n] (by simp))] at hsome
          rw [hself]
          rcases hkind with hnode | hgone
          · rw [hnode]
          · exact absurd (hgone [n] (by simp) hsome) hthere
        · rw [hother p hpd]
          by_cases hpn : p ++ [n] = d
          · have hsame : p = d.dropLast := by rw [← hpn, List.dropLast_concat]
            rw [hsame]
            exact hparent
          · rw [hother _ hpn] at hsome
            exact h.parent p n hsome

end Gone

/-- To write at one path. -/
theorem closed_write_iff (h : Closed view) (hd : d ≠ []) (kind : Kind γ) :
    Closed (Function.update view d (some kind)) ↔
      view d.dropLast = some .node ∧ (kind = .node ∨ ∀ z, z ≠ [] → view (d ++ z) = none) := by
  have hnone := closed_write_drop_iff (fun _ => False) h hd kind (fun _ _ h => h) id
  simpa using hnone

/-- What is below `s` laid over what is below `d`. -/
def overlay (view : FileView γ) (s d : Path) : FileView γ := fun q =>
  if d <+: q ∧ q ≠ d ∧ view (s ++ q.drop d.length) ≠ none then view (s ++ q.drop d.length) else view q

theorem overlay_below {x : Path} (hx : x ≠ []) :
    overlay view s d (d ++ x) = if view (s ++ x) ≠ none then view (s ++ x) else view (d ++ x) := by
  have hne : d ++ x ≠ d := fun heq => hx (List.append_right_eq_self.1 heq)
  unfold overlay
  simp [hne]

theorem overlay_of_not_below (h : ∀ x, x ≠ [] → q ≠ d ++ x) : overlay view s d q = view q := by
  rw [overlay, if_neg]
  rintro ⟨⟨x, rfl⟩, hne, -⟩
  refine h x ?_ rfl
  rintro rfl
  exact hne (List.append_nil d)

/-- To lay a directory over a directory and drop what is downward closed: no file may come to stand where something
stays below it. -/
theorem closed_overlay_drop_iff (h : Closed view) (hd : view d = some .node) {gone : Path → Prop} [DecidablePred gone]
    (hdown : ∀ p n, gone p → gone (p ++ [n])) (hstays : ¬gone d) :
    Closed (fun q => if gone q then none else overlay view s d q) ↔
      ∀ x z v, x ≠ [] → z ≠ [] → view (s ++ x) = some (.leaf v) → view (d ++ x ++ z) ≠ none → gone (d ++ x ++ z) := by
  have hrootStays : ¬gone [] := not_gone_above (z := d) hdown hstays
  constructor
  · intro hclosed x z v hx hz hfile hsome
    by_contra hthere
    have hplaceStays : ¬gone (d ++ x) := not_gone_above hdown hthere
    have hplace : overlay view s d (d ++ x) = some (.leaf v) := by
      rw [overlay_below hx, hfile]
      simp
    have hbelow := hclosed.below (p := d ++ x) (by simp only [if_neg hplaceStays, hplace]; simp) hz
    have hnone : view (s ++ x ++ z) = none := h.below (by rw [hfile]; simp) hz
    simp only [if_neg hthere] at hbelow
    rw [List.append_assoc, overlay_below (by simp [hx]), ← List.append_assoc, ← List.append_assoc, hnone] at hbelow
    exact hsome (by simpa using hbelow)
  · intro hfree
    refine ⟨?_, fun p n hsome => ?_⟩
    · simp only [if_neg hrootStays]
      rw [overlay_of_not_below, h.root]
      intro x hx heq
      exact hx (List.append_eq_nil_iff.1 heq.symm).2
    · split at hsome
      · exact absurd rfl hsome
      · next hthere =>
        have hpStays : ¬gone p := fun hp => hthere (hdown p n hp)
        simp only [if_neg hpStays]
        by_cases hp : d <+: p
        · obtain ⟨y, rfl⟩ := hp
          have hnode : view (d ++ y ++ [n]) ≠ none → view (d ++ y) = some .node := h.parent _ n
          rw [List.append_assoc, overlay_below (by simp), ← List.append_assoc, ← List.append_assoc] at hsome
          by_cases hy : y = []
          · subst hy
            rw [List.append_nil, overlay_of_not_below, hd]
            intro x hx heq
            exact hx (List.append_right_eq_self.1 heq.symm)
          · rw [overlay_below hy]
            by_cases hcopied : view (s ++ y ++ [n]) ≠ none
            · have habove := h.parent _ n hcopied
              simp [habove]
            · rw [if_neg hcopied] at hsome
              have hkept := hnode hsome
              split
              · next hplace =>
                cases hkind : view (s ++ y) with
                | none => exact absurd hkind hplace
                | some kind =>
                  cases kind with
                  | node => rfl
                  | leaf v => exact absurd (hfree y [n] v hy (by simp) hkind hsome) hthere
              · exact hkept
        · have hpn : overlay view s d p = view p := by
            apply overlay_of_not_below
            rintro x - rfl
            exact hp (List.prefix_append d x)
          rw [hpn]
          refine h.parent p n ?_
          by_cases hchild : p ++ [n] = d
          · rw [hchild, hd]
            exact Option.some_ne_none _
          · rw [overlay_of_not_below] at hsome
            · exact hsome
            · intro x hx heq
              obtain ⟨x, m, rfl⟩ := (List.eq_nil_or_concat' x).resolve_left hx
              rw [← List.append_assoc] at heq
              obtain ⟨hinit, -⟩ := List.append_inj' heq rfl
              exact hp ⟨x, hinit.symm⟩

end CliServer
