import CliServer.Files.Common
import CliServer.Lib.DistinctNames

/-!
# Trees that store a view

A tree stores a view if its names are distinct and its view is that one, each text in the form the provider keeps it in.
What the in-memory and the JSON provider have in common keeps this, and answers what `Common.provider` answers.
-/

namespace CliServer

open NamedTree Forest

variable {γ : Type} {len : γ → Nat}

/-- The file that holds a text. -/
def FileData.ofText (ofText : Str → γ) (text : Str) : FileData len :=
  { content := ofText text, size := len (ofText text), size_eq := rfl }

/-- The names of the tree are distinct, and it holds these texts at these paths. -/
structure StoresView (ofText : Str → γ) (root : FileTree len) (view : FileView Str) : Prop where
  distinct : (node root).Distinct
  view_eq : ∀ p, (node root).view p = (view p).map (Kind.map (FileData.ofText ofText))

variable {ofText : Str → γ} {root made : FileTree len} {view : FileView Str} {path : Str} {p q d s : Path}

/-! ### The view of the tree -/

namespace StoresView

theorem eq_none_iff (h : StoresView ofText root view) : (node root).view p = none ↔ view p = none := by
  rw [h.view_eq, Option.map_eq_none_iff]

private theorem eq_leaf_iff (h : StoresView ofText root view) :
    (∃ file, (node root).view p = some (.leaf file)) ↔ ∃ text, view p = some (.leaf text) := by
  rw [h.view_eq]
  cases view p with
  | none => simp
  | some kind => cases kind <;> simp [Kind.map]

private theorem eq_node_iff (h : StoresView ofText root view) :
    (node root).view p = some .node ↔ view p = some .node := by
  rw [h.view_eq]
  cases view p with
  | none => simp
  | some kind => cases kind <;> simp [Kind.map]

private theorem blocked_iff (h : StoresView ofText root view) : Blocked (node root).view p ↔ Blocked view p := by
  constructor
  · rintro ⟨q, file, hq, habove, hfile⟩
    obtain ⟨text, htext⟩ := h.eq_leaf_iff.1 ⟨file, hfile⟩
    exact ⟨q, text, hq, habove, htext⟩
  · rintro ⟨q, text, hq, habove, htext⟩
    obtain ⟨file, hfile⟩ := h.eq_leaf_iff.2 ⟨text, htext⟩
    exact ⟨q, file, hq, habove, hfile⟩

theorem closed (h : StoresView ofText root view) : Closed view := by
  have hclosed := closed_tree root
  refine ⟨h.eq_node_iff.1 hclosed.root, fun p n hsome => ?_⟩
  exact h.eq_node_iff.1 (hclosed.parent p n fun hnone => hsome (h.eq_none_iff.1 hnone))

private theorem withParents_eq (h : StoresView ofText root view) (parents p : Path) :
    withParents (node root).view parents p = (withParents view parents p).map (Kind.map (FileData.ofText ofText)) := by
  unfold withParents
  by_cases hmade : p ≠ [] ∧ p <+: parents ∧ view p = none
  · rw [if_pos hmade, if_pos ⟨hmade.1, hmade.2.1, h.eq_none_iff.2 hmade.2.2⟩]
    rfl
  · rw [if_neg hmade, if_neg, h.view_eq]
    exact fun hall => hmade ⟨hall.1, hall.2.1, h.eq_none_iff.1 hall.2.2⟩

/-- What is found at a path. -/
private theorem resolve_cases (h : StoresView ofText root view) (p : Path) :
    (view p = none ∧ resolve root p = none) ∨
    (∃ text, view p = some (.leaf text) ∧ resolve root p = some (leaf (FileData.ofText ofText text))) ∨
    (view p = some .node ∧ ∃ children, resolve root p = some (node children)) := by
  cases hkind : view p with
  | none => exact .inl ⟨rfl, view_eq_none_iff.1 (h.eq_none_iff.2 hkind)⟩
  | some kind =>
    right
    cases kind with
    | leaf text =>
      refine .inl ⟨text, rfl, ?_⟩
      have hview := h.view_eq p
      rw [hkind] at hview
      obtain ⟨found, hfound, hleaf⟩ := Option.map_eq_some_iff.1 hview
      cases found with
      | leaf file =>
        obtain rfl := Kind.leaf.inj hleaf
        exact hfound
      | node children => cases hleaf
    | node => exact .inr ⟨rfl, find_of_view_node (h.eq_node_iff.2 hkind)⟩

end StoresView

/-! ### Reading -/

variable (hlen : ∀ text, len (ofText text) = utf8Length text)

include hlen in
/-- What is said of a node is said of what stands there. -/
private theorem nodeEntry_eq (name : Str) (t : NamedTree Name (FileData len)) {kind : Kind Str}
    (h : t.kind = kind.map (FileData.ofText ofText)) : nodeEntry name t = kindEntry name kind := by
  cases t with
  | leaf file =>
    cases kind with
    | leaf text =>
      obtain rfl := Kind.leaf.inj h
      show (⟨name, .file, len (ofText text), _⟩ : FileEntry) = ⟨name, .file, utf8Length text, _⟩
      rw [hlen]
    | node => cases h
  | node children =>
    cases kind with
    | leaf text => cases h
    | node => rfl

include hlen in
/-- The children of a directory are its listing. -/
theorem StoresView.isListing (h : StoresView ofText root view) {children : FileTree len}
    (hfound : resolve root p = some (node children)) :
    IsListing view p (sortedEntries (children.map fun child => nodeEntry child.1.text child.2)) := by
  have hdistinct : (node children).Distinct := h.distinct.of_find hfound
  have hchild : ∀ n, (view (p ++ [n])).map (Kind.map (FileData.ofText ofText)) = (children.lookup n).map kind := by
    intro n
    rw [← h.view_eq, view_append_of_find hfound, view_node_cons]
    cases children.lookup n with
    | none => rfl
    | some t => simp [NamedTree.view]
  have hname : ∀ (name : Str) (t : NamedTree Name (FileData len)), (nodeEntry name t).name = name := by
    intro name t
    cases t <;> rfl
  apply isListing_sortedEntries
  · have hnames : (children.map fun child => nodeEntry child.1.text child.2).map FileEntry.name =
        (children.map Prod.fst).map Name.text := by
      rw [List.map_map, List.map_map]
      apply List.map_congr_left
      intro child _
      exact hname _ _
    rw [hnames]
    exact hdistinct.nodup.map Name.text_injective
  · intro entry
    rw [List.mem_map]
    constructor
    · rintro ⟨⟨n, t⟩, hmem, rfl⟩
      have hlookup := (lookup_eq_some_iff_mem hdistinct.nodup).2 hmem
      have hn := hchild n
      rw [hlookup] at hn
      obtain ⟨kind, hkind, hsame⟩ := Option.map_eq_some_iff.1 hn
      exact ⟨n, kind, hkind, nodeEntry_eq hlen n.text t hsame.symm⟩
    · rintro ⟨n, kind, hkind, rfl⟩
      have hn := hchild n
      rw [hkind] at hn
      obtain ⟨t, hlookup, hsame⟩ := Option.map_eq_some_iff.1 hn.symm
      exact ⟨(n, t), (lookup_eq_some_iff_mem hdistinct.nodup).1 hlookup, nodeEntry_eq hlen n.text t hsame⟩

include hlen in
theorem StoresView.listNode_eq (h : StoresView ofText root view) (path : Str) :
    listNode root path = Common.list view path := by
  unfold listNode Common.list
  rcases h.resolve_cases (normalizePath path) with ⟨hnone, hfound⟩ | ⟨text, hfile, hfound⟩ | ⟨hnode, children, hfound⟩
  · rw [hnone, hfound]
  · rw [hfile, hfound]
  · rw [hnode, hfound, (h.isListing hlen hfound).eq_listing]

theorem StoresView.readNode_eq {α : Type} (h : StoresView ofText root view) (f : γ → α) (path : Str) :
    readNode f root path = Common.read (fun text => f (ofText text)) view path := by
  unfold readNode Common.read
  rcases h.resolve_cases (normalizePath path) with ⟨hnone, hfound⟩ | ⟨text, hfile, hfound⟩ | ⟨hnode, children, hfound⟩
  · rw [hnone, hfound]
  · rw [hfile, hfound]
    rfl
  · rw [hnode, hfound]

include hlen in
theorem StoresView.statNode_eq (h : StoresView ofText root view) (path : Str) :
    statNode root path = Common.stat view path := by
  unfold statNode Common.stat
  rcases h.resolve_cases (normalizePath path) with ⟨hnone, hfound⟩ | ⟨text, hfile, hfound⟩ | ⟨hnode, children, hfound⟩
  · rw [hnone, hfound]
  · rw [hfile, hfound]
    exact congrArg Except.ok (nodeEntry_eq hlen _ _ rfl)
  · rw [hnode, hfound]
    rfl

theorem StoresView.exists_eq (h : StoresView ofText root view) (p : Path) :
    (resolve root p).isSome = (view p).isSome := by
  rcases h.resolve_cases p with ⟨hnone, hfound⟩ | ⟨text, hfile, hfound⟩ | ⟨hnode, children, hfound⟩
  · rw [hnone, hfound]
    rfl
  · rw [hfile, hfound]
    rfl
  · rw [hnode, hfound]
    rfl

/-! ### Making parents, putting and dropping -/

private theorem distinct_ensureParents {children : FileTree len} (path : Str) (h : (node children).Distinct)
    (parts : Path) :
    (node (ensureParents path children parts).1).Distinct := by
  induction parts generalizing children with
  | nil => exact h
  | cons part parts ih =>
    rcases part_cases children part with ⟨file, hfile⟩ | ⟨inner, hinner⟩
    · rw [ensureParents_leaf hfile]
      exact h
    · rw [ensureParents_node hinner]
      apply distinct_assign h
      apply ih
      cases hlookup : children.lookup part with
      | none =>
        rw [hlookup, Option.getD_none] at hinner
        rw [← hinner]
        exact distinct_empty
      | some t =>
        rw [hlookup, Option.getD_some] at hinner
        rw [← hinner]
        exact h.child hlookup

/-- The parents of a path are made, or a file is in the way and the tree stays what it was. -/
theorem StoresView.ensureParents_cases (h : StoresView ofText root view) (path : Str) (parents : Path) :
    (∃ made, ensureParents path root parents = (made, some (.notADirectory path)) ∧ Blocked view parents ∧
      StoresView ofText made view) ∨
    ∃ made, ensureParents path root parents = (made, none) ∧ ¬Blocked view parents ∧
      StoresView ofText made (withParents view parents) := by
  have hdistinct := distinct_ensureParents path h.distinct parents
  rcases ensureParents_error path root parents with ⟨made, hrun, hblocked, hview⟩ | ⟨made, hrun, hblocked, hview⟩
  · rw [hrun] at hdistinct
    refine .inl ⟨made, hrun, h.blocked_iff.1 hblocked, hdistinct, fun p => ?_⟩
    rw [hview, h.view_eq]
  · rw [hrun] at hdistinct
    refine .inr ⟨made, hrun, mt h.blocked_iff.2 hblocked, hdistinct, fun p => ?_⟩
    rw [hview, h.withParents_eq]

/-- How the checks of a copy or a move end: nothing is at the source, the destination is the root, a file is in the
way of it, or its parents are made. -/
theorem StoresView.transfer_cases (h : StoresView ofText root view) (dest : Str) (s d : Path) :
    (view s = none ∧ resolve root s = none) ∨
    (view s ≠ none ∧ ∃ srcNode, resolve root s = some srcNode ∧
      (d = [] ∨
      (d ≠ [] ∧ Blocked view d.dropLast ∧ ∃ made,
        ensureParents dest root d.dropLast = (made, some (.notADirectory dest)) ∧ StoresView ofText made view) ∨
      (d ≠ [] ∧ ¬Blocked view d.dropLast ∧ ∃ made,
        ensureParents dest root d.dropLast = (made, none) ∧
        StoresView ofText made (withParents view d.dropLast)))) := by
  cases hfound : resolve root s with
  | none => exact .inl ⟨h.eq_none_iff.1 (view_eq_none_iff.2 hfound), rfl⟩
  | some srcNode =>
    right
    have hsome : view s ≠ none := by
      rw [Ne, ← h.eq_none_iff, view_eq_none_iff]
      intro hnone
      rw [resolve, hnone] at hfound
      cases hfound
    refine ⟨hsome, srcNode, rfl, ?_⟩
    by_cases hd : d = []
    · exact .inl hd
    · right
      rcases h.ensureParents_cases dest d.dropLast with ⟨made, hrun, hblocked, hmade⟩ | ⟨made, hrun, hblocked, hmade⟩
      · exact .inl ⟨hd, hblocked, made, hrun, hmade⟩
      · exact .inr ⟨hd, hblocked, made, hrun, hmade⟩

/-- A subtree put under the last name of a path. -/
theorem StoresView.put (h : StoresView ofText root view) (hd : d ≠ []) (hparent : view d.dropLast = some .node)
    {f : FileTree len → FileTree len} (copy : NamedTree Name (FileData len)) (copyView : FileView Str)
    (hcopy : ∀ x, copy.view x = (copyView x).map (Kind.map (FileData.ofText ofText)))
    (hlookup : ∀ cs, (node root).find d.dropLast = some (node cs) →
      ∀ k, (f cs).lookup k = if k = d.getLast hd then some copy else cs.lookup k)
    (hdistinct : ∀ cs, (node root).find d.dropLast = some (node cs) → (node cs).Distinct → (node (f cs)).Distinct) :
    StoresView ofText (root.alter f d.dropLast) fun q => if d <+: q then copyView (q.drop d.length) else view q where
  distinct := distinct_alter h.distinct hdistinct
  view_eq p := by
    rw [view_put hd (h.eq_node_iff.2 hparent) hlookup]
    split
    · exact hcopy _
    · exact h.view_eq p

/-- The last name of a path dropped. -/
theorem StoresView.drop (h : StoresView ofText root view) (hs : s ≠ []) :
    StoresView ofText (root.alter (fun children => children.discard (s.getLast hs)) s.dropLast)
      fun q => if s <+: q then none else view q where
  distinct := distinct_alter h.distinct fun _ _ hinner => distinct_discard hinner _
  view_eq p := by
    rw [view_drop]
    split
    · rfl
    · exact h.view_eq p

/-- Nothing at or below a path is one of its parents. -/
theorem not_prefix_dropLast (hd : d ≠ []) (x : Path) : ¬d ++ x <+: d.dropLast := by
  intro h
  have hlen := h.length_le
  have hpos : 0 < d.length := List.length_pos_of_ne_nil hd
  rw [List.length_append, List.length_dropLast] at hlen
  omega

theorem parents_made (hclosed : Closed view) (hblocked : ¬Blocked view p) : withParents view p p = some .node := by
  by_cases hroot : p = []
  · rw [hroot, withParents_nil, hclosed.root]
  · exact withParents_node hblocked hroot (List.prefix_refl p)

/-! ### Writing -/

/-- To put one thing where nothing is below changes nothing else. -/
theorem put_single_eq {found : Option (Kind Str)} (hfree : ∀ x, x ≠ [] → view (d ++ x) = none) :
    (fun q => if d <+: q then (if q.drop d.length = [] then found else none) else view q) =
      Function.update view d found := by
  funext q
  by_cases hq : d <+: q
  · obtain ⟨x, rfl⟩ := hq
    rw [if_pos (List.prefix_append d x), List.drop_left]
    by_cases hx : x = []
    · rw [if_pos hx, hx, List.append_nil, Function.update_self]
    · have hne : d ++ x ≠ d := fun heq => hx (List.append_right_eq_self.1 heq)
      rw [if_neg hx, Function.update_of_ne hne, hfree x hx]
  · have hne : q ≠ d := fun heq => hq (heq ▸ List.prefix_refl d)
    rw [if_neg hq, Function.update_of_ne hne]

/-- How the steps of a write end. -/
private theorem StoresView.write_cases (h : StoresView ofText root view) (path : Str) (hd : d ≠ []) (text : Str) :
    (∃ made, ensureParents path root d.dropLast = (made, some (.notADirectory path)) ∧ Blocked view d.dropLast ∧
      StoresView ofText made view) ∨
    (¬Blocked view d.dropLast ∧ ∃ made, ensureParents path root d.dropLast = (made, none) ∧
      ((view d = some .node ∧ (∃ children, resolve made d = some (node children)) ∧ StoresView ofText made view) ∨
      (view d ≠ some .node ∧ (∀ children, resolve made d ≠ some (node children)) ∧
        StoresView ofText (made.alter (fun children => children.assign (d.getLast hd) (leaf (FileData.ofText ofText text)))
          d.dropLast) (Function.update (withParents view d.dropLast) d (some (.leaf text)))))) := by
  have hclosed := h.closed
  rcases h.ensureParents_cases path d.dropLast with ⟨made, hrun, hblocked, hmade⟩ | ⟨made, hrun, hblocked, hmade⟩
  · exact .inl ⟨made, hrun, hblocked, hmade⟩
  · refine .inr ⟨hblocked, made, hrun, ?_⟩
    have hsame : withParents view d.dropLast d = view d := by
      apply withParents_of_not_above
      simpa using not_prefix_dropLast hd []
    by_cases hnode : view d = some .node
    · have hparent := hclosed.dropLast hd (by rw [hnode]; exact Option.some_ne_none _)
      rw [withParents_eq_self hclosed (by rw [hparent]; exact Option.some_ne_none _)] at hmade
      exact .inl ⟨hnode, find_of_view_node (hmade.eq_node_iff.2 hnode), hmade⟩
    · right
      refine ⟨hnode, ?_, ?_⟩
      · intro children hfound
        have hview : (node made).view d = some .node := by
          have hfind : (node made).find d = some (node children) := hfound
          simp [NamedTree.view, hfind, kind]
        rw [hmade.eq_node_iff, hsame] at hview
        exact hnode hview
      · have hparent := parents_made hclosed hblocked
        have hfree : ∀ x, x ≠ [] → withParents view d.dropLast (d ++ x) = none := by
          intro x hx
          rw [withParents_of_not_above (not_prefix_dropLast hd x), hclosed.below hnode hx]
        rw [← put_single_eq hfree]
        refine hmade.put hd hparent _ (fun x => if x = [] then some (.leaf text) else none) ?_
          (fun cs _ k => lookup_assign cs _ _ k) fun cs _ hcs => distinct_assign hcs (distinct_leaf _)
        intro x
        cases x with
        | nil => rfl
        | cons n x => rfl

theorem StoresView.writeNode_eq (h : StoresView ofText root view) (path : Str) (content : Content) :
    (writeNode root (normalizePath path) path (FileData.ofText ofText content.decoded)).2 =
        (Common.writeFile view path content).2 ∧
      StoresView ofText (writeNode root (normalizePath path) path (FileData.ofText ofText content.decoded)).1
        (Common.writeFile view path content).1 := by
  unfold writeNode Common.writeFile
  generalize normalizePath path = d
  by_cases hd : d = []
  · simp only [dif_pos hd, if_pos hd]
    exact ⟨trivial, h⟩
  simp only [dif_neg hd, if_neg hd]
  rcases h.write_cases path hd content.decoded with
    ⟨made, hrun, hblocked, hmade⟩ | ⟨hblocked, made, hrun, ⟨hnode, ⟨children, hfound⟩, hmade⟩ | ⟨hnode, hfile, hwritten⟩⟩
  · rw [hrun, if_pos hblocked]
    exact ⟨rfl, hmade⟩
  · rw [hrun, if_neg hblocked, if_pos hnode]
    simp only [hfound]
    exact ⟨trivial, hmade⟩
  · rw [hrun, if_neg hblocked, if_neg hnode]
    simp only
    exact ⟨trivial, hwritten⟩

/-! ### Directories -/

/-- `_ensure_parents` with `create=False`. -/
theorem existingParents_cases (path : Str) (children : FileTree len) (parts : Path) :
    (∃ inner, existingParents path children parts = .ok inner ∧ (node children).find parts = some (node inner)) ∨
    (existingParents path children parts = .error (.notADirectory path) ∧ Blocked (node children).view parts) ∨
    (existingParents path children parts = .error (.notFound path) ∧ (node children).view parts = none ∧
      ¬Blocked (node children).view parts) := by
  induction parts generalizing children with
  | nil => exact .inl ⟨children, rfl, rfl⟩
  | cons part parts ih =>
    unfold existingParents
    cases hlookup : children.lookup part with
    | none =>
      refine .inr (.inr ⟨rfl, by rw [view_node_cons, hlookup, Option.bind_none], ?_⟩)
      rintro ⟨q, file, hq, habove, hfile⟩
      obtain ⟨k, q, rfl⟩ := List.exists_cons_of_ne_nil hq
      obtain ⟨rfl, -⟩ := List.cons_prefix_cons.1 habove
      rw [view_node_cons, hlookup, Option.bind_none] at hfile
      cases hfile
    | some t =>
      cases t with
      | leaf file => exact .inr (.inl ⟨rfl, blocked_cons_leaf hlookup⟩)
      | node inner =>
        have hinner : (children.lookup part).getD (node []) = node inner := by rw [hlookup, Option.getD_some]
        rw [find_node_cons, view_node_cons, hlookup, Option.bind_some, Option.bind_some, blocked_cons_iff hinner]
        exact ih inner

theorem StoresView.makeDirectory_eq (h : StoresView ofText root view) (path : Str) (recursive : Bool)
    (hagreed : recursive = true ∨ ¬Blocked view (normalizePath path).dropLast.dropLast) :
    (makeDirectory root (normalizePath path) path recursive).2.1 = (Common.mkdir view path recursive).2 ∧
      StoresView ofText (makeDirectory root (normalizePath path) path recursive).1
        (Common.mkdir view path recursive).1 := by
  unfold makeDirectory Common.mkdir
  generalize normalizePath path = d at hagreed ⊢
  by_cases hd : d = []
  · simp only [dif_pos hd, if_pos hd]
    exact ⟨trivial, h⟩
  simp only [dif_neg hd, if_neg hd]
  cases recursive with
  | true =>
    simp only [if_true]
    rcases h.ensureParents_cases path d with ⟨made, hrun, hblocked, hmade⟩ | ⟨made, hrun, hblocked, hmade⟩
    · rw [hrun, if_pos hblocked]
      exact ⟨rfl, hmade⟩
    · rw [hrun, if_neg hblocked]
      exact ⟨rfl, hmade⟩
  | false =>
    simp only [Bool.false_eq_true, if_false]
    have hfar : ¬Blocked view d.dropLast.dropLast := by simpa using hagreed
    have hlast : d.dropLast ++ [d.getLast hd] = d := List.dropLast_append_getLast hd
    rcases existingParents_cases path root d.dropLast with
      ⟨inner, hrun, hfound⟩ | ⟨hrun, hblocked⟩ | ⟨hrun, hnone, hblocked⟩
    · have hnode : view d.dropLast = some .node := by
        rw [← h.eq_node_iff]
        simp [NamedTree.view, hfound, kind]
      have hchild : (inner.lookup (d.getLast hd)) = resolve root d := by
        have hfind := find_append (node root) d.dropLast [d.getLast hd]
        rw [hlast, hfound, Option.bind_some, find_node_cons] at hfind
        rw [resolve, hfind]
        cases inner.lookup (d.getLast hd) <;> simp
      rw [hrun, hnode]
      simp only
      rcases h.resolve_cases d with ⟨hnone, hfree⟩ | ⟨text, hfile, hthere⟩ | ⟨hdir, children, hthere⟩
      · rw [hchild, hfree, hnone]
        refine ⟨rfl, ?_⟩
        have hbelow : ∀ x, x ≠ [] → view (d ++ x) = none := fun x hx => h.closed.below (by rw [hnone]; simp) hx
        simp only
        rw [← put_single_eq hbelow]
        refine h.put hd hnode (node []) (fun x => if x = [] then some .node else none) ?_ ?_ ?_
        · intro x
          cases x with
          | nil => rfl
          | cons n x => rfl
        · intro cs hcs k
          obtain rfl : cs = inner := by
            rw [hfound, Option.some_inj] at hcs
            exact (node.inj hcs).symm
          exact lookup_append_new (hchild.trans hfree) _ k
        · intro cs hcs hdistinct
          obtain rfl : cs = inner := by
            rw [hfound, Option.some_inj] at hcs
            exact (node.inj hcs).symm
          exact distinct_append_new hdistinct (hchild.trans hfree) distinct_empty
      · rw [hchild, hthere, hfile]
        exact ⟨rfl, h⟩
      · rw [hchild, hthere, hdir]
        exact ⟨rfl, h⟩
    · -- the file in the way is the parent itself
      obtain ⟨q, text, hq, habove, hfile⟩ := h.blocked_iff.1 hblocked
      have hparent : q = d.dropLast := by
        by_contra hne
        exact hfar ⟨q, text, hq, prefix_dropLast_of_ne habove hne, hfile⟩
      rw [hrun, ← hparent, hfile]
      exact ⟨rfl, h⟩
    · rw [hrun, h.eq_none_iff.1 hnone]
      exact ⟨rfl, h⟩

/-! ### Removing -/

/-- What is in a directory. -/
private theorem StoresView.children_ne_nil_iff (h : StoresView ofText root view) {children : FileTree len}
    (hfound : resolve root p = some (node children)) : children ≠ [] ↔ ∃ n, view (p ++ [n]) ≠ none := by
  have hview : ∀ n, view (p ++ [n]) ≠ none ↔ children.lookup n ≠ none := by
    intro n
    rw [Ne, ← h.eq_none_iff, view_append_of_find hfound, view_node_cons]
    cases children.lookup n with
    | none => simp
    | some t => simp [NamedTree.view]
  simp only [hview]
  constructor
  · intro hne
    obtain ⟨⟨n, t⟩, rest, rfl⟩ := List.exists_cons_of_ne_nil hne
    exact ⟨n, by simp⟩
  · rintro ⟨n, hn⟩ rfl
    exact hn rfl

theorem StoresView.removeNode_eq (h : StoresView ofText root view) (path : Str) (recursive : Bool)
    (hnorm : normalizePath path ≠ []) :
    (removeNode root (normalizePath path) path recursive hnorm).2 = (Common.remove view path recursive).2 ∧
      StoresView ofText (removeNode root (normalizePath path) path recursive hnorm).1
        (Common.remove view path recursive).1 := by
  unfold removeNode Common.remove
  simp only [if_neg hnorm]
  generalize normalizePath path = d at hnorm ⊢
  have hlast : d.dropLast ++ [d.getLast hnorm] = d := List.dropLast_append_getLast hnorm
  have hfind : ((resolve root d.dropLast).bind fun parent => parent.find [d.getLast hnorm]) = resolve root d := by
    have hsplit := find_append (node root) d.dropLast [d.getLast hnorm]
    rw [hlast] at hsplit
    exact hsplit.symm
  rw [hfind]
  have hdropped := h.drop hnorm
  rcases h.resolve_cases d with ⟨hnone, hfound⟩ | ⟨text, hfile, hfound⟩ | ⟨hnode, children, hfound⟩
  · rw [hfound, if_pos hnone]
    exact ⟨rfl, h⟩
  · rw [hfound, if_neg (by rw [hfile]; simp), if_neg (by rw [hfile]; simp)]
    exact ⟨rfl, hdropped⟩
  · rw [hfound, if_neg (by rw [hnode]; simp)]
    have hinside := h.children_ne_nil_iff hfound
    cases children with
    | nil =>
      rw [if_neg fun hall => hinside.2 hall.2.2 rfl]
      exact ⟨rfl, hdropped⟩
    | cons child children =>
      cases recursive with
      | true =>
        rw [if_neg (by simp)]
        exact ⟨rfl, hdropped⟩
      | false =>
        rw [if_pos ⟨hnode, rfl, hinside.1 (List.cons_ne_nil _ _)⟩]
        exact ⟨rfl, h⟩

end CliServer
