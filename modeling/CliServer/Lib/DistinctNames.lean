import CliServer.Lib.NamedTree

/-!
# Trees whose names are distinct

`Distinct` says that no node has two children of one name.  Then what a node holds under a name is what `lookup`
finds, and the operations on a forest keep it so: putting a child under a name that is free, changing one, dropping
one, and any of these at a path inside the tree (`distinct_alter`).
-/

namespace NamedTree

open Forest

variable {κ ν μ : Type*}

/-- The value of a leaf, mapped. -/
def Kind.map (f : ν → μ) : Kind ν → Kind μ
  | .leaf v => .leaf (f v)
  | .node => .node

variable [DecidableEq κ]

/-- No two children of a node have the same name. -/
def Distinct (t : NamedTree κ ν) : Prop := ∀ p cs, t.find p = some (node cs) → (cs.map Prod.fst).Nodup

variable {t u : NamedTree κ ν} {cs inner : Forest κ ν} {k : κ} {p : List κ}

/-- A subtree has distinct names. -/
theorem Distinct.of_find (h : t.Distinct) (hfind : t.find p = some u) : u.Distinct := by
  intro q cs hcs
  apply h (p ++ q) cs
  rw [find_append, hfind, Option.bind_some, hcs]

theorem distinct_leaf (v : ν) : (leaf v : NamedTree κ ν).Distinct := by
  intro p cs hcs
  cases p <;> cases hcs

private theorem distinct_node_iff :
    (node cs).Distinct ↔ (cs.map Prod.fst).Nodup ∧ ∀ k u, cs.lookup k = some u → u.Distinct := by
  constructor
  · intro h
    refine ⟨h [] cs (find_nil _), fun k u hu => ?_⟩
    have hfind : (node cs).find [k] = some u := by rw [find_node_cons, hu, Option.bind_some, find_nil]
    exact h.of_find hfind
  · rintro ⟨hnames, hchildren⟩ p inner hinner
    cases p with
    | nil =>
      rw [find_nil, Option.some_inj] at hinner
      obtain rfl := node.inj hinner
      exact hnames
    | cons k p =>
      rw [find_node_cons] at hinner
      obtain ⟨u, hu, hfind⟩ := Option.bind_eq_some_iff.1 hinner
      exact hchildren k u hu p inner hfind

theorem distinct_empty : (node [] : NamedTree κ ν).Distinct := by
  rw [distinct_node_iff]
  exact ⟨List.nodup_nil, fun k u h => by cases h⟩

theorem Distinct.nodup (h : (node cs).Distinct) : (cs.map Prod.fst).Nodup := (distinct_node_iff.1 h).1

theorem Distinct.child (h : (node cs).Distinct) (hu : cs.lookup k = some u) : u.Distinct :=
    (distinct_node_iff.1 h).2 k u hu

private theorem lookup_eq_none_iff_notMem : cs.lookup k = none ↔ k ∉ cs.map Prod.fst := by
  rw [List.lookup_eq_none_iff, List.mem_map]
  constructor
  · rintro h ⟨c, hc, rfl⟩
    simpa using h c hc
  · intro h c hc
    have hne : k ≠ c.1 := fun heq => h ⟨c, hc, heq.symm⟩
    simpa using hne

/-- What stands under a name is what `lookup` finds. -/
theorem lookup_eq_some_iff_mem (h : (cs.map Prod.fst).Nodup) : cs.lookup k = some t ↔ (k, t) ∈ cs := by
  induction cs with
  | nil => simp
  | cons c cs ih =>
    obtain ⟨k', u⟩ := c
    rw [List.map_cons, List.nodup_cons] at h
    obtain ⟨hnew, hrest⟩ := h
    have ih := ih hrest
    rw [List.lookup_cons, List.mem_cons, Prod.mk.injEq]
    by_cases hk : k = k'
    · subst hk
      have hfree : (k, t) ∉ cs := fun hmem => hnew (List.mem_map.2 ⟨_, hmem, rfl⟩)
      simp [hfree, eq_comm]
    · have hne : (k == k') = false := by simpa using hk
      simp [hne, hk, ih]

/-! ### Operations -/

private theorem names_update (cs : Forest κ ν) (k : κ) (g : NamedTree κ ν → NamedTree κ ν) :
    (cs.update k g).map Prod.fst = cs.map Prod.fst := by
  induction cs with
  | nil => rfl
  | cons c cs ih =>
    rw [update]
    split
    · rfl
    · rw [List.map_cons, List.map_cons, ih]

private theorem distinct_update {g : NamedTree κ ν → NamedTree κ ν} (h : (node cs).Distinct)
    (hg : ∀ u, cs.lookup k = some u → (g u).Distinct) : (node (cs.update k g)).Distinct := by
  rw [distinct_node_iff, names_update]
  refine ⟨h.nodup, fun k' u hu => ?_⟩
  rw [lookup_update] at hu
  split at hu
  · next hk =>
    subst hk
    obtain ⟨v, hv, rfl⟩ := Option.map_eq_some_iff.1 hu
    exact hg v hv
  · exact h.child hu

theorem distinct_append_new (h : (node cs).Distinct) (hnew : cs.lookup k = none) (hu : u.Distinct) :
    (node (cs ++ [(k, u)])).Distinct := by
  rw [distinct_node_iff]
  constructor
  · rw [List.map_append, List.nodup_append]
    refine ⟨h.nodup, List.nodup_singleton k, ?_⟩
    intro a ha b hb hab
    obtain rfl := List.mem_singleton.1 hb
    subst hab
    exact lookup_eq_none_iff_notMem.1 hnew ha
  · intro k' v hv
    rw [lookup_append_new hnew] at hv
    split at hv
    · obtain rfl := Option.some.inj hv
      exact hu
    · exact h.child hv

theorem distinct_assign (h : (node cs).Distinct) (hu : u.Distinct) : (node (cs.assign k u)).Distinct := by
  unfold assign
  split
  · exact distinct_update h fun _ _ => hu
  · next hnew => exact distinct_append_new h hnew hu

theorem distinct_discard (h : (node cs).Distinct) (k : κ) : (node (cs.discard k)).Distinct := by
  rw [distinct_node_iff]
  constructor
  · have hsub : (cs.discard k).Sublist cs := List.filter_sublist
    exact h.nodup.sublist (hsub.map Prod.fst)
  · intro k' u hu
    rw [lookup_discard] at hu
    split at hu
    · cases hu
    · exact h.child hu

/-- An operation at a path keeps the names distinct if it does so at the node there. -/
theorem distinct_alter {f : Forest κ ν → Forest κ ν} (h : (node cs).Distinct)
    (hf : ∀ inner, (node cs).find p = some (node inner) → (node inner).Distinct → (node (f inner)).Distinct) :
    (node (alter f cs p)).Distinct := by
  induction p generalizing cs with
  | nil => exact hf cs (find_nil _) h
  | cons k p ih =>
    apply distinct_update h
    intro u hu
    cases u with
    | leaf v => exact distinct_leaf v
    | node inner =>
      apply ih (h.child hu)
      intro deeper hdeeper
      apply hf deeper
      rw [find_node_cons, hu, Option.bind_some, hdeeper]

end NamedTree
