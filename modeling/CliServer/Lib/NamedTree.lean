import Mathlib

/-!
# Trees with named children

A leaf holds a value and a node names its children.  The children of a node are a `Forest`, an association list: to
read a name takes its first entry.

`view` says what stands at each path, and a tree is described by its view.  Each operation on a forest says what it
does to `lookup`; `view_alter` turns that into what changes when the operation is made at a path inside the tree.
-/

/-- A leaf holds a value, a node names its children. -/
inductive NamedTree (κ ν : Type*) where
  | leaf (value : ν)
  | node (children : List (κ × NamedTree κ ν))

namespace NamedTree

/-- What stands at a path: a leaf with its value, or a node. -/
inductive Kind (ν : Type*) where
  | leaf (value : ν)
  | node
  deriving DecidableEq, Repr

/-- The children of a node. -/
abbrev Forest (κ ν : Type*) := List (κ × NamedTree κ ν)

/-- What stands at each path. -/
abbrev View (κ ν : Type*) := List κ → Option (Kind ν)

variable {κ ν : Type*}

def kind : NamedTree κ ν → Kind ν
  | leaf v => .leaf v
  | node _ => .node

variable [DecidableEq κ]

/-- The subtree at a path. -/
def find : NamedTree κ ν → List κ → Option (NamedTree κ ν)
  | t, [] => some t
  | leaf _, _ :: _ => none
  | node cs, k :: p => (cs.lookup k).bind fun t => t.find p

def view (t : NamedTree κ ν) : View κ ν := fun p => (t.find p).map kind

variable {t u : NamedTree κ ν} {cs : Forest κ ν} {k : κ} {p q : List κ}

@[simp] theorem find_nil (t : NamedTree κ ν) : t.find [] = some t := by cases t <;> rfl

@[simp] theorem find_leaf_cons (v : ν) (k : κ) (p : List κ) : (leaf v : NamedTree κ ν).find (k :: p) = none := rfl

@[simp] theorem find_node_cons (cs : Forest κ ν) (k : κ) (p : List κ) :
    (node cs).find (k :: p) = (cs.lookup k).bind fun t => t.find p := rfl

theorem find_append (t : NamedTree κ ν) (p q : List κ) : t.find (p ++ q) = (t.find p).bind fun u => u.find q := by
  induction p generalizing t with
  | nil => simp
  | cons k p ih =>
    cases t with
    | leaf v => rfl
    | node cs => cases h : cs.lookup k <;> simp [h, ih]

theorem view_nil_node (cs : Forest κ ν) : (node cs).view [] = some .node := by simp [view, kind]

theorem view_node_cons (cs : Forest κ ν) (k : κ) (p : List κ) :
    (node cs).view (k :: p) = (cs.lookup k).bind fun t => t.view p := by
  cases h : cs.lookup k <;> simp [view, h]

theorem view_leaf_cons (v : ν) (k : κ) (p : List κ) : (leaf v : NamedTree κ ν).view (k :: p) = none := rfl

/-- Below a path the view is that of the subtree there. -/
private theorem view_append (t : NamedTree κ ν) (p q : List κ) :
    t.view (p ++ q) = (t.find p).bind fun u => u.view q := by
  cases h : t.find p <;> simp [view, find_append, h]

theorem view_append_of_find (h : t.find p = some u) (q : List κ) : t.view (p ++ q) = u.view q := by
  rw [view_append, h, Option.bind_some]

theorem view_eq_none_iff : t.view p = none ↔ t.find p = none := by simp [view]

theorem find_isSome_of_view_ne_none (h : t.view p ≠ none) : (t.find p).isSome := by
  rw [Option.isSome_iff_ne_none]
  exact fun hnone => h (view_eq_none_iff.2 hnone)

theorem find_of_view_node (h : t.view p = some .node) : ∃ cs, t.find p = some (node cs) := by
  cases hfind : t.find p with
  | none => simp [view, hfind] at h
  | some u =>
    cases u with
    | leaf v => simp [view, hfind, kind] at h
    | node cs => exact ⟨cs, rfl⟩

/-- Nothing stands below a path at which nothing stands. -/
theorem view_append_eq_none (h : t.view p = none) (q : List κ) : t.view (p ++ q) = none := by
  rw [view_append, view_eq_none_iff.1 h, Option.bind_none]

theorem view_ne_none_above (hpq : p <+: q) (h : t.view q ≠ none) : t.view p ≠ none := by
  obtain ⟨r, rfl⟩ := hpq
  exact fun hnone => h (view_append_eq_none hnone r)

/-- Whatever has something below it is a node. -/
theorem view_node_of_append (hq : q ≠ []) (h : t.view (p ++ q) ≠ none) : t.view p = some .node := by
  have hfind := find_isSome_of_view_ne_none (view_ne_none_above (List.prefix_append p q) h)
  obtain ⟨u, hu⟩ := Option.isSome_iff_exists.1 hfind
  rw [view_append_of_find hu] at h
  cases u with
  | node cs => simp [view, hu, kind]
  | leaf v =>
    obtain ⟨k, q, rfl⟩ := List.exists_cons_of_ne_nil hq
    exact absurd (view_leaf_cons v k q) h

/-! ### Operations on a forest -/

namespace Forest

/-- Changes the first child of a name, where there is one. -/
def update : Forest κ ν → κ → (NamedTree κ ν → NamedTree κ ν) → Forest κ ν
  | [], _, _ => []
  | c :: cs, k, g => if c.1 = k then (c.1, g c.2) :: cs else c :: update cs k g

/-- `cs[k] = t` of a dictionary: in place, or as the last child. -/
def assign (cs : Forest κ ν) (k : κ) (t : NamedTree κ ν) : Forest κ ν :=
  match cs.lookup k with
  | some _ => cs.update k fun _ => t
  | none => cs ++ [(k, t)]

/-- Drops every child of a name. -/
def discard (cs : Forest κ ν) (k : κ) : Forest κ ν := cs.filter fun c => c.1 ≠ k

theorem lookup_update (cs : Forest κ ν) (k : κ) (g : NamedTree κ ν → NamedTree κ ν) (k' : κ) :
    (cs.update k g).lookup k' = if k' = k then (cs.lookup k').map g else cs.lookup k' := by
  induction cs with
  | nil => simp [update]
  | cons c cs ih =>
    obtain ⟨k₀, u⟩ := c
    simp only [update]
    by_cases hk : k' = k₀
    · subst hk
      by_cases hk' : k' = k <;> simp [hk']
    · have hne : (k' == k₀) = false := by simpa using hk
      by_cases hk' : k₀ = k
      · subst hk'
        simp [List.lookup_cons, hne, hk]
      · simp only [hk', if_false, List.lookup_cons, hne, ih]

theorem lookup_map {α : Type*} (name : α → κ) (tree : α → NamedTree κ ν) (l : List α) (k : κ) :
    (l.map fun a => (name a, tree a)).lookup k = (l.find? fun a => name a = k).map tree := by
  induction l with
  | nil => rfl
  | cons a l ih =>
    rw [List.map_cons, List.lookup_cons, ih]
    by_cases h : name a = k
    · simp [h]
    · have hne : (k == name a) = false := by simpa using Ne.symm h
      simp [h, hne]

theorem update_congr {g g' : NamedTree κ ν → NamedTree κ ν} (h : ∀ u, cs.lookup k = some u → g u = g' u) :
    cs.update k g = cs.update k g' := by
  induction cs with
  | nil => rfl
  | cons c cs ih =>
    obtain ⟨k₀, u⟩ := c
    rw [update, update]
    by_cases hk : k₀ = k
    · subst hk
      rw [if_pos rfl, if_pos rfl, h u List.lookup_cons_self]
    · have hne : (k == k₀) = false := by simpa using Ne.symm hk
      rw [if_neg hk, if_neg hk, ih fun v hv => h v (by rw [List.lookup_cons, hne, hv])]

theorem lookup_append_new (h : cs.lookup k = none) (u : NamedTree κ ν) (k' : κ) :
    (cs ++ [(k, u)]).lookup k' = if k' = k then some u else cs.lookup k' := by
  by_cases hk : k' = k
  · simp [List.lookup_append, hk, h]
  · have hne : (k' == k) = false := by simpa using hk
    simp [List.lookup_append, List.lookup_cons, hk, hne]

theorem lookup_assign (cs : Forest κ ν) (k : κ) (u : NamedTree κ ν) (k' : κ) :
    (cs.assign k u).lookup k' = if k' = k then some u else cs.lookup k' := by
  cases h : cs.lookup k with
  | none => simpa only [assign, h] using lookup_append_new h u k'
  | some v =>
    by_cases hk : k' = k <;> simp [assign, h, lookup_update, hk]

/-- What is not there yet comes last. -/
theorem assign_new (h : cs.lookup k = none) : cs.assign k u = cs ++ [(k, u)] := by rw [assign, h]

private theorem update_id (cs : Forest κ ν) (k : κ) : cs.update k id = cs := by
  induction cs with
  | nil => rfl
  | cons c cs ih =>
    rw [update, ih]
    exact ite_self (c :: cs)

/-- To assign what is there changes nothing. -/
theorem assign_self (h : cs.lookup k = some u) : cs.assign k u = cs := by
  rw [assign, h]
  calc cs.update k (fun _ => u) = cs.update k id := update_congr fun v hv => Option.some.inj (h.symm.trans hv)
    _ = cs := update_id cs k

theorem lookup_discard (cs : Forest κ ν) (k k' : κ) :
    (cs.discard k).lookup k' = if k' = k then none else cs.lookup k' := by
  induction cs with
  | nil => simp [discard]
  | cons c cs ih =>
    obtain ⟨k₀, u⟩ := c
    simp only [discard] at ih ⊢
    by_cases hk : k₀ = k
    · subst hk
      by_cases hk' : k' = k₀
      · simpa [hk'] using ih
      · have hne : (k' == k₀) = false := by simpa using hk'
        simpa [List.lookup_cons, hk', hne] using ih
    · by_cases hk' : k' = k₀
      · subst hk'
        simp [hk]
      · have hne : (k' == k₀) = false := by simpa using hk'
        simpa [hk, List.lookup_cons, hne] using ih

/-- Makes an operation at the node of a path. -/
def alter (f : Forest κ ν → Forest κ ν) : Forest κ ν → List κ → Forest κ ν
  | cs, [] => f cs
  | cs, k :: p => cs.update k fun
    | leaf v => leaf v
    | node inner => node (alter f inner p)

/-- Only what the operation does at the node counts. -/
theorem alter_congr {f g : Forest κ ν → Forest κ ν} {inner : Forest κ ν} (h : (node cs).find p = some (node inner))
    (hfg : f inner = g inner) : alter f cs p = alter g cs p := by
  induction p generalizing cs with
  | nil =>
    obtain rfl : cs = inner := by simpa using h
    exact hfg
  | cons k p ih =>
    rw [find_node_cons] at h
    rw [alter, alter]
    refine update_congr fun u hu => ?_
    rw [hu, Option.bind_some] at h
    cases u with
    | leaf v => rfl
    | node deeper => simp only [ih h]

end Forest

open Forest

/-- An operation that changes the child of one name changes the view below that name, and nowhere else. -/
theorem view_alter {f : Forest κ ν → Forest κ ν} {inner : Forest κ ν} {new : Option (NamedTree κ ν)}
    (hp : (node cs).find p = some (node inner))
    (hf : ∀ k', (f inner).lookup k' = if k' = k then new else inner.lookup k') (q : List κ) :
    (node (alter f cs p)).view q =
      if p ++ [k] <+: q then new.bind fun u => u.view (q.drop (p.length + 1)) else (node cs).view q := by
  induction p generalizing cs q with
  | nil =>
    have hcs : cs = inner := by simpa using hp
    subst hcs
    cases q with
    | nil => simp [view_nil_node]
    | cons k' q =>
      by_cases hk : k' = k
      · simp [alter, view_node_cons, hf, hk]
      · have hnot : ¬ [k] <+: k' :: q := by
          rw [List.cons_prefix_cons]
          exact fun h => hk h.1.symm
        simp [alter, view_node_cons, hf, hk, hnot]
  | cons k₀ p ih =>
    cases q with
    | nil => simp [view_nil_node]
    | cons k' q =>
      simp only [alter, view_node_cons, lookup_update, List.cons_append, List.cons_prefix_cons, List.length_cons,
        List.drop_succ_cons]
      by_cases hk : k' = k₀
      · subst hk
        rw [find_node_cons] at hp
        obtain ⟨u, hu, hfind⟩ := Option.bind_eq_some_iff.1 hp
        cases u with
        | leaf v => cases p <;> simp at hfind
        | node deeper => simp [hu, ih hfind]
      · have hnot : ¬ (k₀ = k' ∧ p ++ [k] <+: q) := fun h => hk h.1.symm
        simp [hk, hnot]

/-- Where there is no node, an operation does nothing. -/
private theorem view_alter_of_no_node {f : Forest κ ν → Forest κ ν} (hp : ∀ inner, (node cs).find p ≠ some (node inner))
    (q : List κ) : (node (alter f cs p)).view q = (node cs).view q := by
  induction p generalizing cs q with
  | nil => exact absurd (find_nil _) (hp cs)
  | cons k₀ p ih =>
    cases q with
    | nil => simp [view_nil_node]
    | cons k' q =>
      simp only [alter, view_node_cons, lookup_update]
      by_cases hk : k' = k₀
      · subst hk
        cases hu : cs.lookup k' with
        | none => simp
        | some u =>
          cases u with
          | leaf v => simp
          | node deeper =>
            have hdeeper : ∀ inner, (node deeper).find p ≠ some (node inner) := by
              intro inner hfind
              exact hp inner (by simpa [hu] using hfind)
            simpa using ih hdeeper q
      · simp [hk]

/-- To drop a name at a path leaves nothing there, and the rest as it was. -/
theorem view_alter_discard (cs : Forest κ ν) (k : κ) (p q : List κ) :
    (node (alter (fun inner => inner.discard k) cs p)).view q =
      if p ++ [k] <+: q then none else (node cs).view q := by
  by_cases hp : ∃ inner, (node cs).find p = some (node inner)
  · obtain ⟨inner, hinner⟩ := hp
    exact view_alter (f := fun inner => inner.discard k) hinner (fun k' => lookup_discard inner k k') q
  · have hnone : ∀ inner, (node cs).find p ≠ some (node inner) := fun inner h => hp ⟨inner, h⟩
    rw [view_alter_of_no_node hnone]
    split
    · next hq =>
      -- only a node has anything below it
      obtain ⟨r, rfl⟩ := hq
      by_contra hsome
      rw [List.append_assoc] at hsome
      obtain ⟨inner, hinner⟩ := find_of_view_node (view_node_of_append (by simp) hsome)
      exact hnone inner hinner
    · rfl

end NamedTree
