import CliServer.Files.Moves

/-!
# The in-memory and the JSON file provider

Both keep a tree of `_FileNode` objects, the in-memory provider with a dictionary of children, the JSON provider with a
list, and write it in the same steps.  The tree is a `Forest`, the children of the root: a node of it is what the code
holds a reference to by the path it was found at.  A provider's operation returns the tree it leaves behind and the
error it raised, so that a failing operation is seen to leave the tree as it made it until then.
-/

namespace CliServer

open NamedTree

/-- A file: its content and the size that was stored with it, the length of the content. -/
structure FileData {γ : Type*} (len : γ → Nat) where
  content : γ
  size : Nat
  size_eq : size = len content
  deriving DecidableEq

/-- The children of the root of a file tree. -/
abbrev FileTree {γ : Type*} (len : γ → Nat) := Forest Name (FileData len)

variable {τ κ γ : Type*} [DecidableEq κ]

/-- `_resolve`. -/
def resolve (root : Forest κ γ) (path : List κ) : Option (NamedTree κ γ) := (node root).find path

/-- `_ensure_parents`: the tree it leaves, and the error. -/
def ensureParents (originalPath : τ) : Forest κ γ → List κ → Forest κ γ × Option (PathError τ)
  | children, [] => (children, none)
  | children, part :: parts =>
    -- a missing part becomes an empty directory
    match (children.lookup part).getD (node []) with
    | leaf _ => (children, some (.notADirectory originalPath))
    | node inner =>
      let made := ensureParents originalPath inner parts
      (children.assign part (node made.1), made.2)

mutual

/-- `_deep_copy`; the name of the copy is the one it is put under. -/
def deepCopy {κ γ : Type*} : NamedTree κ γ → NamedTree κ γ
  | leaf file => leaf file
  | node children => node (deepCopies children)

def deepCopies {κ γ : Type*} : List (κ × NamedTree κ γ) → List (κ × NamedTree κ γ)
  | [] => []
  | (name, child) :: children => (name, deepCopy child) :: deepCopies children

end

mutual

@[simp] theorem deepCopy_eq {κ γ : Type*} (t : NamedTree κ γ) : deepCopy t = t := by
  cases t with
  | leaf file => simp [deepCopy]
  | node children => simp [deepCopy, deepCopies_eq children]

@[simp] theorem deepCopies_eq {κ γ : Type*} (children : List (κ × NamedTree κ γ)) : deepCopies children = children := by
  cases children with
  | nil => simp [deepCopies]
  | cons c children =>
    obtain ⟨name, child⟩ := c
    simp [deepCopies, deepCopy_eq child, deepCopies_eq children]

end

/-- The lines of `write_file` on the tree; `file` is what is kept of the content. -/
def writeNode (root : Forest κ γ) (norm : List κ) (path : τ) (file : γ) : Forest κ γ × Option (PathError τ) :=
  if hnorm : norm = [] then (root, some (.isADirectory path))
  else match ensureParents path root norm.dropLast with
    | (root, some e) => (root, some e)
    | (root, none) =>
      match resolve root norm with
      | some (node _) => (root, some (.isADirectory path))
      | _ => (root.alter (fun children => children.assign (norm.getLast hnorm) (leaf file)) norm.dropLast, none)

/-- `_ensure_parents` with `create=False`: the children of the directory at a path. -/
def existingParents (originalPath : τ) : Forest κ γ → List κ → Except (PathError τ) (Forest κ γ)
  | children, [] => .ok children
  | children, part :: parts =>
    match children.lookup part with
    | none => .error (.notFound originalPath)
    | some (leaf _) => .error (.notADirectory originalPath)
    | some (node inner) => existingParents originalPath inner parts

/-- `mkdir`, of the normalised path: the tree, the error, and whether it ends before its last line. -/
def makeDirectory (root : Forest κ γ) (norm : List κ) (path : τ) (recursive : Bool) :
    Forest κ γ × Option (PathError τ) × Bool :=
  if hnorm : norm = [] then (root, none, true)
  else if recursive then
    let made := ensureParents path root norm
    (made.1, made.2, made.2.isSome)
  else match existingParents path root norm.dropLast with
    | .error e => (root, some e, true)
    | .ok parent =>
      match parent.lookup (norm.getLast hnorm) with
      | some (leaf _) => (root, some (.exists path), true)
      | some (node _) => (root, none, true)
      | none => (root.alter (fun children => children ++ [(norm.getLast hnorm, node [])]) norm.dropLast, none, false)

/-- `remove`, of a normalised path that is not the root. -/
def removeNode (root : Forest κ γ) (norm : List κ) (path : τ) (recursive : Bool) (hnorm : norm ≠ []) :
    Forest κ γ × Option (PathError τ) :=
  match (resolve root norm.dropLast).bind fun parent => parent.find [norm.getLast hnorm] with
  | none => (root, some (.notFound path))
  | some found =>
    match found, recursive with
    | node (_ :: _), false => (root, some (.notADirectory path))
    | _, _ => (root.alter (fun children => children.discard (norm.getLast hnorm)) norm.dropLast, none)

/-! ### What `_ensure_parents` does -/

section EnsureParents

variable {path : τ} {children inner : Forest κ γ} {part : κ} {parts : List κ}

theorem ensureParents_leaf {file : γ} (h : children.lookup part = some (leaf file)) :
    ensureParents path children (part :: parts) = (children, some (.notADirectory path)) := by
  simp [ensureParents, h]

theorem ensureParents_node (h : (children.lookup part).getD (node []) = node inner) :
    ensureParents path children (part :: parts) =
      (children.assign part (node (ensureParents path inner parts).1), (ensureParents path inner parts).2) := by
  simp [ensureParents, h]

/-- Below a part that leads on, the view is that of the directory there, or of the empty one that is made. -/
private theorem view_inner (h : (children.lookup part).getD (node []) = node inner) {q : List κ} (hq : q ≠ []) :
    (node children).view (part :: q) = (node inner).view q := by
  rw [view_node_cons]
  cases hlookup : children.lookup part with
  | none =>
    obtain ⟨k, q, rfl⟩ := List.exists_cons_of_ne_nil hq
    have hinner : inner = [] := by simpa [hlookup] using h.symm
    simp [hinner, view_node_cons]
  | some t =>
    have ht : t = node inner := by simpa [hlookup] using h
    simp [ht]

theorem part_cases (children : Forest κ γ) (part : κ) :
    (∃ file, children.lookup part = some (leaf file)) ∨
      ∃ inner, (children.lookup part).getD (node []) = node inner := by
  cases h : children.lookup part with
  | none => exact .inr ⟨[], by simp⟩
  | some t =>
    cases t with
    | leaf file => exact .inl ⟨file, rfl⟩
    | node inner => exact .inr ⟨inner, by simp⟩

theorem blocked_cons_leaf {file : γ} (h : children.lookup part = some (leaf file)) :
    Blocked (node children).view (part :: parts) := by
  refine ⟨[part], file, by simp, List.prefix_append [part] parts, ?_⟩
  simp [h, view, kind]

theorem blocked_cons_iff (h : (children.lookup part).getD (node []) = node inner) :
    Blocked (node children).view (part :: parts) ↔ Blocked (node inner).view parts := by
  constructor
  · rintro ⟨q, file, hne, hprefix, hfile⟩
    obtain ⟨k, q, rfl⟩ := List.exists_cons_of_ne_nil hne
    obtain ⟨rfl, htail⟩ := List.cons_prefix_cons.1 hprefix
    have hq : q ≠ [] := by
      rintro rfl
      rw [view_node_cons] at hfile
      cases hlookup : children.lookup k with
      | none => simp [hlookup] at hfile
      | some t =>
        have ht : t = node inner := by simpa [hlookup] using h
        simp [hlookup, ht, view_nil_node] at hfile
    exact ⟨q, file, hq, htail, (view_inner h hq).symm.trans hfile⟩
  · rintro ⟨q, file, hne, hprefix, hfile⟩
    exact ⟨part :: q, file, by simp, List.cons_prefix_cons.2 ⟨rfl, hprefix⟩, (view_inner h hne).trans hfile⟩

/-- The error `_ensure_parents` raises, and when. -/
theorem ensureParents_error (path : τ) (children : Forest κ γ) (parts : List κ) :
    (∃ tree, ensureParents path children parts = (tree, some (.notADirectory path)) ∧
        Blocked (node children).view parts ∧ (node tree).view = (node children).view) ∨
      ∃ tree, ensureParents path children parts = (tree, none) ∧ ¬ Blocked (node children).view parts ∧
        (node tree).view = withParents (node children).view parts := by
  induction parts generalizing children with
  | nil =>
    right
    refine ⟨children, rfl, ?_, ?_⟩
    · rintro ⟨q, _, hne, hq, _⟩
      exact hne (List.prefix_nil.1 hq)
    · funext q
      rw [withParents, if_neg]
      exact fun hmade => hmade.1 (List.prefix_nil.1 hmade.2.1)
  | cons part parts ih =>
    rcases part_cases children part with ⟨file, hfile⟩ | ⟨inner, hinner⟩
    · exact .inl ⟨children, ensureParents_leaf hfile, blocked_cons_leaf hfile, rfl⟩
    · rw [ensureParents_node hinner, blocked_cons_iff hinner]
      -- what stands below `part` afterwards is what was made of the directory there
      have hview : ∀ (tree : Forest κ γ) (k : κ) (q : List κ), (node (children.assign part (node tree))).view (k :: q) =
          if k = part then (node tree).view q else (node children).view (k :: q) := by
        intro tree k q
        by_cases hk : k = part <;> simp [view_node_cons, Forest.lookup_assign, hk]
      rcases ih inner with ⟨tree, hmade, hblocked, htree⟩ | ⟨tree, hmade, hblocked, htree⟩
      · left
        refine ⟨children.assign part (node tree), by rw [hmade], hblocked, ?_⟩
        obtain ⟨q, file, hq, hprefix, hfile⟩ := hblocked
        -- a file in the way stands in a directory that was there
        have hlookup : children.lookup part = some (node inner) := by
          cases hl : children.lookup part with
          | none =>
            have hempty : inner = [] := by simpa [hl] using hinner.symm
            obtain ⟨k, q, rfl⟩ := List.exists_cons_of_ne_nil hq
            simp [hempty, view_node_cons] at hfile
          | some t => simpa [hl] using hinner
        funext q
        cases q with
        | nil => rw [view_nil_node, view_nil_node]
        | cons k q =>
          rw [hview]
          by_cases hk : k = part
          · simp [hk, htree, view_node_cons, hlookup]
          · simp [hk]
      · right
        refine ⟨children.assign part (node tree), by rw [hmade], hblocked, ?_⟩
        funext q
        cases q with
        | nil => simp [withParents, view_nil_node]
        | cons k q =>
          rw [hview]
          by_cases hk : k = part
          · subst hk
            simp only [if_true, htree, withParents, List.cons_prefix_cons, true_and, ne_eq, reduceCtorEq,
              not_false_eq_true]
            cases q with
            | nil =>
              have hnode : (node children).view [k] = none ∨ (node children).view [k] = some .node := by
                rw [view_node_cons]
                cases hl : children.lookup k with
                | none => simp
                | some t =>
                  have ht : t = node inner := by simpa [hl] using hinner
                  simp [ht, view_nil_node]
              rcases hnode with h | h <;> simp [h, view_nil_node]
            | cons k' q => simp [view_inner hinner]
          · have hnot : ¬ (k :: q <+: part :: parts) := by
              rw [List.cons_prefix_cons]
              exact fun h => hk h.1
            simp [hk, withParents, hnot]

end EnsureParents

end CliServer
