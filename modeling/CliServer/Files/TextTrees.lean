import CliServer.Files.InMemory
import CliServer.Files.JsonFile
import CliServer.Files.FailedCalls

/-!
# The tree providers on Python's texts

The operations on texts in which a surrogate may stand alone are those that the other modules use on texts of
characters: each of the in-memory provider is the operation of `Trees` or `InMemory` at these names (`MemoryTree.Does`),
and so is each of the JSON provider, when a node is read as the tree of its children (`JsonFileStorage.Does`).
-/

namespace CliServer

open Json (Text)
open NamedTree

/-- The error as one that names a path; `UnicodeEncodeError` names none. -/
def FileStorageError.pathError? : FileStorageError → Option (PathError Text)
  | .notFound path => some (.notFound path)
  | .permission path => some (.permission path)
  | .exists path => some (.exists path)
  | .isADirectory path => some (.isADirectory path)
  | .notADirectory path => some (.notADirectory path)
  | .unicodeEncode => none

def CallError.pathError? : CallError → Option (PathError Text)
  | .storage e => e.pathError?
  | .nameError => some .nameError
  | .keyError name => some (.keyError name)

/-! ### The in-memory provider -/

namespace MemoryTree

variable {root : MemoryTree} {path src dest : Text} {recursive : Bool}

/-- A call leaves the same tree, and raises the same error. -/
def Does (result : MemoryTree × Option CallError) (operation : MemoryTree × Option (PathError Text)) : Prop :=
  result.1 = operation.1 ∧ result.2.map CallError.pathError? = operation.2.map some

private theorem getChild_eq (children : MemoryTree) (name : Text) :
    getChild children name = @List.lookup Text _ instBEqOfDecidableEq name children := by
  rw [getChild, find_node_cons]
  simp only [find_nil, Option.bind_fun_some]

/-- `_ensure_parents` that creates what is missing. -/
theorem ensureParents_cases (path : Text) (parts : List Text) (children : MemoryTree) :
    (∃ made, ensureParents path true parts children = (made, some (.notADirectory path)) ∧
        CliServer.ensureParents path children parts = (made, some (.notADirectory path))) ∨
      ∃ made, ensureParents path true parts children = (made, none) ∧
        CliServer.ensureParents path children parts = (made, none) := by
  induction parts generalizing children with
  | nil => exact .inr ⟨children, rfl, rfl⟩
  | cons part parts ih =>
    have hlookup := getChild_eq children part
    rw [ensureParents]
    -- below the part the operation goes on in the directory that is there, or in an empty one
    have hinner : ∀ inner, (getChild children part).getD (node []) = node inner →
        (∃ made, (children.assign part (node (ensureParents path true parts inner).1),
            (ensureParents path true parts inner).2) = (made, some (.notADirectory path)) ∧
          CliServer.ensureParents path children (part :: parts) = (made, some (.notADirectory path))) ∨
        ∃ made, (children.assign part (node (ensureParents path true parts inner).1),
            (ensureParents path true parts inner).2) = (made, none) ∧
          CliServer.ensureParents path children (part :: parts) = (made, none) := by
      intro inner hnode
      rw [hlookup] at hnode
      rw [ensureParents_node hnode]
      rcases ih inner with ⟨made, hmade, hsame⟩ | ⟨made, hmade, hsame⟩
      · exact .inl ⟨children.assign part (node made), by rw [hmade], by rw [hsame]⟩
      · exact .inr ⟨children.assign part (node made), by rw [hmade], by rw [hsame]⟩
    cases hchild : getChild children part with
    | none => exact hinner [] (by rw [hchild]; rfl)
    | some t =>
      cases t with
      | leaf file => exact .inl ⟨children, rfl, ensureParents_leaf (hlookup.symm.trans hchild)⟩
      | node inner => exact hinner inner (by rw [hchild]; rfl)

/-- `_ensure_parents` that creates nothing leaves the tree as it is. -/
private theorem ensureParents_existing (path : Text) (parts : List Text) (children : MemoryTree) :
    (∃ e, ensureParents path false parts children = (children, some e) ∧
        ∃ e', e.pathError? = some e' ∧ existingParents path children parts = .error e') ∨
      ∃ inner, ensureParents path false parts children = (children, none) ∧
        existingParents path children parts = .ok inner ∧ (node children).find parts = some (node inner) := by
  induction parts generalizing children with
  | nil => exact .inr ⟨children, rfl, rfl, find_nil _⟩
  | cons part parts ih =>
    have hlookup := getChild_eq children part
    rw [ensureParents, existingParents, find_node_cons, ← hlookup]
    cases hchild : getChild children part with
    | none => exact .inl ⟨_, rfl, _, rfl, rfl⟩
    | some t =>
      cases t with
      | leaf file => exact .inl ⟨_, rfl, _, rfl, rfl⟩
      | node inner =>
        have hsame : children.assign part (node inner) = children :=
          Forest.assign_self (hlookup.symm.trans hchild)
        rcases ih inner with ⟨e, hmade, hfound⟩ | ⟨deeper, hmade, hfound, hfind⟩
        · exact .inl ⟨e, by simp only [hmade, hsame], hfound⟩
        · exact .inr ⟨deeper, by simp only [hmade, hsame], hfound, hfind⟩

/-- Where the content can be encoded. -/
theorem writeFile_does {content : FileContent} {raw : List UInt8} (hraw : content.encoded? = some raw) :
    Does (writeFile root path content) (writeNode root (normalizeText path) path ⟨raw, raw.length⟩) := by
  unfold writeFile writeNode
  by_cases hparts : normalizeText path = []
  · simp only [dif_pos hparts]
    exact ⟨rfl, rfl⟩
  simp only [dif_neg hparts, hraw]
  rcases ensureParents_cases path (normalizeText path).dropLast root with ⟨made, hmade, hsame⟩ | ⟨made, hmade, hsame⟩
  · rw [hmade, hsame]
    exact ⟨rfl, rfl⟩
  · rw [hmade, hsame]
    simp only [resolve, CliServer.resolve]
    cases (node made).find (normalizeText path) with
    | none => exact ⟨rfl, rfl⟩
    | some found =>
      cases found with
      | leaf file => exact ⟨rfl, rfl⟩
      | node children => exact ⟨rfl, rfl⟩

theorem mkdir_does : Does (mkdir root path recursive)
    ((makeDirectory root (normalizeText path) path recursive).1,
      (makeDirectory root (normalizeText path) path recursive).2.1) := by
  unfold mkdir makeDirectory
  generalize normalizeText path = parts
  by_cases hparts : parts = []
  · simp only [dif_pos hparts]
    exact ⟨rfl, rfl⟩
  simp only [dif_neg hparts]
  cases recursive with
  | true =>
    simp only [if_true]
    rcases ensureParents_cases path parts root with ⟨made, hmade, hsame⟩ | ⟨made, hmade, hsame⟩
    · rw [hmade, hsame]
      exact ⟨rfl, rfl⟩
    · rw [hmade, hsame]
      exact ⟨rfl, rfl⟩
  | false =>
    simp only [Bool.false_eq_true, if_false]
    rcases ensureParents_existing path parts.dropLast root with
      ⟨e, hmade, e', herror, hfound⟩ | ⟨inner, hmade, hfound, hfind⟩
    · rw [hmade, hfound]
      exact ⟨rfl, congrArg some herror⟩
    · have hlast : resolve root parts = getChild inner (parts.getLast hparts) := by
        have hsplit := find_append (node root) parts.dropLast [parts.getLast hparts]
        rwa [List.dropLast_append_getLast hparts, hfind, Option.bind_some] at hsplit
      rw [hmade, hfound]
      simp only [hlast, ← getChild_eq]
      cases hchild : getChild inner (parts.getLast hparts) with
      | none =>
        refine ⟨?_, rfl⟩
        -- a name that is not there yet comes after the others
        have hassign : inner.assign (parts.getLast hparts) (node []) = inner ++ [(parts.getLast hparts, node [])] :=
          Forest.assign_new ((getChild_eq _ _).symm.trans hchild)
        exact Forest.alter_congr hfind hassign
      | some t =>
        cases t with
        | leaf file => exact ⟨rfl, rfl⟩
        | node children => exact ⟨rfl, rfl⟩

/-- Not of the root, whose error names no class that is imported. -/
theorem remove_does (hparts : normalizeText path ≠ []) :
    Does (remove root path recursive) (removeNode root (normalizeText path) path recursive hparts) := by
  unfold remove removeNode
  simp only [dif_neg hparts, resolve, CliServer.resolve]
  cases ((node root).find (normalizeText path).dropLast).bind fun parent =>
      parent.find [(normalizeText path).getLast hparts] with
  | none => exact ⟨rfl, rfl⟩
  | some found =>
    cases found with
    | leaf file => exact ⟨rfl, rfl⟩
    | node children =>
      cases children with
      | nil => exact ⟨rfl, rfl⟩
      | cons child children =>
        cases recursive with
        | true => exact ⟨rfl, rfl⟩
        | false => exact ⟨rfl, rfl⟩

theorem copy_does : Does (copy root src dest)
    (InMemory.copyAt root (normalizeText src) (normalizeText dest) src dest) := by
  unfold copy InMemory.copyAt
  generalize normalizeText src = s
  generalize normalizeText dest = d
  simp only [resolve, CliServer.resolve]
  cases (node root).find s with
  | none => exact ⟨rfl, rfl⟩
  | some srcNode =>
    by_cases hd : d = []
    · simp only [dif_pos hd]
      exact ⟨rfl, rfl⟩
    simp only [dif_neg hd]
    rcases ensureParents_cases dest d.dropLast root with ⟨made, hmade, hsame⟩ | ⟨made, hmade, hsame⟩
    · rw [hmade, hsame]
      exact ⟨rfl, rfl⟩
    · rw [hmade, hsame]
      exact ⟨rfl, rfl⟩

private theorem removeOld_does {s : List Text} (hs : s ≠ []) :
    Does (removeOld root s hs) (InMemory.removeOld id root s hs) := by
  simp only [removeOld, InMemory.removeOld, resolve, CliServer.resolve]
  cases (node root).find s.dropLast with
  | none => exact ⟨rfl, rfl⟩
  | some srcParent =>
    by_cases hkey : (srcParent.find [s.getLast hs]).isNone
    · simp only [if_pos hkey]
      exact ⟨rfl, rfl⟩
    · simp only [if_neg hkey]
      exact ⟨rfl, rfl⟩

theorem move_does : Does (move root src dest)
    (InMemory.moveAt id root (normalizeText src) (normalizeText dest) src dest) := by
  unfold move InMemory.moveAt
  generalize normalizeText src = s
  generalize normalizeText dest = d
  by_cases hs : s = []
  · simp only [dif_pos hs]
    exact ⟨rfl, rfl⟩
  simp only [dif_neg hs, resolve, CliServer.resolve]
  cases (node root).find s with
  | none => exact ⟨rfl, rfl⟩
  | some srcNode =>
    by_cases hd : d = []
    · simp only [dif_pos hd]
      exact ⟨rfl, rfl⟩
    simp only [dif_neg hd]
    rcases ensureParents_cases dest d.dropLast root with ⟨made, hmade, hsame⟩ | ⟨made, hmade, hsame⟩
    · rw [hmade, hsame]
      exact ⟨rfl, rfl⟩
    · rw [hmade, hsame]
      exact removeOld_does hs

end MemoryTree

end CliServer
