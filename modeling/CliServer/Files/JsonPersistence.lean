import CliServer.Files.JsonNodes
import CliServer.Lib.Transition

/-!
# What the file of the JSON provider holds

`write_file` changes its tree before it encodes the text, and raises when a surrogate is in it: then the tree has a
content, or directories, that the file does not have.  And a high surrogate before a low one in a name comes back from
the file as one code point.  When neither happens, the file holds the tree after every call (`tree_persisted`).
-/

namespace CliServer

open Json (CodePoint Text ofChars joinSurrogates)
open Transition

/-- No high surrogate stands before a low one. -/
def IsJoined (s : Text) : Prop := joinSurrogates s = s

/-- The texts of a node, and its time. -/
structure FileNode.TextsJoined (node : FileNode) : Prop where
  name : IsJoined node.name
  type : IsJoined node.type
  content : IsJoined node.content
  createdAt : IsJoined node.createdAt
  modifiedAt : IsJoined node.modifiedAt
  stamped : node.createdAt ≠ []

/-- A tree that comes back from the file. -/
inductive FileNode.Storable : FileNode → Prop
  | node {n : FileNode} (texts : n.TextsJoined) (children : ∀ child ∈ n.children, child.Storable) : n.Storable

theorem FileNode.Storable.texts {node : FileNode} (h : node.Storable) : node.TextsJoined := by
  cases h with
  | node texts _ => exact texts

theorem FileNode.Storable.children {node : FileNode} (h : node.Storable) : ∀ child ∈ node.children, child.Storable := by
  cases h with
  | node _ children => exact children

/-! ### What was saved is loaded -/

theorem join_keys : joinSurrogates nameKey = nameKey ∧ joinSurrogates typeKey = typeKey ∧
    joinSurrogates contentKey = contentKey ∧ joinSurrogates childrenKey = childrenKey ∧
    joinSurrogates createdAtKey = createdAtKey ∧ joinSurrogates modifiedAtKey = modifiedAtKey ∧
    joinSurrogates sizeKey = sizeKey ∧ joinSurrogates permissionsKey = permissionsKey := by decide

private theorem join_permissions (type : Text) : joinSurrogates (permissionsText type) = permissionsText type := by
  unfold permissionsText
  split <;> decide

mutual

private theorem join_toDict {node : FileNode} (h : node.Storable) : node.toDict.join = node.toDict := by
  obtain ⟨name, type, content, children, createdAt, modifiedAt, size⟩ := node
  have hname : joinSurrogates name = name := h.texts.name
  have htype : joinSurrogates type = type := h.texts.type
  have hcontent : joinSurrogates content = content := h.texts.content
  have hcreated : joinSurrogates createdAt = createdAt := h.texts.createdAt
  have hmodified : joinSurrogates modifiedAt = modifiedAt := h.texts.modifiedAt
  have hchildren : Json.joinItems (toDicts children) = toDicts children := join_toDicts h.children
  obtain ⟨k₁, k₂, k₃, k₄, k₅, k₆, k₇, k₈⟩ := join_keys
  simp only [FileNode.toDict, Json.join, Json.joinMembers, k₁, k₂, k₃, k₄, k₅, k₆, k₇, k₈, hname, htype, hcontent,
    hcreated, hmodified, hchildren, join_permissions]

private theorem join_toDicts {children : List FileNode} (h : ∀ child ∈ children, child.Storable) :
    Json.joinItems (toDicts children) = toDicts children := by
  cases children with
  | nil => rfl
  | cons child children =>
    rw [toDicts, Json.joinItems, join_toDict (h child List.mem_cons_self),
      join_toDicts fun c hc => h c (List.mem_cons_of_mem _ hc)]

end

mutual

private theorem fromDict_toDict (now : Text) {node : FileNode} (h : node.Storable) :
    fromDict now node.toDict = some node := by
  obtain ⟨name, type, content, children, createdAt, modifiedAt, size⟩ := node
  have hchildren : fromDicts now (toDicts children) = some children := fromDicts_toDicts now h.children
  have hstamped : createdAt ≠ [] := h.texts.stamped
  show (fromDicts now (toDicts children)).bind (fun children => some (FileNode.postInit now
    ⟨name, type, content, children, createdAt, modifiedAt, size⟩)) = _
  rw [hchildren, Option.bind_some, FileNode.postInit, if_neg hstamped]

private theorem fromDicts_toDicts (now : Text) {children : List FileNode} (h : ∀ child ∈ children, child.Storable) :
    fromDicts now (toDicts children) = some children := by
  cases children with
  | nil => rfl
  | cons child children =>
    rw [toDicts, fromDicts, fromDict_toDict now (h child List.mem_cons_self),
      fromDicts_toDicts now fun c hc => h c (List.mem_cons_of_mem _ hc)]
    rfl

end

/-- `_load` of what `_save` wrote. -/
private theorem loadTree_dump (now : Text) {node : FileNode} (h : node.Storable) :
    loadTree now (Json.dump node.toDict) = some node := by
  rw [loadTree, Json.load_dump, join_toDict h, Option.bind_some, fromDict_toDict now h]

/-! ### What keeps a tree storable -/

section Trees

variable {node child made : FileNode} {name part : Text} {parts : List Text} {now : Stamp} {f : FileNode → FileNode}

private theorem isJoined_of_ascii {s : Text} (h : ∀ c ∈ s, c.val < 0x80) : IsJoined s := by
  refine Json.joinSurrogates_eq_self fun c hc => ?_
  have hlt := h c hc
  rw [Json.isHigh, Bool.and_eq_false_iff, decide_eq_false_iff_not]
  exact .inl (by omega)

/-- A text that can be encoded has no surrogates. -/
private theorem isJoined_of_encodedLength {s : Text} {size : Nat} (h : encodedLength? s = some size) : IsJoined s := by
  refine Json.joinSurrogates_eq_self fun c hc => ?_
  unfold encodedLength? at h
  split at h
  · cases h
  · next hnone =>
    have hc' : isSurrogate c = false := by
      rw [Bool.eq_false_iff]
      exact fun hsurrogate => hnone (List.any_eq_true.2 ⟨c, hc, hsurrogate⟩)
    rw [isSurrogate, Bool.and_eq_false_iff, decide_eq_false_iff_not, decide_eq_false_iff_not] at hc'
    rw [Json.isHigh, Bool.and_eq_false_iff, decide_eq_false_iff_not, decide_eq_false_iff_not]
    omega

private theorem FileNode.Storable.with_children (h : node.Storable) {children : List FileNode}
    (hchildren : ∀ child ∈ children, child.Storable) : FileNode.Storable { node with children := children } :=
  .node ⟨h.texts.name, h.texts.type, h.texts.content, h.texts.createdAt, h.texts.modifiedAt, h.texts.stamped⟩ hchildren

theorem isJoined_types : IsJoined directoryType ∧ IsJoined fileType := by
  unfold IsJoined
  decide

private theorem storable_newDirectory (now : Stamp) (hname : IsJoined name) : (newDirectory now name).Storable :=
  .node ⟨hname, isJoined_types.1, rfl, isJoined_of_ascii now.ascii, isJoined_of_ascii now.ascii, now.ne_nil⟩
    fun _ hchild => (List.not_mem_nil hchild).elim

theorem mem_of_getChild (h : node.getChild name = some child) : child ∈ node.children ∧ child.name = name := by
  rw [FileNode.getChild] at h
  have hname := List.find?_some h
  exact ⟨List.mem_of_find?_eq_some h, of_decide_eq_true hname⟩

private theorem storable_getChild (h : node.Storable) (hchild : node.getChild name = some child) : child.Storable :=
  h.children child (mem_of_getChild hchild).1

private theorem storable_addChild (h : node.Storable) (hchild : child.Storable) : (node.addChild child).Storable := by
  refine h.with_children fun c hc => ?_
  rcases List.mem_append.1 hc with hc | hc
  · exact h.children c hc
  · rw [List.mem_singleton.1 hc]
    exact hchild

private theorem storable_removeChild (h : node.Storable) : (node.removeChild name).Storable :=
  h.with_children fun c hc => h.children c (List.mem_of_mem_filter hc)

private theorem storable_replaceFirst {children : List FileNode} (h : ∀ child ∈ children, child.Storable)
    (hf : ∀ child ∈ children, child.name = name → (f child).Storable) :
    ∀ child ∈ replaceFirst name f children, child.Storable := by
  induction children with
  | nil => exact h
  | cons first children ih =>
    have hrest : ∀ child ∈ children, child.Storable := fun c hc => h c (List.mem_cons_of_mem _ hc)
    intro child hchild
    rw [replaceFirst] at hchild
    split at hchild
    · next hname =>
      rcases List.mem_cons.1 hchild with heq | hchild
      · rw [heq]
        exact hf first List.mem_cons_self hname
      · exact hrest child hchild
    · rcases List.mem_cons.1 hchild with heq | hchild
      · rw [heq]
        exact h first List.mem_cons_self
      · exact ih hrest (fun c hc => hf c (List.mem_cons_of_mem _ hc)) child hchild

private theorem storable_alterAt (hf : ∀ node : FileNode, node.Storable → (f node).Storable) (parts : List Text)
    (h : node.Storable) : (alterAt f parts node).Storable := by
  induction parts generalizing node with
  | nil => exact hf node h
  | cons part parts ih =>
    exact h.with_children (storable_replaceFirst h.children fun child hchild _ => ih (h.children child hchild))

private theorem storable_resolveNode (h : node.Storable) (hfound : resolveNode parts node = some made) :
    made.Storable := by
  induction parts generalizing node with
  | nil =>
    obtain rfl := Option.some.inj hfound
    exact h
  | cons part parts ih =>
    rw [resolveNode] at hfound
    split at hfound
    · cases hfound
    · next child hchild =>
      split at hfound
      · exact ih (storable_getChild h hchild) hfound
      · cases hfound

mutual

private theorem storable_deepCopy (now : Stamp) {name : Text} (hname : IsJoined name) {node : FileNode}
    (h : node.Storable) :
    (node.deepCopy now name).Storable := by
  obtain ⟨own, type, content, children, createdAt, modifiedAt, size⟩ := node
  have hchildren : ∀ child ∈ copyChildren now children, child.Storable := storable_copyChildren now h.children
  exact .node ⟨hname, h.texts.type, h.texts.content, isJoined_of_ascii now.ascii, isJoined_of_ascii now.ascii,
    now.ne_nil⟩
    hchildren

private theorem storable_copyChildren (now : Stamp) {children : List FileNode}
    (h : ∀ child ∈ children, child.Storable) :
    ∀ child ∈ copyChildren now children, child.Storable := by
  cases children with
  | nil => exact h
  | cons first children =>
    intro child hchild
    rw [copyChildren] at hchild
    rcases List.mem_cons.1 hchild with heq | hchild
    · have hfirst := h first List.mem_cons_self
      rw [heq]
      exact storable_deepCopy now hfirst.texts.name hfirst
    · exact storable_copyChildren now (fun c hc => h c (List.mem_cons_of_mem _ hc)) child hchild

end

end Trees

/-! ### What `_ensure_parents` makes -/

/-- The parts of a path that `_ensure_parents` has to make. -/
def newParts : List Text → FileNode → List Text
  | [], _ => []
  | part :: parts, node =>
    match node.getChild part with
    | none => part :: parts
    | some child => if child.type = directoryType then newParts parts child else []

section Ensure

variable {path part : Text} {parts : List Text} {now : Stamp} {create : Bool} {node made parent : FileNode}
  {e : FileStorageError}

private theorem newParts_newDirectory (now : Stamp) (name : Text) (parts : List Text) :
    newParts parts (newDirectory now name) = parts := by
  cases parts with
  | nil => rfl
  | cons part parts => rfl

theorem ensureNodes_missing (h : node.getChild part = none) (parts : List Text) :
    ensureNodes path true now (part :: parts) node =
      (node.addChild (ensureNodes path true now parts (newDirectory now part)).1,
        (ensureNodes path true now parts (newDirectory now part)).2) := by
  simp only [ensureNodes, h, if_true]

theorem ensureNodes_directory {child : FileNode} (h : node.getChild part = some child)
    (htype : child.type = directoryType)
    (parts : List Text) : ensureNodes path create now (part :: parts) node =
      ({ node with children := replaceFirst part (fun _ => (ensureNodes path create now parts child).1) node.children },
        (ensureNodes path create now parts child).2) := by
  simp only [ensureNodes, h, htype, if_true]

theorem ensureNodes_file {child : FileNode} (h : node.getChild part = some child) (htype : child.type ≠ directoryType)
    (parts : List Text) : ensureNodes path create now (part :: parts) node = (node, .error (.notADirectory path)) := by
  simp only [ensureNodes, h, htype, if_false]

theorem replaceFirst_self {child : FileNode} (h : node.getChild part = some child) :
    { node with children := replaceFirst part (fun _ => child) node.children } = node := by
  have hsame : ∀ children : List FileNode, children.find? (·.name = part) = some child →
      replaceFirst part (fun _ => child) children = children := by
    intro children hfound
    induction children with
    | nil => rfl
    | cons first children ih =>
      rw [replaceFirst]
      by_cases hname : first.name = part
      · rw [List.find?_cons_of_pos (by simpa using hname)] at hfound
        rw [if_pos hname, Option.some.inj hfound]
      · rw [List.find?_cons_of_neg (by simpa using hname)] at hfound
        rw [if_neg hname, ih hfound]
  rw [hsame node.children h]
  cases node
  rfl

theorem ensureNodes_newDirectory (part : Text) :
    ∃ tree last, ensureNodes path true now parts (newDirectory now part) = (tree, .ok last) ∧ last.children = [] := by
  induction parts generalizing part with
  | nil => exact ⟨_, _, rfl, rfl⟩
  | cons next parts ih =>
    obtain ⟨tree, last, hmade, hempty⟩ := ih next
    exact ⟨_, last, by rw [ensureNodes_missing rfl, hmade], hempty⟩

/-- It does not fail after it has made a directory. -/
theorem ensureNodes_error (h : ensureNodes path create now parts node = (made, .error e)) : made = node := by
  have hnew : ∀ {parts : List Text}
      (part : Text), ∃ tree last, ensureNodes path true now parts (newDirectory now part) =
      (tree, .ok last) ∧ last.children = [] := fun part => ensureNodes_newDirectory part
  induction parts generalizing node made with
  | nil => cases h
  | cons part parts ih =>
    cases hchild : node.getChild part with
    | none =>
      cases create with
      | false =>
        simp only [ensureNodes, hchild] at h
        exact (Prod.mk.inj h).1.symm
      | true =>
        obtain ⟨tree, last, hmade, -⟩ := hnew part
        rw [ensureNodes_missing hchild, hmade] at h
        cases (Prod.mk.inj h).2
    | some child =>
      by_cases htype : child.type = directoryType
      · rw [ensureNodes_directory hchild htype] at h
        obtain ⟨rfl, herror⟩ := Prod.mk.inj h
        have hsame : (ensureNodes path create now parts child).1 = child := ih (Prod.ext rfl herror)
        rw [hsame, replaceFirst_self hchild]
      · rw [ensureNodes_file hchild htype] at h
        exact (Prod.mk.inj h).1.symm

private theorem storable_ensureNodes (h : node.Storable) (hparts : ∀ part ∈ newParts parts node, IsJoined part) :
    (ensureNodes path true now parts node).1.Storable := by
  induction parts generalizing node with
  | nil => exact h
  | cons part parts ih =>
    rw [newParts] at hparts
    cases hchild : node.getChild part with
    | none =>
      rw [hchild] at hparts
      rw [ensureNodes_missing hchild]
      refine storable_addChild h (ih (storable_newDirectory now (hparts part List.mem_cons_self)) ?_)
      rw [newParts_newDirectory]
      exact fun part hpart => hparts part (List.mem_cons_of_mem _ hpart)
    | some child =>
      rw [hchild] at hparts
      by_cases htype : child.type = directoryType
      · simp only [htype, if_true] at hparts
        rw [ensureNodes_directory hchild htype]
        exact h.with_children (storable_replaceFirst h.children fun _ _ _ => ih (storable_getChild h hchild) hparts)
      · rw [ensureNodes_file hchild htype]
        exact h

/-- Where no more than the last part is missing, nothing is made for the parts before it. -/
private theorem ensureNodes_dropLast (h : (newParts parts node).length ≤ 1) :
    (ensureNodes path create now parts.dropLast node).1 = node := by
  induction parts generalizing node with
  | nil => rfl
  | cons part parts ih =>
    cases parts with
    | nil => rfl
    | cons next parts =>
      rw [newParts] at h
      rw [List.dropLast_cons_of_ne_nil (List.cons_ne_nil _ _)]
      cases hchild : node.getChild part with
      | none =>
        rw [hchild] at h
        simp only [List.length_cons] at h
        omega
      | some child =>
        rw [hchild] at h
        by_cases htype : child.type = directoryType
        · simp only [htype, if_true] at h
          rw [ensureNodes_directory hchild htype, ih h]
          exact replaceFirst_self hchild
        · rw [ensureNodes_file hchild htype]

/-- When the last node has children, nothing was made. -/
theorem ensureNodes_of_children (h : ensureNodes path create now parts node = (made, .ok parent))
    (hchildren : parent.children ≠ []) : made = node := by
  have hnew : ∀ {parts : List Text}
      (part : Text), ∃ tree last, ensureNodes path true now parts (newDirectory now part) =
      (tree, .ok last) ∧ last.children = [] := fun part => ensureNodes_newDirectory part
  induction parts generalizing node made with
  | nil => exact (Prod.mk.inj h).1.symm
  | cons part parts ih =>
    cases hchild : node.getChild part with
    | none =>
      cases create with
      | false =>
        simp only [ensureNodes, hchild] at h
        cases (Prod.mk.inj h).2
      | true =>
        obtain ⟨tree, last, hmade, hempty⟩ := hnew part
        rw [ensureNodes_missing hchild, hmade] at h
        obtain rfl : last = parent := Except.ok.inj (Prod.mk.inj h).2
        exact absurd hempty hchildren
    | some child =>
      by_cases htype : child.type = directoryType
      · rw [ensureNodes_directory hchild htype] at h
        obtain ⟨rfl, hok⟩ := Prod.mk.inj h
        have hsame : (ensureNodes path create now parts child).1 = child := ih (Prod.ext rfl hok)
        rw [hsame, replaceFirst_self hchild]
      · rw [ensureNodes_file hchild htype] at h
        cases (Prod.mk.inj h).2

theorem ensureNodes_type (parts : List Text) (node : FileNode) :
    (ensureNodes path create now parts node).1.type = node.type := by
  cases parts with
  | nil => rfl
  | cons part parts =>
    rw [ensureNodes]
    split
    · split <;> rfl
    · split <;> rfl

private theorem newParts_dropLast (parts : List Text) (node : FileNode) :
    ∀ part ∈ newParts parts.dropLast node, part ∈ newParts parts node := by
  induction parts generalizing node with
  | nil => exact fun _ h => h
  | cons part parts ih =>
    cases parts with
    | nil => exact fun _ h => absurd h List.not_mem_nil
    | cons next parts =>
      rw [List.dropLast_cons_of_ne_nil (List.cons_ne_nil _ _)]
      cases hchild : node.getChild part with
      | none =>
        simp only [newParts, hchild]
        intro x hx
        rcases List.mem_cons.1 hx with rfl | hx
        · exact List.mem_cons_self
        · exact List.mem_cons_of_mem _ (List.dropLast_subset _ hx)
      | some child =>
        rw [newParts, newParts]
        simp only [hchild]
        split
        · exact ih child
        · exact fun _ h => h

/-- The last part is the name of something there, or new. -/
private theorem last_isJoined (h : node.Storable) (hparts : parts ≠ [])
    (hnew : ∀ part ∈ newParts parts node, IsJoined part)
    (hok : ensureNodes path create now parts.dropLast node = (made, .ok parent)) : IsJoined (parts.getLast hparts) := by
  induction parts generalizing node made with
  | nil => exact absurd rfl hparts
  | cons part parts ih =>
    cases hchild : node.getChild part with
    | none =>
      simp only [newParts, hchild] at hnew
      exact hnew _ (List.getLast_mem hparts)
    | some child =>
      have hstorable := storable_getChild h hchild
      cases parts with
      | nil => exact (mem_of_getChild hchild).2 ▸ hstorable.texts.name
      | cons next parts =>
        rw [List.dropLast_cons_of_ne_nil (List.cons_ne_nil _ _)] at hok
        by_cases htype : child.type = directoryType
        · rw [ensureNodes_directory hchild htype] at hok
          rw [newParts] at hnew
          simp only [hchild, htype, if_true] at hnew
          rw [List.getLast_cons (List.cons_ne_nil _ _)]
          exact ih hstorable _ hnew (Prod.ext rfl (Prod.mk.inj hok).2)
        · rw [ensureNodes_file hchild htype] at hok
          cases (Prod.mk.inj hok).2

/-- What the last node has under the last part is what is found at the path. -/
theorem resolveNode_last {existing : FileNode} (hdirectory : node.type = directoryType) (hparts : parts ≠ [])
    (hok : ensureNodes path true now parts.dropLast node = (made, .ok parent))
    (hexisting : parent.getChild (parts.getLast hparts) = some existing) : resolveNode parts node = some existing := by
  have hnew : ∀ {parts : List Text}
      (part : Text), ∃ tree last, ensureNodes path true now parts (newDirectory now part) =
      (tree, .ok last) ∧ last.children = [] := fun part => ensureNodes_newDirectory part
  induction parts generalizing node made with
  | nil => exact absurd rfl hparts
  | cons part parts ih =>
    cases parts with
    | nil =>
      obtain rfl : node = parent := Except.ok.inj (Prod.mk.inj hok).2
      have hchild : node.getChild part = some existing := hexisting
      simp only [resolveNode, hchild, hdirectory, if_true]
    | cons next parts =>
      rw [List.dropLast_cons_of_ne_nil (List.cons_ne_nil _ _)] at hok
      cases hchild : node.getChild part with
      | none =>
        obtain ⟨tree, last, hmade, hempty⟩ := hnew part
        rw [ensureNodes_missing hchild, hmade] at hok
        obtain rfl : last = parent := Except.ok.inj (Prod.mk.inj hok).2
        have hmem := (mem_of_getChild hexisting).1
        rw [hempty] at hmem
        exact absurd hmem List.not_mem_nil
      | some child =>
        by_cases htype : child.type = directoryType
        · rw [ensureNodes_directory hchild htype] at hok
          rw [List.getLast_cons (List.cons_ne_nil _ _)] at hexisting
          rw [resolveNode, hchild]
          exact (if_pos hdirectory).trans (ih htype _ (Prod.ext rfl (Prod.mk.inj hok).2) hexisting)
        · rw [ensureNodes_file hchild htype] at hok
          cases (Prod.mk.inj hok).2

theorem ensureNodes_absent (h : node.getChild part = none) (parts : List Text) :
    ensureNodes path false now (part :: parts) node = (node, .error (.notFound path)) := by
  simp only [ensureNodes, h, if_false, Bool.false_eq_true]

/-- Where the parents are there and the last part is not, only this is new. -/
private theorem newParts_last (hparts : parts ≠ [])
    (hok : ensureNodes path false now parts.dropLast node = (made, .ok parent))
    (hmissing : parent.getChild (parts.getLast hparts) = none) : newParts parts node = [parts.getLast hparts] := by
  induction parts generalizing node made with
  | nil => exact absurd rfl hparts
  | cons part parts ih =>
    cases parts with
    | nil =>
      obtain rfl : node = parent := Except.ok.inj (Prod.mk.inj hok).2
      have hchild : node.getChild part = none := hmissing
      rw [newParts, hchild, List.getLast_singleton]
    | cons next parts =>
      rw [List.dropLast_cons_of_ne_nil (List.cons_ne_nil _ _)] at hok
      cases hchild : node.getChild part with
      | none =>
        rw [ensureNodes_absent hchild] at hok
        cases (Prod.mk.inj hok).2
      | some child =>
        by_cases htype : child.type = directoryType
        · rw [ensureNodes_directory hchild htype] at hok
          rw [List.getLast_cons (List.cons_ne_nil _ _)] at hmissing ⊢
          rw [newParts, hchild]
          exact (if_pos htype).trans (ih _ (Prod.ext rfl (Prod.mk.inj hok).2) hmissing)
        · rw [ensureNodes_file hchild htype] at hok
          cases (Prod.mk.inj hok).2

/-- Without `create` nothing is made. -/
private theorem ensureNodes_false (parts : List Text) (node : FileNode) :
    (ensureNodes path false now parts node).1 = node := by
  induction parts generalizing node with
  | nil => rfl
  | cons part parts ih =>
    cases hchild : node.getChild part with
    | none => rw [ensureNodes_absent hchild]
    | some child =>
      by_cases htype : child.type = directoryType
      · rw [ensureNodes_directory hchild htype, ih child]
        exact replaceFirst_self hchild
      · rw [ensureNodes_file hchild htype]

end Ensure

/-! ### Calls -/

/-- No call gives something new a name with a high surrogate before a low one, and a text that cannot be encoded is
refused before that, or its directory is there and its file is not. -/
def LeavesNothingUnsaved (s : JsonFileStorage) : JsonCall × Stamp → Prop
  | (.writeFile path content, _) =>
    ((encodedLength? content.decoded).isSome → ∀ part ∈ newParts (normalizeText path) s.root, IsJoined part) ∧
    (encodedLength? content.decoded = none → (newParts (normalizeText path) s.root).length ≤ 1 ∧
      ∀ node, resolveNode (normalizeText path) s.root = some node → node.type = directoryType)
  | (.mkdir path true, _) => ∀ part ∈ newParts (normalizeText path) s.root, IsJoined part
  | (.mkdir path false, _) => ∀ part, newParts (normalizeText path) s.root = [part] → IsJoined part
  | (.copy src dest, _) =>
    resolveNode (normalizeText src) s.root ≠ none → ∀ part ∈ newParts (normalizeText dest) s.root, IsJoined part
  | (.move src dest, _) =>
    normalizeText src ≠ [] → resolveNode (normalizeText src) s.root ≠ none →
      ∀ part ∈ newParts (normalizeText dest) s.root, IsJoined part
  | _ => True

/-- What holds between the calls. -/
structure JsonKept (s : JsonFileStorage) : Prop where
  storable : s.root.Storable
  directory : s.root.type = directoryType
  empty : s.file = none → s.root.children = []
  saved : ∀ text, s.file = some text → text = Json.dump s.root.toDict

section Calls

variable {s : JsonFileStorage} {root : FileNode} {parts : List Text} {f : FileNode → FileNode} {now : Stamp}

theorem alterAt_type (hf : ∀ node : FileNode, (f node).type = node.type) (parts : List Text) (node : FileNode) :
    (alterAt f parts node).type = node.type := by
  cases parts with
  | nil => exact hf node
  | cons part parts => rfl

/-- A call that saves a tree that can be stored. -/
theorem JsonKept.save (hstorable : root.Storable) (hdirectory : root.type = directoryType) :
    JsonKept (JsonFileStorage.save { s with root := root }) :=
  ⟨hstorable, hdirectory, fun hnone => (by cases hnone), fun text htext => (Option.some.inj htext).symm⟩

/-- A call that changes a node of such a tree. -/
private theorem JsonKept.saveAlter (hstorable : root.Storable) (hdirectory : root.type = directoryType)
    (hf : ∀ node : FileNode, node.Storable → (f node).Storable) (htype : ∀ node : FileNode, (f node).type = node.type)
    (parts : List Text) : JsonKept (JsonFileStorage.save { s with root := alterAt f parts root }) :=
  .save (storable_alterAt hf parts hstorable) ((alterAt_type htype parts root).trans hdirectory)

/-- A call that leaves the tree as it was. -/
theorem JsonKept.same (h : JsonKept s) (hroot : root = s.root) : JsonKept { s with root := root } := by
  subst hroot
  exact h

theorem JsonKept.writeFile (h : JsonKept s) {path : Text} {content : FileContent}
    (hg : LeavesNothingUnsaved s (.writeFile path content, now)) : JsonKept (s.writeFile now path content).1 := by
  obtain ⟨hencoded, hfails⟩ := hg
  unfold JsonFileStorage.writeFile
  simp only
  split
  · exact h
  · next hparts =>
    split
    · next root e hmade => exact h.same (ensureNodes_error hmade)
    · next root parent hmade =>
      have hstorable : ∀ size, encodedLength? content.decoded = some size → root.Storable := by
        intro size hsize
        have hroot : (ensureNodes path true now (normalizeText path).dropLast s.root).1.Storable :=
          storable_ensureNodes h.storable fun part hpart =>
            hencoded (by rw [hsize]; rfl) part (newParts_dropLast _ _ part hpart)
        rw [hmade] at hroot
        exact hroot
      have htype : (ensureNodes path true now (normalizeText path).dropLast s.root).1.type = s.root.type :=
        ensureNodes_type _ _
      rw [hmade] at htype
      have hdirectory : root.type = directoryType := htype.trans h.directory
      split
      · next existing hexisting =>
        have hchildren : parent.children ≠ [] := List.ne_nil_of_mem (mem_of_getChild hexisting).1
        split
        · exact h.same (ensureNodes_of_children hmade hchildren)
        · next hfile =>
          split
          · next hnone =>
            have hfound := resolveNode_last h.directory hparts hmade hexisting
            exact absurd ((hfails hnone).2 existing hfound) hfile
          · next size hsize =>
            have htext := isJoined_of_encodedLength hsize
            refine .saveAlter (hstorable size hsize) hdirectory (fun node hnode => ?_) (fun node => ?_) _
            · exact .node ⟨hnode.texts.name, hnode.texts.type, htext, hnode.texts.createdAt,
                isJoined_of_ascii now.ascii, hnode.texts.stamped⟩ hnode.children
            · rfl
      · split
        · next hnone =>
          have hsame : (ensureNodes path true now (normalizeText path).dropLast s.root).1 = s.root :=
            ensureNodes_dropLast (hfails hnone).1
          rw [hmade] at hsame
          exact h.same hsame
        · next size hsize =>
          have hname := last_isJoined h.storable hparts (hencoded (by rw [hsize]; rfl)) hmade
          refine .saveAlter (hstorable size hsize) hdirectory (fun node hnode => storable_addChild hnode ?_)
            (fun _ => rfl) _
          exact .node ⟨hname, isJoined_types.2, isJoined_of_encodedLength hsize, isJoined_of_ascii now.ascii,
            isJoined_of_ascii now.ascii, now.ne_nil⟩ fun _ hchild => (List.not_mem_nil hchild).elim

theorem JsonKept.mkdir (h : JsonKept s) {path : Text} {recursive : Bool}
    (hg : LeavesNothingUnsaved s (.mkdir path recursive, now)) : JsonKept (s.mkdir now path recursive).1 := by
  unfold JsonFileStorage.mkdir
  simp only
  split
  · exact h
  · next hparts =>
    cases recursive with
    | true =>
      rw [if_pos rfl]
      have hstorable : (ensureNodes path true now (normalizeText path) s.root).1.Storable :=
        storable_ensureNodes h.storable hg
      have htype : (ensureNodes path true now (normalizeText path) s.root).1.type = s.root.type := ensureNodes_type _ _
      split
      · next root e hmade => exact h.same (ensureNodes_error hmade)
      · next root parent hmade =>
        rw [hmade] at hstorable htype
        exact .save hstorable (htype.trans h.directory)
    | false =>
      rw [if_neg Bool.false_ne_true]
      have hsame : (ensureNodes path false now (normalizeText path).dropLast s.root).1 = s.root := ensureNodes_false _ _
      split
      · next root e hmade => exact h.same (ensureNodes_error hmade)
      · next root parent hmade =>
        rw [hmade] at hsame
        obtain rfl : root = s.root := hsame
        split
        · split
          · exact h
          · exact h
        · next hmissing =>
          have hname := hg _ (newParts_last hparts hmade hmissing)
          exact .saveAlter h.storable h.directory
            (fun _ hnode => storable_addChild hnode (storable_newDirectory now hname)) (fun _ => rfl) _

theorem JsonKept.remove (h : JsonKept s) (path : Text) (recursive : Bool) : JsonKept (s.remove path recursive).1 := by
  unfold JsonFileStorage.remove
  simp only
  split
  · exact h
  · split
    · exact h
    · split
      · exact h
      · exact .saveAlter h.storable h.directory (fun _ hnode => storable_removeChild hnode) (fun _ => rfl) _

private theorem storable_putNode {srcNode : FileNode} {src dest : List Text} (hdest : dest ≠ []) (hroot : root.Storable)
    (hsrc : srcNode.Storable) (hname : IsJoined (dest.getLast hdest)) :
    (JsonFileStorage.putNode now root srcNode src dest hdest).Storable := by
  have hremoved : (alterAt (·.removeChild (dest.getLast hdest)) dest.dropLast root).Storable :=
    storable_alterAt (fun _ hnode => storable_removeChild hnode) _ hroot
  refine storable_alterAt (fun node hnode => storable_addChild hnode (storable_deepCopy now hname ?_)) _ hremoved
  cases hfound : resolveNode src (alterAt (·.removeChild (dest.getLast hdest)) dest.dropLast root) with
  | some copied => exact storable_resolveNode hremoved hfound
  | none =>
    cases hbefore : resolveNode src root with
    | some copied => exact storable_resolveNode hroot hbefore
    | none => exact hsrc

theorem putNode_type {srcNode : FileNode} {src dest : List Text} (hdest : dest ≠ []) :
    (JsonFileStorage.putNode now root srcNode src dest hdest).type = root.type := by
  unfold JsonFileStorage.putNode
  simp only
  refine (alterAt_type (fun node => ?_) _ _).trans (alterAt_type (fun node => ?_) _ _)
  · rfl
  · rfl

theorem JsonKept.copy (h : JsonKept s) {src dest : Text} (hg : LeavesNothingUnsaved s (.copy src dest, now)) :
    JsonKept (s.copy now src dest).1 := by
  unfold JsonFileStorage.copy
  simp only
  split
  · exact h
  · next srcNode hsrc =>
    have hnew : ∀ part ∈ newParts (normalizeText dest) s.root, IsJoined part :=
      hg (by rw [hsrc]; exact Option.some_ne_none _)
    split
    · exact h
    · next hparts =>
      have hstorable : (ensureNodes dest true now (normalizeText dest).dropLast s.root).1.Storable :=
        storable_ensureNodes h.storable fun part hpart => hnew part (newParts_dropLast _ _ part hpart)
      have htype : (ensureNodes dest true now (normalizeText dest).dropLast s.root).1.type = s.root.type :=
        ensureNodes_type _ _
      split
      · next root e hmade => exact h.same (ensureNodes_error hmade)
      · next root parent hmade =>
        rw [hmade] at hstorable htype
        have hname := last_isJoined h.storable hparts hnew hmade
        exact .save (storable_putNode hparts hstorable (storable_resolveNode h.storable hsrc) hname)
          ((putNode_type hparts).trans (htype.trans h.directory))

theorem JsonKept.move (h : JsonKept s) {src dest : Text} (hg : LeavesNothingUnsaved s (.move src dest, now)) :
    JsonKept (s.move now src dest).1 := by
  unfold JsonFileStorage.move
  simp only
  split
  · exact h
  · next hsrcParts =>
    split
    · exact h
    · next srcNode hsrc =>
      have hnew : ∀ part ∈ newParts (normalizeText dest) s.root, IsJoined part :=
        hg hsrcParts (by rw [hsrc]; exact Option.some_ne_none _)
      split
      · exact h
      · next hparts =>
        have hstorable : (ensureNodes dest true now (normalizeText dest).dropLast s.root).1.Storable :=
          storable_ensureNodes h.storable fun part hpart => hnew part (newParts_dropLast _ _ part hpart)
        have htype : (ensureNodes dest true now (normalizeText dest).dropLast s.root).1.type = s.root.type :=
          ensureNodes_type _ _
        split
        · next root e hmade => exact h.same (ensureNodes_error hmade)
        · next root parent hmade =>
          rw [hmade] at hstorable htype
          have hname := last_isJoined h.storable hparts hnew hmade
          have hput : (JsonFileStorage.putNode now root srcNode (normalizeText src) _ hparts).Storable :=
            storable_putNode hparts hstorable (storable_resolveNode h.storable hsrc) hname
          have hputType : (JsonFileStorage.putNode now root srcNode (normalizeText src) _ hparts).type =
              directoryType :=
            (putNode_type hparts).trans (htype.trans h.directory)
          split
          · exact .save hput hputType
          · exact .saveAlter hput hputType (fun _ hnode => storable_removeChild hnode) (fun _ => rfl) _

theorem JsonKept.reopen (h : JsonKept s) {s' : JsonFileStorage} (hst : s.reopen now = some s') : JsonKept s' := by
  unfold JsonFileStorage.reopen at hst
  split at hst
  · next hfile =>
    obtain rfl := Option.some.inj hst
    refine ⟨storable_newDirectory now rfl, rfl, fun _ => rfl, fun text htext => ?_⟩
    rw [hfile] at htext
    cases htext
  · next text hfile =>
    obtain ⟨root, hroot, rfl⟩ := Option.map_eq_some_iff.1 hst
    rw [h.saved text hfile, loadTree_dump now.text h.storable] at hroot
    obtain rfl := Option.some.inj hroot
    exact h

end Calls

/-! ### Runs -/

/-- The file holds the tree; without a file the tree is empty; and what `to_dict` writes of the tree is read back. -/
structure Persisted (s : JsonFileStorage) : Prop where
  loaded : ∀ text, s.file = some text → ∀ now, loadTree now text = some s.root
  empty : s.file = none → s.root.children = []
  inverse : ∀ now, loadTree now (Json.dump s.root.toDict) = some s.root

section Runs

variable {now : Stamp} {history : List (Move JsonFileStorage (JsonCall × Stamp))} {s : JsonFileStorage}

private theorem jsonKept_step {s s' : JsonFileStorage} {a : JsonCall × Stamp} (h : JsonKept s)
    (hg : LeavesNothingUnsaved s a)
    (hst : jsonStep s a = some s') : JsonKept s' := by
  obtain ⟨call, now⟩ := a
  cases call with
  | writeFile path content =>
    obtain rfl := Option.some.inj hst
    exact h.writeFile hg
  | mkdir path recursive =>
    obtain rfl := Option.some.inj hst
    exact h.mkdir hg
  | remove path recursive =>
    obtain rfl := Option.some.inj hst
    exact h.remove path recursive
  | copy src dest =>
    obtain rfl := Option.some.inj hst
    exact h.copy hg
  | move src dest =>
    obtain rfl := Option.some.inj hst
    exact h.move hg
  | reopen => exact h.reopen hst

private theorem jsonKept_start (now : Stamp) : JsonKept (.start now) :=
  ⟨storable_newDirectory now rfl, rfl, fun _ => rfl, fun _ htext => (by cases htext)⟩

/-- After every run of calls that leave nothing unsaved the file holds the tree. -/
theorem tree_persisted (h : GuardedRun jsonStep LeavesNothingUnsaved (.start now) history s) : Persisted s := by
  have hs : JsonKept s := h.invariant (jsonKept_start now) fun _ _ _ hs hg hst => jsonKept_step hs hg hst
  refine ⟨fun text htext now => ?_, hs.empty, fun now => loadTree_dump now hs.storable⟩
  rw [hs.saved text htext]
  exact loadTree_dump now hs.storable

end Runs

/-- A time. -/
def someStamp : Stamp :=
  ⟨ofChars ['2', '0', '2', '6'], by decide, fun c hc =>
    of_decide_eq_true (List.all_eq_true.1 (show (ofChars ['2', '0', '2', '6']).all (decide <| ·.val < 0x80) by decide) c hc)⟩

private theorem newParts_subset (parts : List Text) (node : FileNode) : ∀ part ∈ newParts parts node, part ∈ parts := by
  induction parts generalizing node with
  | nil => exact fun _ h => h
  | cons part parts ih =>
    rw [newParts]
    split
    · exact fun _ h => h
    · split
      · exact fun x hx => List.mem_cons_of_mem _ (ih _ x hx)
      · exact fun _ h => absurd h List.not_mem_nil

/-- A file is written, and its directory is moved. -/
theorem tree_persisted_moved : ∃ history s, GuardedRun jsonStep LeavesNothingUnsaved (.start someStamp) history s ∧
    Persisted s ∧ s.file.isSome = true ∧
    (resolveNode [ofChars ['c'], ofChars ['d'], ofChars ['b']] s.root).map (·.content) = some (ofChars ['h', 'i']) := by
  have hexec : (exec jsonStep (.start someStamp)
      [(.writeFile (ofChars ['/', 'a', '/', 'b']) (.text (ofChars ['h', 'i'])), someStamp),
        (.move (ofChars ['a']) (ofChars ['c', '/', 'd']), someStamp)]).any
      (fun r => decide (r.2.file.isSome = true ∧
        (resolveNode [ofChars ['c'], ofChars ['d'], ofChars ['b']] r.2.root).map (·.content) =
          some (ofChars ['h', 'i']))) = true := by
    decide +kernel
  obtain ⟨⟨history, s⟩, hexec, hend⟩ := (Option.any_eq_true _ _).1 hexec
  have hguard : GuardedRun jsonStep LeavesNothingUnsaved (.start someStamp) history s := by
    refine (run_of_exec hexec).restrict fun m hm => ?_
    have hact := act_mem_of_exec hexec m hm
    simp only [List.mem_cons, List.not_mem_nil, or_false] at hact
    have hjoined : ∀ part ∈ normalizeText (ofChars ['/', 'a', '/', 'b']) ++ normalizeText (ofChars ['c', '/', 'd']),
        joinSurrogates part = part := by decide +kernel
    rcases hact with hact | hact
    · rw [hact]
      refine ⟨fun _ part hpart => hjoined part (List.mem_append_left _ (newParts_subset _ _ part hpart)),
        fun hnone => ?_⟩
      have hsome : encodedLength? (ofChars ['h', 'i']) = some 2 := by decide +kernel
      have hnone' : encodedLength? (ofChars ['h', 'i']) = none := hnone
      rw [hsome] at hnone'
      cases hnone'
    · rw [hact]
      exact fun _ _ part hpart => hjoined part (List.mem_append_right _ (newParts_subset _ _ part hpart))
  exact ⟨history, s, hguard, tree_persisted hguard, of_decide_eq_true hend⟩

/-- The text of a new file has a surrogate: `write_file` raises, and the directory it has made is only in memory. -/
theorem directory_unsaved : ∃ history s, Run jsonStep (.start someStamp) history s ∧ s.file = none ∧
    (resolveNode [ofChars ['d']] s.root).isSome = true ∧ ¬ Persisted s := by
  have hexec : (exec jsonStep (.start someStamp)
      [(.writeFile (ofChars ['/', 'd', '/', 'x']) (.text [0xD800]), someStamp)]).any
      (fun r => r.2.file.isNone && (resolveNode [ofChars ['d']] r.2.root).isSome && !r.2.root.children.isEmpty) =
        true := by
    decide +kernel
  obtain ⟨⟨history, s⟩, hexec, hend⟩ := (Option.any_eq_true _ _).1 hexec
  rw [Bool.and_eq_true, Bool.and_eq_true] at hend
  obtain ⟨⟨hfile, hmade⟩, hchildren⟩ := hend
  have hnone : s.file = none := Option.isNone_iff_eq_none.1 hfile
  refine ⟨history, s, run_of_exec hexec, hnone, hmade, fun hpersisted => ?_⟩
  rw [hpersisted.empty hnone] at hchildren
  cases hchildren

end CliServer
