import CliServer.Files.TextTrees

/-!
# The JSON provider's nodes as a tree

A `_FileNode` with its times left out is the tree of its children.  What the JSON provider does with its nodes is then
what it does with the tree in the other modules, on texts in which a surrogate may stand alone
(`JsonFileStorage.Does`).
-/

namespace CliServer

open Json (Text)
open NamedTree

/-- A file of the JSON provider: its text, and the size that is stored with it. -/
structure TextFile where
  content : Text
  size : Nat
  deriving DecidableEq

mutual

/-- What a node is, without its name and its times. -/
def FileNode.tree : FileNode → NamedTree Text TextFile
  | ⟨_, type, content, children, _, _, size⟩ =>
    if type = directoryType then node (trees children) else leaf ⟨content, size⟩

def trees : List FileNode → Forest Text TextFile
  | [] => []
  | child :: children => (child.name, child.tree) :: trees children

end

private theorem FileNode.tree_eq (n : FileNode) :
    n.tree = if n.type = directoryType then node (trees n.children) else leaf ⟨n.content, n.size⟩ := by
  obtain ⟨name, type, content, children, createdAt, modifiedAt, size⟩ := n
  rw [FileNode.tree]

private theorem FileNode.tree_directory {n : FileNode} (h : n.type = directoryType) :
    n.tree = node (trees n.children) := by
  rw [tree_eq, if_pos h]

private theorem FileNode.tree_file {n : FileNode} (h : n.type ≠ directoryType) : n.tree = leaf ⟨n.content, n.size⟩ := by
  rw [tree_eq, if_neg h]

/-! ### What is done with the children -/

section Children

variable {name : Text} {f : FileNode → FileNode} {children : List FileNode}

private theorem trees_eq_map (children : List FileNode) :
    trees children = children.map fun child => (child.name, child.tree) := by
  induction children with
  | nil => rfl
  | cons child children ih => rw [trees, ih, List.map_cons]

private theorem lookup_trees (children : List FileNode) (name : Text) :
    @List.lookup Text _ instBEqOfDecidableEq name (trees children) =
      (children.find? (·.name = name)).map FileNode.tree := by
  rw [trees_eq_map]
  exact Forest.lookup_map FileNode.name FileNode.tree children name

private theorem trees_append (children : List FileNode) (child : FileNode) :
    trees (children ++ [child]) = trees children ++ [(child.name, child.tree)] := by
  simp [trees_eq_map]

private theorem trees_filter (children : List FileNode) (name : Text) :
    trees (children.filter (·.name ≠ name)) = (trees children).discard name := by
  rw [trees_eq_map, trees_eq_map, Forest.discard, List.filter_map]
  rfl

/-- To change the first node of a name is to change the child of this name. -/
private theorem trees_replaceFirst {g : NamedTree Text TextFile → NamedTree Text TextFile}
    (h : ∀ child, children.find? (·.name = name) = some child → (f child).name = name ∧ (f child).tree = g child.tree) :
    trees (replaceFirst name f children) = (trees children).update name g := by
  induction children with
  | nil => rfl
  | cons child children ih =>
    rw [replaceFirst, trees, Forest.update]
    by_cases hname : child.name = name
    · obtain ⟨hname', htree⟩ := h child (List.find?_cons_of_pos (by simpa using hname))
      rw [if_pos hname, if_pos hname, trees, hname', htree, hname]
    · rw [if_neg hname, if_neg hname, trees, ih fun c hc => h c ?_]
      rwa [List.find?_cons_of_neg (by simpa using hname)]

end Children

section Nodes

variable {path part : Text} {parts : List Text} {now : Stamp} {f : FileNode → FileNode} {n made last : FileNode}

private theorem find_tree (parts : List Text) (n : FileNode) :
    n.tree.find parts = (resolveNode parts n).map FileNode.tree := by
  induction parts generalizing n with
  | nil => rw [find_nil, resolveNode, Option.map_some]
  | cons part parts ih =>
    rw [resolveNode]
    by_cases hdir : n.type = directoryType
    · rw [FileNode.tree_directory hdir, find_node_cons, lookup_trees, FileNode.getChild]
      cases n.children.find? (·.name = part) with
      | none => rfl
      | some child => simp [hdir, ih]
    · rw [FileNode.tree_file hdir, find_leaf_cons]
      cases n.getChild part with
      | none => rfl
      | some child => simp [hdir]

private theorem alterAt_name (hf : ∀ n : FileNode, (f n).name = n.name) (parts : List Text) (n : FileNode) :
    (alterAt f parts n).name = n.name := by
  cases parts with
  | nil => exact hf n
  | cons part parts => rfl

/-- To change the node at a path is to change the tree there. -/
private theorem trees_alterAt {F : Forest Text TextFile → Forest Text TextFile}
    (hchildren : ∀ n : FileNode, trees (f n).children = F (trees n.children))
    (hname : ∀ n : FileNode, (f n).name = n.name) (htype : ∀ n : FileNode, (f n).type = n.type)
    (hfile : ∀ n : FileNode, n.type ≠ directoryType → (f n).tree = n.tree) (parts : List Text) (n : FileNode) :
    trees (alterAt f parts n).children = (trees n.children).alter F parts := by
  induction parts generalizing n with
  | nil => exact hchildren n
  | cons part parts ih =>
    rw [alterAt, Forest.alter]
    refine trees_replaceFirst fun child hchild => ⟨?_, ?_⟩
    · rw [alterAt_name hname]
      simpa using List.find?_some hchild
    · have hkept := alterAt_type htype parts child
      by_cases hdir : child.type = directoryType
      · rw [FileNode.tree_directory hdir, FileNode.tree_directory (hkept.trans hdir), ih]
      · rw [FileNode.tree_file hdir]
        cases parts with
        | nil => rw [alterAt, hfile child hdir, FileNode.tree_file hdir]
        | cons next parts => rw [FileNode.tree_file (by rw [hkept]; exact hdir), alterAt]

private theorem trees_addChild (child : FileNode) (parts : List Text) (n : FileNode) :
    trees (alterAt (·.addChild child) parts n).children =
      (trees n.children).alter (fun children => children ++ [(child.name, child.tree)]) parts := by
  have hchildren : ∀ n : FileNode, trees (n.addChild child).children = trees n.children ++ [(child.name, child.tree)] :=
    fun n => trees_append n.children child
  refine trees_alterAt hchildren ?_ ?_ ?_ parts n
  · exact fun _ => rfl
  · exact fun _ => rfl
  · intro n h
    rw [FileNode.tree_file h]
    exact FileNode.tree_file h

private theorem trees_removeChild (name : Text) (parts : List Text) (n : FileNode) :
    trees (alterAt (·.removeChild name) parts n).children =
      (trees n.children).alter (fun children => children.discard name) parts := by
  have hchildren : ∀ n : FileNode, trees (n.removeChild name).children = (trees n.children).discard name :=
    fun n => trees_filter n.children name
  refine trees_alterAt hchildren ?_ ?_ ?_ parts n
  · exact fun _ => rfl
  · exact fun _ => rfl
  · intro n h
    rw [FileNode.tree_file h]
    exact FileNode.tree_file h

/-- What `write_file` does with the child of its name. -/
def written (file : TextFile) : NamedTree Text TextFile → NamedTree Text TextFile
  | leaf _ => leaf file
  | node children => node children

private theorem alterAt_concat (f : FileNode → FileNode) (parts : List Text) (name : Text) (n : FileNode) :
    alterAt f (parts ++ [name]) n =
      alterAt (fun n => { n with children := replaceFirst name f n.children }) parts n := by
  induction parts generalizing n with
  | nil => rfl
  | cons part parts ih => rw [List.cons_append, alterAt, alterAt, funext ih]

private theorem trees_setFile (text : Text) (size : Nat) (now : Text) (parts : List Text) (name : Text) (n : FileNode) :
    trees (alterAt (·.setFile text size now) (parts ++ [name]) n).children =
      (trees n.children).alter (fun children => children.update name (written ⟨text, size⟩)) parts := by
  rw [alterAt_concat]
  have hchildren : ∀ n : FileNode, trees (replaceFirst name (·.setFile text size now) n.children) =
      (trees n.children).update name (written ⟨text, size⟩) := by
    intro n
    refine trees_replaceFirst fun child hchild => ⟨(mem_of_getChild hchild).2, ?_⟩
    · by_cases hdir : child.type = directoryType
      · rw [FileNode.tree_directory hdir]
        exact FileNode.tree_directory hdir
      · rw [FileNode.tree_file hdir]
        exact FileNode.tree_file hdir
  refine trees_alterAt hchildren ?_ ?_ ?_ parts n
  · exact fun _ => rfl
  · exact fun _ => rfl
  · intro n h
    rw [FileNode.tree_file h]
    exact FileNode.tree_file h

mutual

/-- A copy is the same tree. -/
private theorem tree_deepCopy (now : Stamp) (name : Text) (n : FileNode) : (n.deepCopy now name).tree = n.tree := by
  obtain ⟨oldName, type, content, children, createdAt, modifiedAt, size⟩ := n
  rw [FileNode.deepCopy, FileNode.tree, FileNode.tree, trees_copyChildren now children]

private theorem trees_copyChildren (now : Stamp) (children : List FileNode) :
    trees (copyChildren now children) = trees children := by
  cases children with
  | nil => rw [copyChildren]
  | cons child children =>
    have hname : (child.deepCopy now child.name).name = child.name := by
      obtain ⟨name, type, content, children, createdAt, modifiedAt, size⟩ := child
      rfl
    rw [copyChildren, trees, trees, tree_deepCopy now child.name child, trees_copyChildren now children, hname]

end

private theorem ensureNodes_name {create : Bool} (parts : List Text) (n : FileNode) :
    (ensureNodes path create now parts n).1.name = n.name := by
  cases parts with
  | nil => rfl
  | cons part parts =>
    rw [ensureNodes]
    split
    · split <;> rfl
    · split <;> rfl

private theorem getChild_addChild (h : n.getChild part = none) (hname : made.name = part) :
    (n.addChild made).getChild part = some made := by
  have hfirst : n.children.find? (·.name = part) = none := h
  rw [FileNode.getChild, FileNode.addChild, List.find?_append, hfirst]
  simp [hname]

private theorem find?_replaceFirst {children : List FileNode} {child : FileNode}
    (h : children.find? (·.name = part) = some child) (hname : made.name = part) :
    (replaceFirst part (fun _ => made) children).find? (·.name = part) = some made := by
  induction children with
  | nil => cases h
  | cons first children ih =>
    rw [replaceFirst]
    by_cases hfirst : first.name = part
    · rw [if_pos hfirst, List.find?_cons_of_pos (by simpa using hname)]
    · rw [List.find?_cons_of_neg (by simpa using hfirst)] at h
      rw [if_neg hfirst, List.find?_cons_of_neg (by simpa using hfirst), ih h]

/-- `_ensure_parents`, from a directory. -/
private theorem ensureNodes_cases (path : Text) (now : Stamp) (parts : List Text) (hdir : n.type = directoryType) :
    (∃ made, ensureNodes path true now parts n = (made, .error (.notADirectory path)) ∧
        ensureParents path (trees n.children) parts = (trees made.children, some (.notADirectory path))) ∨
      ∃ made last, ensureNodes path true now parts n = (made, .ok last) ∧ made.type = directoryType ∧
        resolveNode parts made = some last ∧ last.type = directoryType ∧
        ensureParents path (trees n.children) parts = (trees made.children, none) := by
  induction parts generalizing n with
  | nil => exact .inr ⟨n, n, rfl, hdir, rfl, hdir, rfl⟩
  | cons part parts ih =>
    have hlookup := lookup_trees n.children part
    cases hchild : n.getChild part with
    | none =>
      rw [show n.children.find? (·.name = part) = none from hchild, Option.map_none] at hlookup
      have hinner := congrArg (fun found => found.getD (node [])) hlookup
      have hname : (ensureNodes path true now parts (newDirectory now part)).1.name = part := ensureNodes_name _ _
      rw [ensureNodes_missing hchild, ensureParents_node hinner, Forest.assign_new hlookup]
      have hnew : ∃ tree last, ensureNodes path true now parts (newDirectory now part) = (tree, .ok last) ∧
          last.children = [] := ensureNodes_newDirectory part
      obtain ⟨tree, last, hmade, -⟩ := hnew
      have hempty : trees (newDirectory now part).children = [] := rfl
      rcases ih (n := newDirectory now part) rfl with
        ⟨made, hstopped, -⟩ | ⟨made, last', hmade', htype, hfound, hlast, hsame⟩
      · rw [hmade] at hstopped
        cases (Prod.mk.inj hstopped).2
      · rw [hmade'] at hname ⊢
        refine .inr ⟨n.addChild made, last', rfl, hdir, ?_, hlast, ?_⟩
        · have hdir' : (n.addChild made).type = directoryType := hdir
          rw [resolveNode_child hdir' (getChild_addChild hchild hname), hfound]
        · rw [hempty] at hsame
          rw [hsame, FileNode.addChild, trees_append, hname, FileNode.tree_directory htype]
    | some child =>
      rw [show n.children.find? (·.name = part) = some child from hchild, Option.map_some] at hlookup
      have hpart : child.name = part := (mem_of_getChild hchild).2
      by_cases htype : child.type = directoryType
      · rw [FileNode.tree_directory htype] at hlookup
        have hinner := congrArg (fun found => found.getD (node [])) hlookup
        have hname : (ensureNodes path true now parts child).1.name = part := (ensureNodes_name _ _).trans hpart
        have hmadeType : (ensureNodes path true now parts child).1.type = directoryType :=
          (ensureNodes_type _ _).trans htype
        have hput : ∀ made : FileNode, made.name = part → made.type = directoryType →
            trees (replaceFirst part (fun _ => made) n.children) =
              (trees n.children).assign part (node (trees made.children)) := by
          intro made hname hmade
          rw [Forest.assign, hlookup]
          exact trees_replaceFirst fun _ _ => ⟨hname, FileNode.tree_directory hmade⟩
        rw [ensureNodes_directory hchild htype, ensureParents_node hinner]
        rcases ih htype with ⟨made, hmade, hsame⟩ | ⟨made, last, hmade, -, hfound, hlast, hsame⟩
        · rw [hmade] at hname hmadeType ⊢
          exact .inl ⟨_, rfl, by rw [hsame, hput made hname hmadeType]⟩
        · rw [hmade] at hname hmadeType ⊢
          refine .inr ⟨_, last, rfl, hdir, ?_, hlast, by rw [hsame, hput made hname hmadeType]⟩
          have hdir' : { n with children := replaceFirst part (fun _ => made) n.children }.type = directoryType := hdir
          rw [resolveNode_child hdir' (find?_replaceFirst hchild hname), hfound]
      · rw [FileNode.tree_file htype] at hlookup
        exact .inl ⟨n, ensureNodes_file hchild htype _, ensureParents_leaf hlookup⟩

/-- `_ensure_parents` that creates nothing, from a directory. -/
private theorem ensureNodes_existing (path : Text) (now : Stamp) (parts : List Text) (hdir : n.type = directoryType) :
    (∃ e e', ensureNodes path false now parts n = (n, .error e) ∧ e.pathError? = some e' ∧
        existingParents path (trees n.children) parts = .error e') ∨
      ∃ last, ensureNodes path false now parts n = (n, .ok last) ∧ resolveNode parts n = some last ∧
        last.type = directoryType ∧ existingParents path (trees n.children) parts = .ok (trees last.children) := by
  induction parts generalizing n with
  | nil => exact .inr ⟨n, rfl, rfl, hdir, rfl⟩
  | cons part parts ih =>
    have hlookup := lookup_trees n.children part
    rw [existingParents]
    cases hchild : n.getChild part with
    | none =>
      rw [show n.children.find? (·.name = part) = none from hchild, Option.map_none] at hlookup
      rw [hlookup]
      exact .inl ⟨_, _, ensureNodes_absent hchild parts, rfl, rfl⟩
    | some child =>
      rw [show n.children.find? (·.name = part) = some child from hchild, Option.map_some] at hlookup
      rw [hlookup]
      by_cases htype : child.type = directoryType
      · have hsame : { n with children := replaceFirst part (fun _ => child) n.children } = n :=
          replaceFirst_self hchild
        rw [FileNode.tree_directory htype, ensureNodes_directory hchild htype, resolveNode_child hdir hchild]
        rcases ih htype with ⟨e, e', hmade, herror, hfound⟩ | ⟨last, hmade, hfound, hlast, hsome⟩
        · exact .inl ⟨e, e', by rw [hmade, hsame], herror, hfound⟩
        · exact .inr ⟨last, by rw [hmade, hsame], hfound, hlast, hsome⟩
      · rw [FileNode.tree_file htype, ensureNodes_file hchild htype]
        exact .inl ⟨_, _, rfl, rfl, rfl⟩

private theorem resolve_trees (hdir : n.type = directoryType) (parts : List Text) :
    resolve (trees n.children) parts = (resolveNode parts n).map FileNode.tree := by
  rw [resolve, ← FileNode.tree_directory hdir, find_tree]

/-- The child of a name, below a node that has children only when it is a directory. -/
private theorem find_singleton {n : FileNode} (hfile : n.type ≠ directoryType → n.children = []) (name : Text) :
    n.tree.find [name] = (n.getChild name).map FileNode.tree := by
  rw [find_tree, resolveNode]
  by_cases hdir : n.type = directoryType
  · cases n.getChild name with
    | none => rfl
    | some child => simp [hdir, resolveNode]
  · simp [FileNode.getChild, hfile hdir]

private theorem trees_putNode {srcNode : FileNode} {src dest : List Text} (hdir : n.type = directoryType)
    (hdest : dest ≠ []) :
    trees (JsonFileStorage.putNode now n srcNode src dest hdest).children =
      JsonFile.putCopy (trees n.children) srcNode.tree src dest hdest := by
  unfold JsonFileStorage.putNode JsonFile.putCopy
  have hremoved : (alterAt (·.removeChild (dest.getLast hdest)) dest.dropLast n).type = directoryType := by
    refine (alterAt_type ?_ _ n).trans hdir
    exact fun _ => rfl
  have hname : ∀ (name : Text) (n : FileNode), (n.deepCopy now name).name = name := by
    intro name n
    obtain ⟨oldName, type, content, children, createdAt, modifiedAt, size⟩ := n
    rfl
  simp only [trees_addChild, hname, tree_deepCopy, deepCopy_eq, ← trees_removeChild, resolve_trees hremoved,
    resolve_trees hdir, Option.getD_map]

end Nodes

namespace JsonFileStorage

variable {s : JsonFileStorage} {now : Stamp} {path src dest : Text} {recursive : Bool}
  {saved : Option (Forest Text TextFile)}

/-- What stands at each path. -/
def view (s : JsonFileStorage) : View Text TextFile := (node (trees s.root.children)).view

/-- A call leaves the same tree, and raises the same error. -/
def Does (result : JsonFileStorage × Option FileStorageError)
    (operation : SavedTree Text TextFile × Option (PathError Text)) : Prop :=
  trees result.1.root.children = operation.1.root ∧ result.2.map FileStorageError.pathError? = operation.2.map some

/-- Where the content can be encoded. -/
theorem writeFile_does {content : FileContent} {size : Nat} (hdir : s.root.type = directoryType)
    (hsize : encodedLength? content.decoded = some size) : Does (s.writeFile now path content)
    (⟨(writeNode (trees s.root.children) (normalizeText path) path ⟨content.decoded, size⟩).1, saved⟩,
      (writeNode (trees s.root.children) (normalizeText path) path ⟨content.decoded, size⟩).2) := by
  unfold writeFile writeNode
  generalize normalizeText path = parts
  by_cases hparts : parts = []
  · simp only [dif_pos hparts]
    exact ⟨rfl, rfl⟩
  simp only [dif_neg hparts]
  rcases ensureNodes_cases path now parts.dropLast hdir with
    ⟨made, hmade, hsame⟩ | ⟨made, last, hmade, htype, hlast, hlastDir, hsame⟩
  · rw [hmade, hsame]
    exact ⟨rfl, rfl⟩
  · have hsplit : parts.dropLast ++ [parts.getLast hparts] = parts := List.dropLast_append_getLast hparts
    have hparent : (node (trees made.children)).find parts.dropLast = some (node (trees last.children)) := by
      rw [← FileNode.tree_directory htype, find_tree, hlast, Option.map_some, FileNode.tree_directory hlastDir]
    have hthere : resolve (trees made.children) parts = (last.getChild (parts.getLast hparts)).map FileNode.tree := by
      have hinit := find_append (node (trees made.children)) parts.dropLast [parts.getLast hparts]
      rw [hsplit, hparent, Option.bind_some, ← FileNode.tree_directory hlastDir] at hinit
      exact hinit.trans (find_singleton (fun hfile => absurd hlastDir hfile) _)
    have hlookup := lookup_trees last.children (parts.getLast hparts)
    rw [hmade, hsame]
    simp only [hthere, hsize]
    cases hchild : last.getChild (parts.getLast hparts) with
    | none =>
      refine ⟨(trees_addChild _ _ _).trans ?_, rfl⟩
      rw [show last.children.find? (·.name = parts.getLast hparts) = none from hchild, Option.map_none] at hlookup
      exact Forest.alter_congr hparent (Forest.assign_new hlookup).symm
    | some child =>
      rw [show last.children.find? (·.name = parts.getLast hparts) = some child from hchild, Option.map_some] at hlookup
      rw [Option.map_some]
      by_cases hfile : child.type = directoryType
      · simp only [FileNode.tree_directory hfile, if_pos hfile]
        exact ⟨rfl, rfl⟩
      · simp only [FileNode.tree_file hfile, if_neg hfile]
        rw [FileNode.tree_file hfile] at hlookup
        refine ⟨?_, rfl⟩
        -- the file that is there is written to
        have hset := trees_setFile content.decoded size now.text parts.dropLast (parts.getLast hparts) made
        rw [hsplit] at hset
        refine hset.trans (Forest.alter_congr hparent ?_)
        rw [Forest.assign, hlookup]
        refine Forest.update_congr fun u hu => ?_
        obtain rfl := Option.some.inj (hlookup.symm.trans hu)
        rfl

theorem mkdir_does (hdir : s.root.type = directoryType) : Does (s.mkdir now path recursive)
    (⟨(makeDirectory (trees s.root.children) (normalizeText path) path recursive).1, saved⟩,
      (makeDirectory (trees s.root.children) (normalizeText path) path recursive).2.1) := by
  unfold mkdir makeDirectory
  generalize normalizeText path = parts
  by_cases hparts : parts = []
  · simp only [dif_pos hparts]
    exact ⟨rfl, rfl⟩
  simp only [dif_neg hparts]
  cases recursive with
  | true =>
    simp only [if_true]
    rcases ensureNodes_cases path now parts hdir with ⟨made, hmade, hsame⟩ | ⟨made, last, hmade, -, -, -, hsame⟩
    · rw [hmade, hsame]
      exact ⟨rfl, rfl⟩
    · rw [hmade, hsame]
      exact ⟨rfl, rfl⟩
  | false =>
    simp only [Bool.false_eq_true, if_false]
    rcases ensureNodes_existing path now parts.dropLast hdir with
      ⟨e, e', hmade, herror, hfound⟩ | ⟨last, hmade, -, -, hfound⟩
    · rw [hmade, hfound]
      exact ⟨rfl, congrArg some herror⟩
    · have hlookup := lookup_trees last.children (parts.getLast hparts)
      rw [hmade, hfound]
      simp only [hlookup, FileNode.getChild]
      cases last.children.find? (·.name = parts.getLast hparts) with
      | none => exact ⟨trees_addChild _ _ _, rfl⟩
      | some child =>
        rw [Option.map_some]
        by_cases htype : child.type = directoryType
        · simp only [FileNode.tree_directory htype, if_pos htype]
          exact ⟨rfl, rfl⟩
        · simp only [FileNode.tree_file htype, if_neg htype]
          exact ⟨rfl, rfl⟩

theorem copy_does (hdir : s.root.type = directoryType) : Does (s.copy now src dest)
    (JsonFile.copyAt ⟨trees s.root.children, saved⟩ (normalizeText src) (normalizeText dest) src dest) := by
  unfold copy JsonFile.copyAt
  generalize normalizeText src = srcParts
  generalize normalizeText dest = destParts
  simp only [resolve_trees hdir]
  cases resolveNode srcParts s.root with
  | none => exact ⟨rfl, rfl⟩
  | some srcNode =>
    by_cases hd : destParts = []
    · simp only [dif_pos hd, Option.map_some]
      exact ⟨rfl, rfl⟩
    simp only [dif_neg hd, Option.map_some]
    rcases ensureNodes_cases dest now destParts.dropLast hdir with
      ⟨made, hmade, hsame⟩ | ⟨made, last, hmade, htype, -, -, hsame⟩
    · rw [hmade, hsame]
      exact ⟨rfl, rfl⟩
    · rw [hmade, hsame]
      exact ⟨trees_putNode htype hd, rfl⟩

theorem move_does (hdir : s.root.type = directoryType) : Does (s.move now src dest)
    (JsonFile.moveAt ⟨trees s.root.children, saved⟩ (normalizeText src) (normalizeText dest) src dest) := by
  unfold move JsonFile.moveAt
  generalize normalizeText src = srcParts
  generalize normalizeText dest = destParts
  by_cases hs : srcParts = []
  · simp only [dif_pos hs]
    exact ⟨rfl, rfl⟩
  simp only [dif_neg hs, resolve_trees hdir]
  cases resolveNode srcParts s.root with
  | none => exact ⟨rfl, rfl⟩
  | some srcNode =>
    by_cases hd : destParts = []
    · simp only [dif_pos hd, Option.map_some]
      exact ⟨rfl, rfl⟩
    simp only [dif_neg hd, Option.map_some]
    rcases ensureNodes_cases dest now destParts.dropLast hdir with
      ⟨made, hmade, hsame⟩ | ⟨made, last, hmade, htype, -, -, hsame⟩
    · rw [hmade, hsame]
      exact ⟨rfl, rfl⟩
    · -- the copy is in its place; what is left is the removal of the old child
      have hput : (putNode now made srcNode srcParts destParts hd).type = directoryType :=
        (putNode_type hd).trans htype
      have hputs : trees (putNode now made srcNode srcParts destParts hd).children =
          JsonFile.putCopy (trees made.children) srcNode.tree srcParts destParts hd := trees_putNode htype hd
      rw [hmade, hsame]
      refine ⟨?_, rfl⟩
      simp only [save, JsonFile.save, JsonFile.removeOld, ← hputs, resolve_trees hput]
      cases resolveNode srcParts.dropLast (putNode now made srcNode srcParts destParts hd) with
      | none => rfl
      | some parent => exact trees_removeChild _ _ _

/-- Not of the root; files have no children. -/
theorem remove_does (hdir : s.root.type = directoryType) (hparts : normalizeText path ≠ [])
    (hfile : ∀ parent, resolveNode (normalizeText path).dropLast s.root = some parent →
      parent.type ≠ directoryType → parent.children = []) :
    Does (s.remove path recursive)
      (⟨(removeNode (trees s.root.children) (normalizeText path) path recursive hparts).1, saved⟩,
        (removeNode (trees s.root.children) (normalizeText path) path recursive hparts).2) := by
  unfold remove removeNode
  generalize normalizeText path = parts at hparts hfile
  -- a file would be asked for a child too; as it has none, it answers like the leaf
  have hlast : ((resolve (trees s.root.children) parts.dropLast).bind fun parent =>
      parent.find [parts.getLast hparts]) =
      ((resolveNode parts.dropLast s.root).bind (·.getChild (parts.getLast hparts))).map FileNode.tree := by
    rw [resolve_trees hdir]
    cases hparent : resolveNode parts.dropLast s.root with
    | none => rfl
    | some parent => exact find_singleton (hfile parent hparent) _
  simp only [dif_neg hparts, hlast]
  cases (resolveNode parts.dropLast s.root).bind (·.getChild (parts.getLast hparts)) with
  | none => exact ⟨rfl, rfl⟩
  | some n =>
    have hremoved : trees (alterAt (·.removeChild (parts.getLast hparts)) parts.dropLast s.root).children =
        (trees s.root.children).alter (fun children => children.discard (parts.getLast hparts)) parts.dropLast :=
      trees_removeChild _ _ _
    rw [Option.map_some]
    by_cases htype : n.type = directoryType
    · rw [FileNode.tree_directory htype]
      cases hchildren : n.children with
      | nil =>
        simp only [htype, hchildren, trees, true_and, ne_eq, not_true_eq_false, false_and, if_false]
        exact ⟨hremoved, rfl⟩
      | cons child children =>
        cases recursive with
        | false =>
          simp only [htype, hchildren, trees, ne_eq, reduceCtorEq, not_false_eq_true, true_and, if_true]
          exact ⟨rfl, rfl⟩
        | true =>
          simp only [htype, trees, Bool.true_eq_false, and_false, if_false]
          exact ⟨hremoved, rfl⟩
    · rw [FileNode.tree_file htype]
      simp only [htype, false_and, if_false]
      exact ⟨hremoved, rfl⟩

end JsonFileStorage

end CliServer
