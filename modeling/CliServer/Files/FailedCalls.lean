import CliServer.Files.MemoryNodes
import CliServer.Files.JsonPersistence

/-!
# Calls of the tree providers that fail

`write_file` encodes the text after it has made the parents, and in the JSON provider after it has set the content;
the in-memory provider names an error class that it does not import, and deletes a key that the copy has replaced.
Every other call that fails leaves the tree as it was (`calls_fail_cleanly_iff`).
-/

namespace CliServer

open Json (CodePoint Text ofChars)
open NamedTree Transition

/-- What a call raises is an error of the file providers, and then it has changed nothing. -/
def FailsCleanly (unchanged : Prop) (error : Option CallError) : Prop :=
  ∀ e, error = some e → unchanged ∧ e.IsFileStorage

private theorem failsCleanly_none {unchanged : Prop} : FailsCleanly unchanged none := fun _ h => nomatch h

private theorem failsCleanly_storage {unchanged : Prop} {e : FileStorageError} (hsame : unchanged)
    (he : e ≠ .unicodeEncode) :
    FailsCleanly unchanged (some (.storage e)) := by
  intro e' h
  obtain rfl := Option.some.inj h
  exact ⟨hsame, he⟩

private theorem not_failsCleanly {unchanged : Prop} {e : CallError} (he : ¬e.IsFileStorage) :
    ¬FailsCleanly unchanged (some e) := fun h => he (h e rfl).2

/-! ### The in-memory provider -/

namespace MemoryTree

/-- A file stands at the path or above it. -/
def FileAbove (view : View Text MemoryFile) (parts : List Text) : Prop :=
  ∃ q file, q ≠ [] ∧ q <+: parts ∧ view q = some (.leaf file)

section Ensure

variable {path part : Text} {parts q : List Text} {create : Bool} {children inner made : MemoryTree}
  {e : FileStorageError}

private theorem view_assign (t : NamedTree Text MemoryFile) :
    (node (children.assign part t)).view (part :: q) = t.view q := by
  rw [view_node_cons, Forest.lookup_assign, if_pos rfl]
  rfl

private theorem view_assign_ne {name : Text} (h : name ≠ part) (t : NamedTree Text MemoryFile) :
    (node (children.assign part t)).view (name :: q) = (node children).view (name :: q) := by
  rw [view_node_cons, view_node_cons, Forest.lookup_assign, if_neg h]

private theorem view_child {t : NamedTree Text MemoryFile} (h : getChild children part = some t) :
    (node children).view (part :: q) = t.view q := view_append_of_find h q

private theorem view_no_child (h : getChild children part = none) (q : List Text) :
    (node children).view (part :: q) = none :=
  view_append_eq_none (view_eq_none_iff.2 h) q

/-- Putting back a child whose view has not changed changes no view. -/
private theorem view_assign_same {t t' : NamedTree Text MemoryFile} (h : getChild children part = some t)
    (hview : t'.view = t.view) :
    (node (children.assign part t')).view = (node children).view := by
  funext q
  cases q with
  | nil => rw [view_nil_node, view_nil_node]
  | cons name q =>
    by_cases hname : name = part
    · rw [hname, view_assign, view_child h, hview]
    · rw [view_assign_ne hname]

theorem ensureParents_empty (parts : List Text) : (ensureParents path true parts []).2 = none := by
  induction parts with
  | nil => rfl
  | cons part parts ih => exact ih

/-- It fails before it has made anything. -/
theorem ensureParents_error (h : ensureParents path create parts children = (made, some e)) :
    (node made).view = (node children).view ∧ e ≠ .unicodeEncode ∧
      (create = true → FileAbove (node children).view parts) := by
  induction parts generalizing children made with
  | nil => cases h
  | cons part parts ih =>
    rw [ensureParents] at h
    cases hchild : getChild children part with
    | none =>
      rw [hchild] at h
      cases create with
      | true =>
        have herror : (ensureParents path true parts []).2 = some e := (Prod.mk.inj h).2
        rw [ensureParents_empty] at herror
        cases herror
      | false =>
        obtain ⟨rfl, he⟩ := Prod.mk.inj h
        obtain rfl := Option.some.inj he
        exact ⟨rfl, nofun, fun hfalse => nomatch hfalse⟩
    | some t =>
      rw [hchild] at h
      cases t with
      | leaf file =>
        obtain ⟨rfl, he⟩ := Prod.mk.inj h
        obtain rfl := Option.some.inj he
        refine ⟨rfl, nofun, fun _ => ⟨[part], file, List.cons_ne_nil _ _, List.prefix_append [part] parts, ?_⟩⟩
        rw [view_child hchild]
        rfl
      | node inner =>
        obtain ⟨rfl, he⟩ := Prod.mk.inj h
        obtain ⟨hsame, hclass, habove⟩ := ih (Prod.ext rfl he)
        refine ⟨view_assign_same hchild hsame, hclass, fun hcreate => ?_⟩
        obtain ⟨q, file, hq, hpre, hfile⟩ := habove hcreate
        refine ⟨part :: q, file, List.cons_ne_nil _ _, List.cons_prefix_cons.2 ⟨rfl, hpre⟩, ?_⟩
        rw [view_child hchild, hfile]

/-- Otherwise no file stands in its way; it ends in a directory, and only directories on the way to it are new. -/
private theorem ensureParents_ok (h : ensureParents path create parts children = (made, none)) :
    ¬FileAbove (node children).view parts ∧ (node made).view parts = some .node ∧
      ∀ q, (node children).view q ≠ none ∨ ¬q <+: parts → (node made).view q = (node children).view q := by
  induction parts generalizing children made with
  | nil =>
    obtain ⟨rfl, -⟩ := Prod.mk.inj h
    refine ⟨?_, view_nil_node _, fun _ _ => rfl⟩
    rintro ⟨q, file, hq, hpre, -⟩
    exact hq (List.prefix_nil.1 hpre)
  | cons part parts ih =>
    rw [ensureParents] at h
    cases hchild : getChild children part with
    | none =>
      rw [hchild] at h
      have hnone := view_no_child hchild
      cases create with
      | false => cases (Prod.mk.inj h).2
      | true =>
        obtain ⟨rfl, hok⟩ := Prod.mk.inj h
        have hempty : ensureParents path true parts [] = ((ensureParents path true parts []).1, none) :=
          Prod.ext rfl hok
        obtain ⟨-, hnode, hkept⟩ := ih hempty
        refine ⟨?_, by rw [view_assign, hnode], ?_⟩
        · rintro ⟨q, file, hq, hpre, hfile⟩
          obtain ⟨name, q, rfl⟩ := List.exists_cons_of_ne_nil hq
          obtain ⟨rfl, -⟩ := List.cons_prefix_cons.1 hpre
          rw [hnone] at hfile
          cases hfile
        · intro q hq
          cases q with
          | nil => rw [view_nil_node, view_nil_node]
          | cons name q =>
            by_cases hname : name = part
            · subst hname
              have hoff : ¬q <+: parts := by
                intro hpre
                exact hq.elim (fun hq => hq (hnone q)) fun hq => hq (List.cons_prefix_cons.2 ⟨rfl, hpre⟩)
              rw [view_assign, hkept q (.inr hoff), hnone]
              cases q with
              | nil => exact absurd List.nil_prefix hoff
              | cons next q => rfl
            · rw [view_assign_ne hname]
    | some t =>
      rw [hchild] at h
      cases t with
      | leaf file => cases (Prod.mk.inj h).2
      | node inner =>
        obtain ⟨rfl, hok⟩ := Prod.mk.inj h
        obtain ⟨hclear, hnode, hkept⟩ := ih (Prod.ext rfl hok)
        refine ⟨?_, by rw [view_assign, hnode], ?_⟩
        · rintro ⟨q, file, hq, hpre, hfile⟩
          obtain ⟨name, q, rfl⟩ := List.exists_cons_of_ne_nil hq
          obtain ⟨rfl, hinner⟩ := List.cons_prefix_cons.1 hpre
          rw [view_child hchild] at hfile
          cases q with
          | nil => cases hfile
          | cons next q => exact hclear ⟨next :: q, file, List.cons_ne_nil _ _, hinner, hfile⟩
        · intro q hq
          cases q with
          | nil => rw [view_nil_node, view_nil_node]
          | cons name q =>
            by_cases hname : name = part
            · subst hname
              rw [view_child hchild, List.cons_prefix_cons] at hq
              rw [view_assign, view_child hchild, hkept q (hq.imp_right fun hq hpre => hq ⟨rfl, hpre⟩)]
            · rw [view_assign_ne hname]

/-- For a directory that is there it changes nothing. -/
private theorem ensureParents_there (h : (node children).view parts = some .node) :
    (node (ensureParents path create parts children).1).view = (node children).view := by
  induction parts generalizing children with
  | nil => rfl
  | cons part parts ih =>
    rw [ensureParents]
    cases hchild : getChild children part with
    | none =>
      rw [view_no_child hchild] at h
      cases h
    | some t =>
      rw [view_child hchild] at h
      cases t with
      | leaf file =>
        rfl
      | node inner => exact view_assign_same hchild (ih h)

/-- What it has led to something was there before. -/
private theorem ensureParents_above (hparts : parts ≠ [])
    (h : ensureParents path create parts.dropLast children = (made, none))
    (hthere : (node made).view parts ≠ none) : (node made).view = (node children).view := by
  obtain ⟨-, -, hkept⟩ := ensureParents_ok h
  have hlast : parts.dropLast ++ [parts.getLast hparts] = parts := List.dropLast_append_getLast hparts
  have hoff : ¬parts <+: parts.dropLast := by
    intro hpre
    have hlength := hpre.length_le
    rw [List.length_dropLast] at hlength
    have hpos := List.length_pos_of_ne_nil hparts
    omega
  rw [hkept parts (.inr hoff), ← hlast] at hthere
  have hnode := view_node_of_append (List.cons_ne_nil _ _) hthere
  have hsame : (node (ensureParents path create parts.dropLast children).1).view = (node children).view :=
    ensureParents_there hnode
  rw [h] at hsame
  exact hsame

end Ensure

section Calls

variable {root made : MemoryTree} {path src dest : Text} {parts s d : List Text} {content : FileContent}

/-- `unchanged` and the error of a call's result. -/
def Fails (root : MemoryTree) (result : MemoryTree × Option CallError) : Prop :=
  FailsCleanly ((node result.1).view = (node root).view) result.2

private theorem view_ne_none {t : NamedTree Text MemoryFile} (h : resolve root parts = some t) :
    (node root).view parts ≠ none := by
  rw [Ne, view_eq_none_iff]
  intro hnone
  rw [resolve, hnone] at h
  cases h

private theorem writeFile_iff : Fails root (writeFile root path content) ↔
    content.encoded? ≠ none ∨ normalizeText path = [] ∨ FileAbove (node root).view (normalizeText path).dropLast := by
  unfold writeFile
  dsimp only
  by_cases hparts : normalizeText path = []
  · rw [dif_pos hparts]
    exact iff_of_true (failsCleanly_storage rfl (fun h => by cases h)) (.inr (.inl hparts))
  · rw [dif_neg hparts]
    cases hmade : ensureParents path true (normalizeText path).dropLast root with
    | mk made error =>
      cases error with
      | some e =>
        obtain ⟨hsame, hclass, habove⟩ := ensureParents_error hmade
        exact iff_of_true (failsCleanly_storage hsame hclass) (.inr (.inr (habove rfl)))
      | none =>
        obtain ⟨hclear, -, -⟩ := ensureParents_ok hmade
        cases hraw : content.encoded? with
        | none =>
          refine iff_of_false (not_failsCleanly fun h => h rfl) ?_
          rintro (h | h | h)
          · exact h rfl
          · exact hparts h
          · exact hclear h
        | some raw =>
          refine iff_of_true ?_ (.inl (Option.some_ne_none raw))
          dsimp only
          split
          · next inner hnode =>
            exact failsCleanly_storage (ensureParents_above hparts hmade (view_ne_none hnode)) (fun h => by cases h)
          · exact failsCleanly_none

private theorem mkdir_fails (root : MemoryTree) (path : Text) (recursive : Bool) :
    Fails root (mkdir root path recursive) := by
  unfold mkdir
  dsimp only
  split
  · exact failsCleanly_none
  · next hparts =>
    split
    · cases hmade : ensureParents path true (normalizeText path) root with
      | mk made error =>
        cases error with
        | some e =>
          obtain ⟨hsame, hclass, -⟩ := ensureParents_error hmade
          exact failsCleanly_storage hsame hclass
        | none => exact failsCleanly_none
    · cases hmade : ensureParents path false (normalizeText path).dropLast root with
      | mk made error =>
        cases error with
        | some e =>
          obtain ⟨hsame, hclass, -⟩ := ensureParents_error hmade
          exact failsCleanly_storage hsame hclass
        | none =>
          dsimp only
          split
          · next file hleaf =>
            exact failsCleanly_storage (ensureParents_above hparts hmade (view_ne_none hleaf)) (fun h => by cases h)
          · exact failsCleanly_none
          · exact failsCleanly_none

private theorem remove_iff {recursive : Bool} : Fails root (remove root path recursive) ↔ normalizeText path ≠ [] := by
  unfold remove
  dsimp only
  by_cases hparts : normalizeText path = []
  · rw [dif_pos hparts]
    exact iff_of_false (not_failsCleanly fun h => h) fun h => h hparts
  · rw [dif_neg hparts]
    refine iff_of_true ?_ hparts
    split
    · exact failsCleanly_storage rfl (fun h => by cases h)
    · split
      · exact failsCleanly_storage rfl (fun h => by cases h)
      · exact failsCleanly_none

private theorem copy_fails (root : MemoryTree) (src dest : Text) : Fails root (copy root src dest) := by
  unfold copy
  dsimp only
  split
  · exact failsCleanly_storage rfl (fun h => by cases h)
  · split
    · exact failsCleanly_storage rfl (fun h => by cases h)
    · cases hmade : ensureParents dest true (normalizeText dest).dropLast root with
      | mk made error =>
        cases error with
        | some e =>
          obtain ⟨hsame, hclass, -⟩ := ensureParents_error hmade
          exact failsCleanly_storage hsame hclass
        | none => exact failsCleanly_none

/-- What stands at `dest` and below it is the copy. -/
theorem view_putCopy (t : NamedTree Text MemoryFile) (hd : d ≠ []) (hparent : (node made).view d.dropLast = some .node)
    (q : List Text) : (node (putCopy made t d hd)).view q =
      if d <+: q then t.view (q.drop d.length) else (node made).view q := by
  obtain ⟨inner, hinner⟩ := find_of_view_node hparent
  have hlast : d.dropLast ++ [d.getLast hd] = d := List.dropLast_append_getLast hd
  have hlength : d.dropLast.length + 1 = d.length := by
    rw [List.length_dropLast]
    exact Nat.succ_pred_eq_of_pos (List.length_pos_of_ne_nil hd)
  have hview := view_alter (f := fun children => children.assign (d.getLast hd) (deepCopy t)) hinner
    (fun k => Forest.lookup_assign inner (d.getLast hd) (deepCopy t) k) q
  rw [hlast, hlength, Option.bind_some, deepCopy_eq] at hview
  rw [putCopy, deepCopy_eq]
  exact hview

/-- Only a key that is not in the parent makes it fail. -/
private theorem removeOld_iff {unchanged : Prop} (hs : s ≠ []) : FailsCleanly unchanged (removeOld made s hs).2 ↔
    ((node made).view s.dropLast ≠ none → (node made).view s ≠ none) := by
  have hlast : s.dropLast ++ [s.getLast hs] = s := List.dropLast_append_getLast hs
  unfold removeOld
  cases hparent : resolve made s.dropLast with
  | none => exact iff_of_true failsCleanly_none fun h => absurd (view_eq_none_iff.2 hparent) h
  | some srcParent =>
    have hchild : (node made).view s = none ↔ srcParent.find [s.getLast hs] = none := by
      rw [← view_eq_none_iff, ← view_append_of_find hparent, hlast]
    dsimp only
    split
    · next hmissing =>
      refine iff_of_false (not_failsCleanly fun h => h) fun h => ?_
      exact h (view_ne_none hparent) (hchild.2 (Option.isNone_iff_eq_none.1 hmissing))
    · next hthere =>
      exact iff_of_true failsCleanly_none fun _ hnone => hthere (Option.isNone_iff_eq_none.2 (hchild.1 hnone))

private theorem move_iff : Fails root (move root src dest) ↔ normalizeText src ≠ [] ∧
    ∀ r, r ≠ [] → normalizeText dest ≠ [] → normalizeText src = normalizeText dest ++ r →
      (node root).view (normalizeText src ++ r.dropLast) ≠ none → (node root).view (normalizeText src ++ r) ≠ none := by
  unfold move
  dsimp only
  generalize normalizeText src = s
  generalize normalizeText dest = d
  by_cases hs : s = []
  · rw [dif_pos hs]
    exact iff_of_false (not_failsCleanly fun h => h) fun h => h.1 hs
  · rw [dif_neg hs]
    cases hfound : resolve root s with
    | none =>
      refine iff_of_true (failsCleanly_storage rfl (fun h => by cases h)) ⟨hs, fun r _ _ _ habove => ?_⟩
      exact absurd (view_append_eq_none (view_eq_none_iff.2 hfound) r.dropLast) habove
    | some srcNode =>
      have hsome := view_ne_none hfound
      dsimp only
      by_cases hd : d = []
      · rw [dif_pos hd]
        exact iff_of_true (failsCleanly_storage rfl (fun h => by cases h)) ⟨hs, fun _ _ hdest => absurd hd hdest⟩
      · rw [dif_neg hd]
        -- what is above the source is a directory
        have hthere : ∀ {r}, s = d ++ r → (node root).view d.dropLast = some .node := by
          intro r heq
          have hsplit : s = d.dropLast ++ ([d.getLast hd] ++ r) := by
            rw [← List.append_assoc, List.dropLast_append_getLast hd, heq]
          rw [hsplit] at hsome
          exact view_node_of_append (List.append_ne_nil_of_left_ne_nil (List.cons_ne_nil _ _) _) hsome
        cases hmade : ensureParents dest true d.dropLast root with
        | mk made error =>
          cases error with
          | some e =>
            obtain ⟨hsame, hclass, habove⟩ := ensureParents_error hmade
            obtain ⟨q, file, -, hpre, hfile⟩ := habove rfl
            refine iff_of_true (failsCleanly_storage hsame hclass) ⟨hs, fun r _ _ heq => ?_⟩
            obtain ⟨x, hx⟩ := hpre
            have hnode := hthere heq
            by_cases hx' : x = []
            · rw [hx', List.append_nil] at hx
              rw [← hx, hfile] at hnode
              cases hnode
            · rw [← hx] at hnode
              rw [view_node_of_append hx' (by rw [hnode]; exact Option.some_ne_none _)] at hfile
              cases hfile
          | none =>
            obtain ⟨-, hparent, hkept⟩ := ensureParents_ok hmade
            have hstill : (node made).view s = (node root).view s := hkept s (.inl hsome)
            obtain ⟨u, hu⟩ := Option.isSome_iff_exists.1 (find_isSome_of_view_ne_none (hstill.symm ▸ hsome))
            have hcopied : (resolve made s).getD srcNode = u := by rw [resolve, hu, Option.getD_some]
            have hview := view_putCopy u hd hparent
            dsimp only
            rw [Fails, hcopied, removeOld_iff]
            by_cases hbelow : d <+: s
            · obtain ⟨r, rfl⟩ := hbelow
              have hsame : (node made).view = (node root).view := by
                have hensured : (node (ensureParents dest true d.dropLast root).1).view = (node root).view :=
                  ensureParents_there (hthere rfl)
                rw [hmade] at hensured
                exact hensured
              have hput : ∀ x, (node (putCopy made u d hd)).view (d ++ x) = (node root).view (d ++ r ++ x) := by
                intro x
                rw [hview, if_pos (List.prefix_append d x), List.drop_left, ← hsame, view_append_of_find hu]
              rw [hput]
              by_cases hr : r = []
              · subst hr
                refine iff_of_true (fun _ => ?_) ⟨hs, fun r hr _ heq => ?_⟩
                · rw [List.append_nil]
                  exact hsome
                · rw [List.append_nil, List.self_eq_append_right] at heq
                  exact absurd heq hr
              · rw [List.dropLast_append_of_ne_nil hr, hput]
                constructor
                · intro h
                  refine ⟨hs, fun r' _ _ heq => ?_⟩
                  obtain rfl := List.append_cancel_left heq
                  exact h
                · exact fun h => h.2 r hr hd rfl
            · have hkey : (node (putCopy made u d hd)).view s ≠ none := by
                rw [hview, if_neg hbelow, hstill]
                exact hsome
              exact iff_of_true (fun _ => hkey) ⟨hs, fun r _ _ heq => absurd ⟨r, heq.symm⟩ hbelow⟩

end Calls

end MemoryTree

/-! ### The JSON provider -/

/-- A file stands at the path or above it. -/
def NodeAbove (root : FileNode) (parts : List Text) : Prop :=
  ∃ q n, q ≠ [] ∧ q <+: parts ∧ resolveNode q root = some n ∧ n.type ≠ directoryType

section Nodes

variable {path part : Text} {parts : List Text} {create : Bool} {now : Stamp} {node child made parent n : FileNode}
  {e : FileStorageError}

theorem resolveNode_child (hdir : node.type = directoryType) (h : node.getChild part = some child) (parts : List Text) :
    resolveNode (part :: parts) node = resolveNode parts child := by
  rw [resolveNode, h]
  exact if_pos hdir

private theorem ensureNodes_class (h : ensureNodes path create now parts node = (made, .error e)) :
    e ≠ .unicodeEncode := by
  induction parts generalizing node made with
  | nil => cases h
  | cons part parts ih =>
    cases hchild : node.getChild part with
    | none =>
      cases create with
      | true =>
        have hnew : ∃ tree last, ensureNodes path true now parts (newDirectory now part) = (tree, .ok last) ∧
            last.children = [] := ensureNodes_newDirectory part
        obtain ⟨tree, last, hmade, -⟩ := hnew
        rw [ensureNodes_missing hchild, hmade] at h
        cases (Prod.mk.inj h).2
      | false =>
        rw [ensureNodes_absent hchild] at h
        obtain rfl := Except.error.inj (Prod.mk.inj h).2
        nofun
    | some child =>
      by_cases htype : child.type = directoryType
      · rw [ensureNodes_directory hchild htype] at h
        exact ih (Prod.ext rfl (Prod.mk.inj h).2)
      · rw [ensureNodes_file hchild htype] at h
        obtain rfl := Except.error.inj (Prod.mk.inj h).2
        nofun

/-- It fails exactly if a file stands in its way. -/
private theorem nodeAbove_iff (hdir : node.type = directoryType) :
    NodeAbove node parts ↔ ∃ made e, ensureNodes path true now parts node = (made, .error e) := by
  induction parts generalizing node with
  | nil =>
    refine iff_of_false ?_ fun ⟨_, _, h⟩ => nomatch h
    rintro ⟨q, n, hq, hpre, -⟩
    exact hq (List.prefix_nil.1 hpre)
  | cons part parts ih =>
    cases hchild : node.getChild part with
    | none =>
      have hnew : ∃ tree last, ensureNodes path true now parts (newDirectory now part) = (tree, .ok last) ∧
          last.children = [] := ensureNodes_newDirectory part
      obtain ⟨tree, last, hmade, -⟩ := hnew
      rw [ensureNodes_missing hchild, hmade]
      refine iff_of_false ?_ fun ⟨_, _, h⟩ => nomatch (Prod.mk.inj h).2
      rintro ⟨q, n, hq, hpre, hfound, -⟩
      obtain ⟨name, q, rfl⟩ := List.exists_cons_of_ne_nil hq
      obtain ⟨rfl, -⟩ := List.cons_prefix_cons.1 hpre
      rw [resolveNode, hchild] at hfound
      cases hfound
    | some child =>
      by_cases htype : child.type = directoryType
      · have hbelow : NodeAbove node (part :: parts) ↔ NodeAbove child parts := by
          constructor
          · rintro ⟨q, n, hq, hpre, hfound, hfile⟩
            obtain ⟨name, q, rfl⟩ := List.exists_cons_of_ne_nil hq
            obtain ⟨rfl, hinner⟩ := List.cons_prefix_cons.1 hpre
            rw [resolveNode_child hdir hchild] at hfound
            refine ⟨q, n, ?_, hinner, hfound, hfile⟩
            rintro rfl
            obtain rfl := Option.some.inj hfound
            exact hfile htype
          · rintro ⟨q, n, -, hpre, hfound, hfile⟩
            refine ⟨part :: q, n, List.cons_ne_nil _ _, List.cons_prefix_cons.2 ⟨rfl, hpre⟩, ?_, hfile⟩
            rw [resolveNode_child hdir hchild, hfound]
        rw [hbelow, ih htype, ensureNodes_directory hchild htype]
        constructor
        · rintro ⟨made, e, h⟩
          rw [h]
          exact ⟨_, e, rfl⟩
        · rintro ⟨made, e, h⟩
          exact ⟨_, e, Prod.ext rfl (Prod.mk.inj h).2⟩
      · rw [ensureNodes_file hchild htype]
        refine iff_of_true ⟨[part], child, List.cons_ne_nil _ _, List.prefix_append [part] parts, ?_, htype⟩ ⟨_, _, rfl⟩
        rw [resolveNode_child hdir hchild]
        rfl

/-- What is found at the path is what the last node has under the last part. -/
private theorem getChild_last (hdir : node.type = directoryType) (hparts : parts ≠ [])
    (hok : ensureNodes path true now parts.dropLast node = (made, .ok parent))
    (hfound : resolveNode parts node = some n) :
    parent.getChild (parts.getLast hparts) = some n := by
  induction parts generalizing node made with
  | nil => exact absurd rfl hparts
  | cons part parts ih =>
    cases hchild : node.getChild part with
    | none =>
      rw [resolveNode, hchild] at hfound
      cases hfound
    | some child =>
      rw [resolveNode_child hdir hchild] at hfound
      cases parts with
      | nil =>
        obtain rfl : node = parent := Except.ok.inj (Prod.mk.inj hok).2
        exact hchild.trans hfound
      | cons next parts =>
        rw [List.dropLast_cons_of_ne_nil (List.cons_ne_nil _ _)] at hok
        by_cases htype : child.type = directoryType
        · rw [ensureNodes_directory hchild htype] at hok
          rw [List.getLast_cons (List.cons_ne_nil _ _)]
          exact ih htype _ (Prod.ext rfl (Prod.mk.inj hok).2) hfound
        · rw [ensureNodes_file hchild htype] at hok
          cases (Prod.mk.inj hok).2

end Nodes

namespace JsonFileStorage

variable {s : JsonFileStorage} {now : Stamp} {path src dest : Text} {content : FileContent}

def Fails (s : JsonFileStorage) (result : JsonFileStorage × Option FileStorageError) : Prop :=
  FailsCleanly (result.1.root = s.root) (result.2.map .storage)

private theorem writeFile_iff (hdir : s.root.type = directoryType) : Fails s (s.writeFile now path content) ↔
    encodedLength? content.decoded ≠ none ∨ normalizeText path = [] ∨ NodeAbove s.root (normalizeText path).dropLast ∨
      ∃ n, resolveNode (normalizeText path) s.root = some n ∧ n.type = directoryType := by
  unfold writeFile
  dsimp only
  by_cases hparts : normalizeText path = []
  · rw [dif_pos hparts]
    exact iff_of_true (failsCleanly_storage rfl (fun h => by cases h)) (.inr (.inl hparts))
  · rw [dif_neg hparts]
    have habove : NodeAbove s.root (normalizeText path).dropLast ↔ ∃ made e, ensureNodes path true now
        (normalizeText path).dropLast s.root = (made, .error e) := nodeAbove_iff hdir
    cases hmade : ensureNodes path true now (normalizeText path).dropLast s.root with
    | mk made last =>
      cases last with
      | error e =>
        exact iff_of_true (failsCleanly_storage (ensureNodes_error hmade) (ensureNodes_class hmade))
          (.inr (.inr (.inl (habove.2 ⟨made, e, hmade⟩))))
      | ok parent =>
        have hclear : ¬NodeAbove s.root (normalizeText path).dropLast := by
          rw [habove, hmade]
          exact fun ⟨_, _, h⟩ => nomatch (Prod.mk.inj h).2
        -- what the failed call would need
        have hneeds : encodedLength? content.decoded = none →
            (∀ n, resolveNode (normalizeText path) s.root = some n → n.type ≠ directoryType) →
            ¬(encodedLength? content.decoded ≠ none ∨ normalizeText path = [] ∨
              NodeAbove s.root (normalizeText path).dropLast ∨
              ∃ n, resolveNode (normalizeText path) s.root = some n ∧ n.type = directoryType) := by
          rintro hnone hfile (h | h | h | ⟨n, hn, htype⟩)
          · exact h hnone
          · exact hparts h
          · exact hclear h
          · exact hfile n hn htype
        dsimp only
        split
        · next existing hexisting =>
          have hfound := resolveNode_last hdir hparts hmade hexisting
          split
          · next htype =>
            have hsame := ensureNodes_of_children hmade (List.ne_nil_of_mem (mem_of_getChild hexisting).1)
            exact iff_of_true (failsCleanly_storage hsame (fun h => by cases h))
              (.inr (.inr (.inr ⟨existing, hfound, htype⟩)))
          · next htype =>
            split
            · next hnone =>
              refine iff_of_false (not_failsCleanly fun h => h rfl) (hneeds hnone fun n hn => ?_)
              obtain rfl := Option.some.inj (hfound.symm.trans hn)
              exact htype
            · next size hsize =>
              exact iff_of_true failsCleanly_none (.inl (by rw [hsize]; exact Option.some_ne_none size))
        · next hmissing =>
          split
          · next hnone =>
            refine iff_of_false (not_failsCleanly fun h => h rfl) (hneeds hnone fun n hn => ?_)
            rw [getChild_last hdir hparts hmade hn] at hmissing
            cases hmissing
          · next size hsize =>
            exact iff_of_true failsCleanly_none (.inl (by rw [hsize]; exact Option.some_ne_none size))

private theorem mkdir_fails (s : JsonFileStorage) (now : Stamp) (path : Text) (recursive : Bool) :
    Fails s (s.mkdir now path recursive) := by
  unfold mkdir
  dsimp only
  split
  · exact failsCleanly_none
  · split
    · split
      · next root e hmade => exact failsCleanly_storage (ensureNodes_error hmade) (ensureNodes_class hmade)
      · exact failsCleanly_none
    · split
      · next root e hmade => exact failsCleanly_storage (ensureNodes_error hmade) (ensureNodes_class hmade)
      · next root parent hmade =>
        split
        · next existing hexisting =>
          have hsame := ensureNodes_of_children hmade (List.ne_nil_of_mem (mem_of_getChild hexisting).1)
          split
          · exact failsCleanly_none
          · exact failsCleanly_storage hsame (fun h => by cases h)
        · exact failsCleanly_none

private theorem remove_fails (s : JsonFileStorage) (path : Text) (recursive : Bool) :
    Fails s (s.remove path recursive) := by
  unfold remove
  dsimp only
  split
  · exact failsCleanly_storage rfl (fun h => by cases h)
  · split
    · exact failsCleanly_storage rfl (fun h => by cases h)
    · split
      · exact failsCleanly_storage rfl (fun h => by cases h)
      · exact failsCleanly_none

private theorem copy_fails (s : JsonFileStorage) (now : Stamp) (src dest : Text) : Fails s (s.copy now src dest) := by
  unfold copy
  dsimp only
  split
  · exact failsCleanly_storage rfl (fun h => by cases h)
  · split
    · exact failsCleanly_storage rfl (fun h => by cases h)
    · split
      · next root e hmade => exact failsCleanly_storage (ensureNodes_error hmade) (ensureNodes_class hmade)
      · exact failsCleanly_none

private theorem move_fails (s : JsonFileStorage) (now : Stamp) (src dest : Text) : Fails s (s.move now src dest) := by
  unfold move
  dsimp only
  split
  · exact failsCleanly_storage rfl (fun h => by cases h)
  · split
    · exact failsCleanly_storage rfl (fun h => by cases h)
    · split
      · exact failsCleanly_storage rfl (fun h => by cases h)
      · split
        · next root e hmade => exact failsCleanly_storage (ensureNodes_error hmade) (ensureNodes_class hmade)
        · exact failsCleanly_none

/-- The root is a directory, and so is the root of what was saved. -/
structure Rooted (s : JsonFileStorage) : Prop where
  root : s.root.type = directoryType
  saved : ∀ text, s.file = some text → ∃ tree : FileNode, tree.type = directoryType ∧ text = Json.dump tree.toDict

private theorem Rooted.with_root (h : Rooted s) {root : FileNode} (hroot : root.type = directoryType) :
    Rooted { s with root := root } := ⟨hroot, h.saved⟩

theorem Rooted.save {root : FileNode} (hroot : root.type = directoryType) :
    Rooted (JsonFileStorage.save { s with root := root }) :=
  ⟨hroot, fun _ htext => ⟨root, hroot, (Option.some.inj htext).symm⟩⟩

private theorem Rooted.ensured (h : Rooted s) {create : Bool} {parts : List Text} {root : FileNode}
    {last : Except FileStorageError FileNode} (hmade : ensureNodes path create now parts s.root = (root, last)) :
    root.type = directoryType := by
  have htype : (ensureNodes path create now parts s.root).1.type = s.root.type := ensureNodes_type parts s.root
  rw [hmade, h.root] at htype
  exact htype

private theorem altered_type {root : FileNode} {f : FileNode → FileNode} {parts : List Text}
    (hroot : root.type = directoryType)
    (hf : ∀ node : FileNode, (f node).type = node.type) : (alterAt f parts root).type = directoryType :=
  (alterAt_type hf parts root).trans hroot

/-- What is loaded of a saved tree has its type. -/
private theorem type_of_load {tree root : FileNode} {now : Text}
    (h : loadTree now (Json.dump tree.toDict) = some root) :
    root.type = Json.joinSurrogates tree.type := by
  rw [loadTree, Json.load_dump, Option.bind_some] at h
  obtain ⟨name, type, content, children, createdAt, modifiedAt, size⟩ := tree
  obtain ⟨k₁, k₂, k₃, k₄, k₅, k₆, k₇, k₈⟩ := join_keys
  simp only [FileNode.toDict, Json.join, Json.joinMembers, k₁, k₂, k₃, k₄, k₅, k₆, k₇, k₈] at h
  obtain ⟨nodes, -, hroot⟩ := Option.bind_eq_some_iff.1 (show (fromDicts now (Json.joinItems (toDicts children))).bind
    (fun nodes => some (FileNode.postInit now ⟨Json.joinSurrogates name, Json.joinSurrogates type,
      Json.joinSurrogates content, nodes, Json.joinSurrogates createdAt, Json.joinSurrogates modifiedAt, size⟩)) =
        some root from h)
  obtain rfl := Option.some.inj hroot
  unfold FileNode.postInit
  split <;> rfl

theorem Rooted.step {s' : JsonFileStorage} {a : JsonCall × Stamp} (h : Rooted s) (hst : jsonStep s a = some s') :
    Rooted s' := by
  obtain ⟨call, now⟩ := a
  cases call with
  | writeFile path content =>
    obtain rfl := Option.some.inj hst
    unfold writeFile
    dsimp only
    split
    · exact h
    · split
      · next root e hmade => exact h.with_root (h.ensured hmade)
      · next root parent hmade =>
        have hroot := h.ensured hmade
        split
        · split
          · exact h.with_root hroot
          · split
            · exact h.with_root (altered_type hroot fun _ => rfl)
            · exact .save (altered_type hroot fun _ => rfl)
        · split
          · exact h.with_root hroot
          · exact .save (altered_type hroot fun _ => rfl)
  | mkdir path recursive =>
    obtain rfl := Option.some.inj hst
    unfold mkdir
    dsimp only
    split
    · exact h
    · split
      · split
        · next root e hmade => exact h.with_root (h.ensured hmade)
        · next root parent hmade => exact .save (h.ensured hmade)
      · split
        · next root e hmade => exact h.with_root (h.ensured hmade)
        · next root parent hmade =>
          split
          · split
            · exact h.with_root (h.ensured hmade)
            · exact h.with_root (h.ensured hmade)
          · exact .save (altered_type (h.ensured hmade) fun _ => rfl)
  | remove path recursive =>
    obtain rfl := Option.some.inj hst
    unfold remove
    dsimp only
    split
    · exact h
    · split
      · exact h
      · split
        · exact h
        · exact .save (altered_type h.root fun _ => rfl)
  | copy src dest =>
    obtain rfl := Option.some.inj hst
    unfold copy
    dsimp only
    split
    · exact h
    · split
      · exact h
      · split
        · next root e hmade => exact h.with_root (h.ensured hmade)
        · next hparts root parent hmade => exact .save ((putNode_type _).trans (h.ensured hmade))
  | move src dest =>
    obtain rfl := Option.some.inj hst
    unfold move
    dsimp only
    split
    · exact h
    · split
      · exact h
      · split
        · exact h
        · split
          · next root e hmade => exact h.with_root (h.ensured hmade)
          · next root parent hmade =>
            refine .save ?_
            split
            · exact (putNode_type _).trans (h.ensured hmade)
            · exact altered_type ((putNode_type _).trans (h.ensured hmade)) fun _ => rfl
  | reopen =>
    have hreopen : s.reopen now = some s' := hst
    unfold reopen at hreopen
    split at hreopen
    · obtain rfl := Option.some.inj hreopen
      exact h.with_root rfl
    · next text hfile =>
      obtain ⟨root, hload, rfl⟩ := Option.map_eq_some_iff.1 hreopen
      obtain ⟨tree, htree, rfl⟩ := h.saved text hfile
      refine h.with_root ?_
      rw [type_of_load hload, htree]
      exact isJoined_types.1

theorem rooted_of_run {start : Stamp} {history : List (Move JsonFileStorage (JsonCall × Stamp))}
    (h : Run jsonStep (.start start) history s) : Rooted s := by
  refine h.invariant (I := Rooted) ⟨rfl, fun _ htext => nomatch htext⟩ ?_
  exact fun _ _ _ hs _ hst => hs.step hst

end JsonFileStorage

/-! ### Every call -/

/-- The condition of the in-memory provider: a text that is written can be encoded, or the call ends before; the root
is not removed or moved; and nothing is moved onto a directory above it with a copy that has its parent's name but not
its own. -/
def MemoryTree.Foreseen (root : MemoryTree) : FileCall → Prop
  | .writeFile path content =>
    content.encoded? ≠ none ∨ normalizeText path = [] ∨ FileAbove (node root).view (normalizeText path).dropLast
  | .remove path _ => normalizeText path ≠ []
  | .move src dest => normalizeText src ≠ [] ∧
    ∀ r, r ≠ [] → normalizeText dest ≠ [] → normalizeText src = normalizeText dest ++ r →
      (node root).view (normalizeText src ++ r.dropLast) ≠ none → (node root).view (normalizeText src ++ r) ≠ none
  | _ => True

/-- The condition of the JSON provider: what is written or streamed can be encoded, or the call ends before. -/
def JsonFileStorage.Foreseen (root : FileNode) : FileCall → Prop
  | .writeFile path content =>
    encodedLength? content.decoded ≠ none ∨ normalizeText path = [] ∨ NodeAbove root (normalizeText path).dropLast ∨
      ∃ n, resolveNode (normalizeText path) root = some n ∧ n.type = directoryType
  | .getDownloadStream path => ∀ n, resolveNode (normalizeText path) root = some n → n.type ≠ directoryType →
    encodedLength? n.content ≠ none
  | _ => True

private theorem encodedLength_bytes_ne_none (raw : List UInt8) :
    encodedLength? (FileContent.bytes raw).decoded ≠ none := by
  have hnone : (ofChars (Utf8.decode raw)).any isSurrogate = false := by
    rw [List.any_eq_false]
    intro c hc
    obtain ⟨a, -, rfl⟩ := List.mem_map.1 hc
    have hvalid := a.valid
    have hval : (Json.ofChar a).val = a.toNat := Nat.mod_eq_of_lt (by
      rcases hvalid with h | h
      · exact lt_trans h (by decide)
      · exact h.2)
    rw [isSurrogate, hval, Bool.and_eq_true, decide_eq_true_eq, decide_eq_true_eq]
    rintro ⟨hlow, hhigh⟩
    rcases hvalid with h | h
    · exact absurd h (Nat.not_lt.2 hlow)
    · exact absurd hhigh (Nat.not_lt.2 h.1)
  rw [encodedLength?, FileContent.decoded, hnone]
  exact Option.some_ne_none _

section Errors

variable {unchanged : Prop} (hsame : unchanged) (path : Text) (found : Option Bool)

include hsame

private theorem listError_fails : FailsCleanly unchanged ((listError path found).map .storage) := by
  rcases found with - | - | -
  · exact failsCleanly_storage hsame (fun h => by cases h)
  · exact failsCleanly_storage hsame (fun h => by cases h)
  · exact failsCleanly_none

private theorem readError_fails : FailsCleanly unchanged ((readError path found).map .storage) := by
  rcases found with - | - | -
  · exact failsCleanly_storage hsame (fun h => by cases h)
  · exact failsCleanly_none
  · exact failsCleanly_storage hsame (fun h => by cases h)

private theorem statError_fails : FailsCleanly unchanged ((statError path found).map .storage) := by
  cases found with
  | none => exact failsCleanly_storage hsame (fun h => by cases h)
  | some _ => exact failsCleanly_none

end Errors

private theorem MemoryTree.call_iff (root : MemoryTree) (call : FileCall) :
    Fails root (MemoryTree.call root call) ↔ Foreseen root call := by
  cases call with
  | list path => exact iff_of_true (listError_fails rfl path _) trivial
  | readFile path => exact iff_of_true (readError_fails rfl path _) trivial
  | writeFile path content => exact writeFile_iff
  | stat path => exact iff_of_true (statError_fails rfl path _) trivial
  | mkdir path recursive => exact iff_of_true (mkdir_fails root path recursive) trivial
  | remove path recursive => exact remove_iff
  | copy src dest => exact iff_of_true (copy_fails root src dest) trivial
  | move src dest => exact move_iff
  | exists_ path => exact iff_of_true failsCleanly_none trivial
  | getDownloadStream path => exact iff_of_true (readError_fails rfl path _) trivial
  | uploadFile path raw => exact iff_of_true (writeFile_iff.2 (.inl (Option.some_ne_none raw))) trivial

private theorem JsonFileStorage.call_iff {s : JsonFileStorage} (hdir : s.root.type = directoryType) (now : Stamp)
    (call : FileCall) :
    Fails s (s.call now call) ↔ Foreseen s.root call := by
  cases call with
  | list path => exact iff_of_true (listError_fails rfl path _) trivial
  | readFile path => exact iff_of_true (readError_fails rfl path _) trivial
  | writeFile path content => exact writeFile_iff hdir
  | stat path => exact iff_of_true (statError_fails rfl path _) trivial
  | mkdir path recursive => exact iff_of_true (mkdir_fails s now path recursive) trivial
  | remove path recursive => exact iff_of_true (remove_fails s path recursive) trivial
  | copy src dest => exact iff_of_true (copy_fails s now src dest) trivial
  | move src dest => exact iff_of_true (move_fails s now src dest) trivial
  | exists_ path => exact iff_of_true failsCleanly_none trivial
  | getDownloadStream path =>
    rw [JsonFileStorage.call, Foreseen]
    cases hfound : resolveNode (normalizeText path) s.root with
    | none => exact iff_of_true (failsCleanly_storage rfl (fun h => by cases h)) fun n hn => nomatch hn
    | some n =>
      dsimp only
      split
      · next htype =>
        refine iff_of_true (failsCleanly_storage rfl (fun h => by cases h)) fun n' hn hfile => ?_
        obtain rfl := Option.some.inj hn
        exact absurd htype hfile
      · next htype =>
        cases hlength : encodedLength? n.content with
        | none => exact iff_of_false (not_failsCleanly fun h => h rfl) fun h => h n rfl htype hlength
        | some size =>
          refine iff_of_true failsCleanly_none fun n' hn _ => ?_
          obtain rfl := Option.some.inj hn
          rw [hlength]
          exact Option.some_ne_none size
  | uploadFile path raw => exact iff_of_true ((writeFile_iff hdir).2 (.inl (encodedLength_bytes_ne_none raw))) trivial

/-- When a call that fails raises an error of the file providers and leaves the whole tree as it was: in every tree of
the in-memory provider, and in every tree that the calls of the JSON provider lead to. -/
theorem calls_fail_cleanly_iff {start : Stamp} {history : List (Move JsonFileStorage (JsonCall × Stamp))}
    {s : JsonFileStorage} (h : Run jsonStep (.start start) history s) :
    (∀ (root : MemoryTree) (call : FileCall), MemoryTree.Fails root (MemoryTree.call root call) ↔
      MemoryTree.Foreseen root call) ∧
    ∀ (now : Stamp) (call : FileCall), JsonFileStorage.Fails s (s.call now call) ↔
      JsonFileStorage.Foreseen s.root call :=
  ⟨MemoryTree.call_iff, JsonFileStorage.call_iff (JsonFileStorage.rooted_of_run h).root⟩

/-- A file is written in a directory, then something below the file. -/
theorem calls_fail_cleanly_iff_blocked : ∃ history s, Run jsonStep (.start someStamp) history s ∧
    (s.call someStamp (.writeFile (ofChars ['a', '/', 'b']) (.text [0xD800]))).2 =
      some (.notADirectory (ofChars ['a', '/', 'b'])) ∧
    JsonFileStorage.Fails s (s.call someStamp (.writeFile (ofChars ['a', '/', 'b']) (.text [0xD800]))) ∧
    MemoryTree.Fails [] (MemoryTree.call [] (.remove (ofChars ['a']) true)) := by
  have hexec : (exec jsonStep (.start someStamp)
      [(.writeFile (ofChars ['a']) (.text (ofChars ['h', 'i'])), someStamp)]).any
      (fun r => decide ((r.2.call someStamp (.writeFile (ofChars ['a', '/', 'b']) (.text [0xD800]))).2 =
          some (.notADirectory (ofChars ['a', '/', 'b'])) ∧
        (resolveNode [ofChars ['a']] r.2.root).any (fun n => n.type ≠ directoryType))) = true := by
    decide +kernel
  obtain ⟨⟨history, s⟩, hexec, hend⟩ := (Option.any_eq_true _ _).1 hexec
  obtain ⟨herror, hfile⟩ := of_decide_eq_true hend
  have hrun := run_of_exec hexec
  obtain ⟨hmemory, hjson⟩ := calls_fail_cleanly_iff hrun
  refine ⟨history, s, hrun, herror, (hjson someStamp _).2 ?_, (hmemory [] _).2 ?_⟩
  · obtain ⟨n, hn, htype⟩ := (Option.any_eq_true _ _).1 hfile
    refine .inr (.inr (.inl ⟨[ofChars ['a']], n, List.cons_ne_nil _ _, ?_, hn, of_decide_eq_true htype⟩))
    decide +kernel
  · show normalizeText (ofChars ['a']) ≠ []
    decide +kernel

/-- A text with a surrogate is written to a new directory, and the root is removed. -/
theorem surrogate_left_directory :
    (MemoryTree.call [] (.writeFile (ofChars ['d', '/', 'x']) (.text [0xD800]))).2 = some (.storage .unicodeEncode) ∧
    (node (MemoryTree.call [] (.writeFile (ofChars ['d', '/', 'x']) (.text [0xD800]))).1).view [ofChars ['d']] =
      some .node ∧
    (MemoryTree.call [] (.remove (ofChars ['/']) true)).2 = some .nameError ∧
    (((JsonFileStorage.start someStamp).call someStamp (.writeFile (ofChars ['d', '/', 'x']) (.text [0xD800]))).2 =
      some .unicodeEncode) ∧
    (resolveNode [ofChars ['d']] ((JsonFileStorage.start someStamp).call someStamp
      (.writeFile (ofChars ['d', '/', 'x']) (.text [0xD800]))).1.root).isSome = true ∧
    ¬ (∀ (root : MemoryTree) (call : FileCall), MemoryTree.Fails root (MemoryTree.call root call)) := by
  refine ⟨by decide +kernel, by decide +kernel, by decide +kernel, by decide +kernel, by decide +kernel, fun h => ?_⟩
  have hfails := (MemoryTree.call_iff [] _).1 (h [] (.remove (ofChars ['/']) true))
  exact hfails (by decide +kernel)

end CliServer
