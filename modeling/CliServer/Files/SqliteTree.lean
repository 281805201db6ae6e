import CliServer.Files.SqliteProvider
import CliServer.Files.Views
import CliServer.Lib.Transition

/-!
# The rows of the SQLite provider as a tree

`Table.IsTree` is said of the columns alone.  Rows that are `Formed` carry the path, the name and the parent of one
place, so that the table is a tree exactly if its view is closed (`isTree_iff`); each operation keeps the rows formed,
and the view it leaves is a view operation.  A path is a `Str`, without surrogates that stand alone.
-/

namespace CliServer

open NamedTree

/-- `parent_path` joined with `name`. -/
def childPath (parent name : Str) : Str := if parent = ['/'] then '/' :: name else parent ++ '/' :: name

/-- Every row but the root has a directory row as its parent, and its path is that of the parent joined with its name.
-/
structure Table.IsTree (t : Table) : Prop where
  unique : (t.rows.map Row.path).Nodup
  parent : ∀ row ∈ t.rows, row.path ≠ ['/'] → ∃ parent parentRow, row.parentPath = some parent ∧
    t.select parent = some parentRow ∧ parentRow.type = .directory ∧ row.path = childPath parent row.name

/-- The columns `path`, `name` and `parent_path` are those of one place. -/
def Row.Placed (row : Row) (p : Path) : Prop :=
  row.path = key p ∧ row.name = lastName p ∧ row.parentPath = if p = [] then none else some (key p.dropLast)

/-- The row is that of a place, and its size and permissions are those of what it holds. -/
structure Row.Formed (row : Row) : Prop where
  placed : ∃ p, row.Placed p
  size : row.size = match row.type with
    | .file => utf8Length (row.content.getD [])
    | .directory => 0
  permissions : row.permissions = some (permissionsOf row.type)

def Table.Formed (t : Table) : Prop := ∀ row ∈ t.rows, row.Formed

variable {L : Like} {t t' : Table} {p q s d : Path} {n : Name} {row : Row} {src dest : Str}

/-! ### Keys -/

theorem childPath_key (p : Path) (n : Name) : childPath (key p) n.text = key (p ++ [n]) := by
  unfold childPath
  by_cases hp : p = []
  · subst hp
    rw [if_pos (key_eq_slash_iff.2 rfl), key_of_ne_nil (by simp)]
    simp
  · rw [if_neg (mt key_eq_slash_iff.1 hp), key_append hp]
    simp

private theorem lastName_concat (p : Path) (n : Name) : lastName (p ++ [n]) = n.text := by simp [lastName]

private theorem lastName_append (p : Path) {x : Path} (hx : x ≠ []) : lastName (p ++ x) = lastName x := by
  obtain ⟨x, n, rfl⟩ := exists_last hx
  rw [← List.append_assoc, lastName_concat, lastName_concat]

/-- `path.rsplit("/", 1)[-1]` of a key. -/
private theorem baseName_key (hp : p ≠ []) : baseName (key p) = lastName p := by
  obtain ⟨q, n, rfl⟩ := exists_last hp
  rw [lastName_concat, key_of_ne_nil hp, joined_concat, baseName, List.rtakeWhile, List.reverse_append,
    List.reverse_cons, List.append_assoc, List.takeWhile_append_of_pos]
  · simp
  · intro c hc
    have hmem : c ∈ n.text := List.mem_reverse.1 hc
    rw [decide_eq_true_eq]
    rintro rfl
    exact n.no_slash hmem

/-! ### The view of the rows -/

theorem Table.view_eq_some_iff {kind : Kind Str} :
    t.view p = some kind ↔ ∃ row, t.select (key p) = some row ∧ row.kind = kind := Option.map_eq_some_iff

theorem Row.kind_eq_node_iff : row.kind = .node ↔ row.type = .directory := by
  unfold Row.kind
  cases row.type <;> simp

theorem Table.view_ne_none_of_mem (h : row ∈ t.rows) (hpath : row.path = key p) : t.view p = some row.kind := by
  rw [Table.view, ← hpath]
  exact Table.kindAt_of_mem_rows h

private theorem Table.view_eq_node_iff :
    t.view p = some .node ↔ ∃ row, t.select (key p) = some row ∧ row.type = .directory := by
  simp only [Table.view_eq_some_iff, Row.kind_eq_node_iff]

theorem Table.view_eq_none_iff : t.view p = none ↔ t.select (key p) = none := Option.map_eq_none_iff

theorem Table.Formed.placed (h : t.Formed) (hrow : t.select (key p) = some row) : row.Placed p := by
  obtain ⟨hmem, hpath⟩ := Table.mem_rows_of_select hrow
  obtain ⟨q, hq⟩ := (h row hmem).placed
  obtain rfl : q = p := key_injective (hq.1.symm.trans hpath)
  exact hq

/-- Formed rows are a tree exactly if their view is closed. -/
theorem Table.Formed.isTree_iff (h : t.Formed) (hroot : t.view [] = some .node) : t.IsTree ↔ Closed t.view := by
  constructor
  · intro htree
    refine ⟨hroot, fun p n hsome => ?_⟩
    obtain ⟨kind, hkind⟩ := Option.ne_none_iff_exists'.1 hsome
    obtain ⟨row, hselect, -⟩ := Table.view_eq_some_iff.1 hkind
    obtain ⟨hmem, hpath⟩ := Table.mem_rows_of_select hselect
    obtain ⟨-, -, hparentPath⟩ := h.placed hselect
    have hne : row.path ≠ ['/'] := by
      rw [hpath, Ne, key_eq_slash_iff]
      simp
    obtain ⟨parent, parentRow, hparent, hparentRow, htype, -⟩ := htree.parent row hmem hne
    rw [hparent, if_neg (by simp), List.dropLast_concat, Option.some_inj] at hparentPath
    rw [Table.view_eq_node_iff]
    exact ⟨parentRow, hparentPath ▸ hparentRow, htype⟩
  · intro hclosed
    refine ⟨t.unique, fun row hmem hne => ?_⟩
    obtain ⟨p, hpath, hname, hparent⟩ := (h row hmem).placed
    have hp : p ≠ [] := by
      intro hp
      rw [hpath, Ne, key_eq_slash_iff] at hne
      exact hne hp
    obtain ⟨q, n, rfl⟩ := exists_last hp
    have hnode : t.view q = some .node := by
      refine hclosed.parent q n ?_
      rw [Table.view_ne_none_of_mem hmem hpath]
      exact Option.some_ne_none _
    obtain ⟨parentRow, hselect, htype⟩ := Table.view_eq_node_iff.1 hnode
    rw [if_neg (by simp), List.dropLast_concat] at hparent
    refine ⟨key q, parentRow, hparent, hselect, htype, ?_⟩
    rw [hpath, hname, lastName_concat, childPath_key]

/-- A row with this parent is that of a name in the directory. -/
theorem Table.Formed.child_of_parent (h : t.Formed) (hmem : row ∈ t.rows) (hparent : row.parentPath = some (key d)) :
    ∃ n : Name, row.path = key (d ++ [n]) ∧ row.name = n.text := by
  obtain ⟨p, hpath, hname, hplace⟩ := (h row hmem).placed
  have hp : p ≠ [] := by
    rintro rfl
    rw [hparent, if_pos rfl] at hplace
    cases hplace
  obtain ⟨q, n, rfl⟩ := exists_last hp
  rw [hparent, if_neg hp, Option.some_inj, List.dropLast_concat] at hplace
  obtain rfl := key_injective hplace
  exact ⟨n, hpath, by rw [hname, lastName_concat]⟩

/-- The row of a name in a directory has that name and that parent. -/
theorem Table.Formed.parent_of_child (h : t.Formed) (hselect : t.select (key (d ++ [n])) = some row) :
    row ∈ t.rows ∧ row.name = n.text ∧ row.parentPath = some (key d) := by
  obtain ⟨-, hname, hparent⟩ := h.placed hselect
  rw [if_neg (by simp), List.dropLast_concat] at hparent
  rw [lastName_concat] at hname
  exact ⟨(Table.mem_rows_of_select hselect).1, hname, hparent⟩

/-- `exists`, `stat` and `list` agree on what there is. -/
theorem Table.queries_agree {τ : Type*} (hformed : t.Formed) (hclosed : Closed t.view) (p : Path) (path : τ) :
    ((t.select (key p)).isSome = true ↔ ∃ stat, Sqlite.statAt t (key p) path = .ok stat) ∧
    ∀ d n (dir : τ), p = d ++ [n] →
      (∀ stat, Sqlite.statAt t (key p) path = .ok stat →
        ∃ entries, Sqlite.listAt t (key d) dir = .ok entries ∧ stat ∈ entries ∧ stat.name = n.text) ∧
      ∀ entries, Sqlite.listAt t (key d) dir = .ok entries → (∃ entry ∈ entries, entry.name = n.text) →
        (t.select (key p)).isSome = true := by
  have hstat : ∀ stat, Sqlite.statAt t (key p) path = .ok stat ↔
      ∃ row, t.select (key p) = some row ∧ row.entry = stat := by
    intro stat
    unfold Sqlite.statAt
    cases t.select (key p) with
    | none => simp
    | some row => simp
  refine ⟨?_, fun d n dir hparts => ⟨?_, ?_⟩⟩
  · rw [Option.isSome_iff_exists]
    simp [hstat]
  · intro stat hok
    obtain ⟨row, hrow, rfl⟩ := (hstat stat).1 hok
    subst hparts
    obtain ⟨hmem, hname, hparent⟩ := hformed.parent_of_child hrow
    have hdir : t.view d = some .node := by
      refine hclosed.parent _ n (Option.ne_none_iff_exists'.2 ⟨row.kind, ?_⟩)
      exact Table.view_eq_some_iff.2 ⟨row, hrow, rfl⟩
    obtain ⟨dirRow, hselect, htype⟩ := Table.view_eq_node_iff.1 hdir
    have hlist : Sqlite.listAt t (key d) dir =
        .ok (sortedEntries ((t.rows.filter fun row => row.parentPath = some (key d)).map Row.entry)) := by
      unfold Sqlite.listAt
      simp only [hselect, htype, ne_eq, not_true_eq_false, if_false]
    refine ⟨_, hlist, ?_, ?_⟩
    · refine (List.mergeSort_perm _ _).mem_iff.2 (List.mem_map.2 ⟨row, ?_, rfl⟩)
      rw [List.mem_filter]
      exact ⟨hmem, decide_eq_true hparent⟩
    · exact hname
  · rintro entries hlist ⟨entry, hentry, hname⟩
    unfold Sqlite.listAt at hlist
    split at hlist
    · cases hlist
    · split at hlist
      · cases hlist
      · obtain rfl := Except.ok.inj hlist
        obtain ⟨row, hrow, rfl⟩ := List.mem_map.1 ((List.mergeSort_perm _ _).mem_iff.1 hentry)
        obtain ⟨hmem, hparent⟩ := List.mem_filter.1 hrow
        obtain ⟨m, hpath, hrowName⟩ := hformed.child_of_parent hmem (of_decide_eq_true hparent)
        have hm : m.text = n.text := hrowName.symm.trans hname
        obtain rfl : m = n := by
          cases m
          cases n
          cases hm
          rfl
        rw [hparts, ← hpath, Table.select_of_mem_rows hmem]
        rfl

/-! ### Statements -/

theorem Table.Formed.insert (h : t.Formed) (hrow : row.Formed) (hnew : row.path ∉ t.rows.map Row.path) :
    (t.insert row hnew).Formed := by
  intro r hr
  rcases List.mem_append.1 hr with hr | hr
  · exact h r hr
  · rw [List.mem_singleton.1 hr]
    exact hrow

theorem Table.Formed.delete (h : t.Formed) (matching : Str → Bool) : (t.delete matching).Formed :=
  fun r hr => h r (List.mem_filter.1 hr).1

theorem Table.Formed.replace (h : t.Formed) (hrow : row.Formed) : (t.replace row).Formed :=
  Table.Formed.insert (h.delete _) hrow _

private theorem Table.view_insert (hnew : row.path ∉ t.rows.map Row.path) (hpath : row.path = key p) :
    (t.insert row hnew).view = Function.update t.view p (some row.kind) := by
  funext q
  rw [Table.view, Table.kindAt_insert, hpath]
  by_cases hq : q = p
  · subst hq
    rw [if_pos rfl, Function.update_self]
  · rw [if_neg (fun heq => hq (key_injective heq)), Function.update_of_ne hq]
    rfl

theorem Table.view_replace (hpath : row.path = key p) :
    (t.replace row).view = Function.update t.view p (some row.kind) := by
  funext q
  rw [Table.view, Table.kindAt_replace, hpath]
  by_cases hq : q = p
  · subst hq
    rw [if_pos rfl, Function.update_self]
  · rw [if_neg (fun heq => hq (key_injective heq)), Function.update_of_ne hq]
    rfl

private theorem Table.view_delete (matching : Str → Bool) :
    (t.delete matching).view = fun q => if matching (key q) = true then none else t.view q := by
  funext q
  exact Table.kindAt_delete t matching (key q)

/-- `UPDATE` of the row of a place. -/
private theorem Table.view_update {f : Row → Row} (hf : ∀ row, (f row).path = row.path)
    (hselect : t.select (key p) = some row) :
    (t.update (key p) f hf).view = Function.update t.view p (some (f row).kind) := by
  funext q
  by_cases hq : q = p
  · subst hq
    rw [Function.update_self]
    exact Table.view_eq_some_iff.2 ⟨_, Table.select_update_self hf hselect, rfl⟩
  · rw [Function.update_of_ne hq]
    have hne : key q ≠ key p := fun heq => hq (key_injective heq)
    have hfind : (t.update (key p) f hf).select (key q) = t.select (key q) := by
      unfold Table.select Table.update
      rw [List.find?_map]
      have hpred : ((fun row : Row => decide (row.path = key q)) ∘ fun row => if row.path = key p then f row else row) =
          fun row => decide (row.path = key q) := by
        funext r
        simp only [Function.comp_apply]
        split
        · rw [hf]
        · rfl
      rw [hpred]
      cases hfound : t.rows.find? fun row => decide (row.path = key q) with
      | none => rfl
      | some r =>
        have hpath : r.path = key q := by simpa using List.find?_some hfound
        rw [Option.map_some, if_neg]
        rw [hpath]
        exact hne
    rw [Table.view, Table.view, Table.kindAt, Table.kindAt, hfind]

namespace Sqlite

/-! ### Making parents -/

private theorem directoryRow_formed (hp : p ≠ []) : (directoryRow (key p) (lastName p)).Formed where
  placed := ⟨p, rfl, rfl, by rw [directoryRow, parentPath_key hp, if_neg hp]⟩
  size := rfl
  permissions := rfl

theorem makeParents_formed (h : t.Formed) (current parts : Path) :
    (makeParents t (joined current) (parts.map Name.text)).1.Formed := by
  induction parts generalizing t current with
  | nil => exact h
  | cons part parts ih =>
    have hcurrent : joined current ++ '/' :: part.text = joined (current ++ [part]) := (joined_concat current part).symm
    simp only [List.map_cons, makeParents]
    split
    · split
      · exact h
      · rw [hcurrent]
        exact ih h (current ++ [part])
    · next hselect =>
      have hrow : (directoryRow (joined current ++ '/' :: part.text) part.text).Formed := by
        have hformed := directoryRow_formed (p := current ++ [part]) (by simp)
        rw [key_of_ne_nil (by simp), lastName_concat] at hformed
        rw [hcurrent]
        exact hformed
      have hinsert := h.insert hrow (Table.path_notMem_of_select hselect)
      generalize t.insert (directoryRow (joined current ++ '/' :: part.text) part.text)
        (Table.path_notMem_of_select hselect) = t₁ at hinsert
      rw [hcurrent]
      exact ih hinsert (current ++ [part])

theorem makeParents_error {current : Str} {parts : List Str} {e : FileError}
    (h : (makeParents t current parts).2 = some e) :
    ∃ c, e = .notADirectory c := by
  induction parts generalizing t current with
  | nil => cases h
  | cons part parts ih =>
    simp only [makeParents] at h
    split at h
    · split at h
      · exact ⟨_, (Option.some.inj h).symm⟩
      · exact ih h
    · exact ih h

/-- `_ensure_parents` makes the directories of the path it normalises to, unless a file is in the way. -/
private theorem ensureParents_tree (hformed : t.Formed) (hclosed : Closed t.view) (path : Str) :
    (∃ t', ensureParents t path = (t', none) ∧ t'.Formed ∧ ¬Blocked t.view (sqlParts path) ∧
      t'.view = withParents t.view (sqlParts path)) ∨
    ∃ t' c, ensureParents t path = (t', some (.notADirectory c)) ∧ t'.Formed ∧ Blocked t.view (sqlParts path) ∧
      t'.view = t.view := by
  have hkept : (ensureParents t path).1.Formed := by
    unfold ensureParents
    simp only
    split
    · exact hformed
    · next hroot =>
      have hparts : sqlParts path ≠ [] := mt key_eq_slash_iff.2 hroot
      rw [normalizeSql, split_key hparts]
      exact makeParents_formed hformed [] (sqlParts path)
  rcases ensureParents_cases t path with ⟨t', hrun, hmade⟩ | ⟨t', e, p, n, rest, content, hparts, hrun, hmade, hleaf⟩
  · rw [hrun] at hkept
    exact .inl ⟨t', hrun, hkept, hmade.not_blocked, hmade.view_eq⟩
  · rw [hrun] at hkept
    have hfile : t.view (p ++ [n]) = some (.leaf content) := by
      rw [Table.view, key_of_ne_nil (by simp)]
      exact hleaf
    have hthere : t.view p ≠ none := hclosed.ne_none_above (List.prefix_append p [n]) (by rw [hfile]; simp)
    obtain ⟨c, rfl⟩ : ∃ c, e = .notADirectory c := by
      have herror : (ensureParents t path).2 = some e := by rw [hrun]
      unfold ensureParents at herror
      simp only at herror
      split at herror
      · cases herror
      · exact makeParents_error herror
    refine .inr ⟨t', c, hrun, hkept, ?_, ?_⟩
    · refine ⟨p ++ [n], content, by simp, ?_, hfile⟩
      rw [hparts]
      exact ⟨rest, by simp⟩
    · rw [hmade.view_eq, withParents_eq_self hclosed hthere]

/-- A place is not above the directories that are made for it. -/
theorem not_prefix_parentsOf (hd : d ≠ []) (x : Path) : ¬d ++ x <+: parentsOf d := by
  intro h
  have hlen := h.length_le
  have hshort := parentsOf_length hd
  rw [List.length_append] at hlen
  omega

/-- The parent of a place is there once its parents were made, if it was there or was made as it is. -/
theorem parent_made_iff (hclosed : Closed t.view) (hblocked : ¬Blocked t.view (parentsOf d)) :
    withParents t.view (parentsOf d) d.dropLast = some .node ↔
      t.view d.dropLast = some .node ∨ parentsOf d = d.dropLast := by
  constructor
  · intro hnode
    unfold withParents at hnode
    split at hnode
    · next hmade =>
      right
      have hlen : (parentsOf d).length ≤ d.dropLast.length := (sqlParts_key d.dropLast).2
      exact (hmade.2.1.eq_of_length_le hlen).symm
    · exact .inl hnode
  · rintro (hnode | heq)
    · rw [withParents_ne_none (by rw [hnode]; exact Option.some_ne_none _), hnode]
    · rw [← heq]
      by_cases hroot : parentsOf d = []
      · rw [hroot, withParents_nil, hclosed.root]
      · exact withParents_node hblocked hroot (List.prefix_refl _)

/-! ### Writing -/

private theorem fileRow_formed (hd : d ≠ []) (text : Str) : (fileRow (key d) text (parentPath (key d))).Formed where
  placed := by
    refine ⟨d, rfl, baseName_key hd, ?_⟩
    rw [fileRow, parentPath_key hd, if_neg hd]
  size := rfl
  permissions := rfl

private theorem Row.formed_update (h : row.Formed) (htype : row.type = .file) (text : Str) :
    ({ row with content := some text, size := utf8Length text } : Row).Formed where
  placed := h.placed
  size := by
    show utf8Length text = _
    simp only [htype]
    rfl
  permissions := h.permissions

private theorem writeRow_cases (hformed : t.Formed) (hd : d ≠ []) (path text : Str) :
    (t.view d = some .node ∧ writeRow t path (key d) text = (t, some (.isADirectory path))) ∨
    (t.view d ≠ some .node ∧ ∃ t', writeRow t path (key d) text = (t', none) ∧ t'.Formed ∧
      t'.view = Function.update t.view d (some (.leaf text))) := by
  unfold writeRow
  split
  · next existing hselect =>
    have hkind : t.view d = some existing.kind := Table.view_eq_some_iff.2 ⟨existing, hselect, rfl⟩
    split
    · next htype =>
      refine .inl ⟨?_, rfl⟩
      rw [hkind, Row.kind_eq_node_iff.2 htype]
    · next htype =>
      have hfile : existing.type = .file := by
        cases hcase : existing.type with
        | file => rfl
        | directory => exact absurd hcase htype
      refine .inr ⟨?_, _, rfl, ?_, ?_⟩
      · rw [hkind, Ne, Option.some_inj, Row.kind_eq_node_iff]
        exact htype
      · intro row hrow
        obtain ⟨old, hold, rfl⟩ := List.mem_map.1 hrow
        split
        · next hpath =>
          have holdSelect := Table.select_of_mem_rows hold
          rw [hpath, hselect] at holdSelect
          obtain rfl := Option.some.inj holdSelect
          exact Row.formed_update (hformed _ hold) hfile text
        · exact hformed _ hold
      · rw [Table.view_update _ hselect]
        have hnew : Row.kind { existing with content := some text, size := utf8Length text } = .leaf text := by
          simp [Row.kind, hfile]
        rw [hnew]
  · next hselect =>
    have hnone : t.view d = none := Table.view_eq_none_iff.2 hselect
    refine .inr ⟨by simp [hnone], _, rfl, hformed.insert (fileRow_formed hd text) _, ?_⟩
    rw [Table.view_insert _ rfl]
    rfl

/-- How a write ends. -/
theorem writeAt_cases (hformed : t.Formed) (hclosed : Closed t.view) (d : Path) (path text : Str) :
    (d = [] ∧ writeAt t (key d) path text = (t, some (.isADirectory path))) ∨
    (d ≠ [] ∧ Blocked t.view (parentsOf d) ∧ ∃ t' c,
      writeAt t (key d) path text = (t', some (.notADirectory c)) ∧ t'.Formed ∧ t'.view = t.view) ∨
    (d ≠ [] ∧ ¬Blocked t.view (parentsOf d) ∧ t.view d = some .node ∧ ∃ t',
      writeAt t (key d) path text = (t', some (.isADirectory path)) ∧ t'.Formed ∧
      t'.view = withParents t.view (parentsOf d)) ∨
    (d ≠ [] ∧ ¬Blocked t.view (parentsOf d) ∧ t.view d ≠ some .node ∧ ∃ t',
      writeAt t (key d) path text = (t', none) ∧ t'.Formed ∧
      t'.view = Function.update (withParents t.view (parentsOf d)) d (some (.leaf text))) := by
  unfold writeAt
  by_cases hd : d = []
  · exact .inl ⟨hd, by simp [key_eq_slash_iff, hd]⟩
  right
  simp only [key_eq_slash_iff, if_neg hd, ensureParent_key t hd]
  rcases ensureParents_tree hformed hclosed (key d.dropLast) with
    ⟨made, hrun, hmade, hblocked, hview⟩ | ⟨made, c, hrun, hmade, hblocked, hview⟩
  · right
    have hsame : made.view d = t.view d := by
      have hnot : ¬d <+: parentsOf d := by simpa using not_prefix_parentsOf hd []
      rw [hview]
      exact withParents_of_not_above hnot
    rw [hrun]
    rcases writeRow_cases hmade hd path text with ⟨hnode, hwrite⟩ | ⟨hnode, t', hwrite, hformed', hview'⟩
    · rw [hsame] at hnode
      exact .inl ⟨hd, hblocked, hnode, made, hwrite, hmade, hview⟩
    · rw [hsame] at hnode
      rw [hview] at hview'
      exact .inr ⟨hd, hblocked, hnode, t', hwrite, hformed', hview'⟩
  · exact .inl ⟨hd, hblocked, made, c, by rw [hrun], hmade, hview⟩

/-! ### Directories -/

private theorem makeRow_cases (hformed : t.Formed) (hd : d ≠ []) (path : Str) :
    (∃ v, t.view d = some (.leaf v) ∧ makeRow t path (key d) = (t, some (.exists path))) ∨
    (t.view d = some .node ∧ makeRow t path (key d) = (t, none)) ∨
    (t.view d = none ∧ ∃ t', makeRow t path (key d) = (t', none) ∧ t'.Formed ∧
      t'.view = Function.update t.view d (some .node)) := by
  unfold makeRow
  split
  · next existing hselect =>
    have hkind : t.view d = some existing.kind := Table.view_eq_some_iff.2 ⟨existing, hselect, rfl⟩
    split
    · next htype =>
      have hfile : existing.type = .file := by
        cases hcase : existing.type with
        | file => rfl
        | directory => exact absurd hcase htype
      exact .inl ⟨existing.content.getD [], by rw [hkind, Row.kind, hfile], rfl⟩
    · next htype =>
      refine .inr (.inl ⟨?_, rfl⟩)
      rw [hkind, Row.kind_eq_node_iff.2 (not_not.1 htype)]
  · next hselect =>
    have hrow : (directoryRow (key d) (baseName (key d))).Formed := by
      rw [baseName_key hd]
      exact directoryRow_formed hd
    refine .inr (.inr ⟨Table.view_eq_none_iff.2 hselect, _, rfl, hformed.insert hrow _, ?_⟩)
    rw [Table.view_insert _ rfl]
    rfl

theorem checkParent_cases (t : Table) (path : Str) (hd : d ≠ []) :
    (t.view d.dropLast = none ∧ checkParent t path (parentPath (key d)) = some (.notFound path)) ∨
    (∃ v, t.view d.dropLast = some (.leaf v) ∧ checkParent t path (parentPath (key d)) = some (.notADirectory path)) ∨
    (t.view d.dropLast = some .node ∧ checkParent t path (parentPath (key d)) = none) := by
  rw [parentPath_key hd]
  simp only [checkParent, if_neg (key_ne_nil _)]
  cases hselect : t.select (key d.dropLast) with
  | none => exact .inl ⟨Table.view_eq_none_iff.2 hselect, rfl⟩
  | some row =>
    have hkind : t.view d.dropLast = some row.kind := Table.view_eq_some_iff.2 ⟨row, hselect, rfl⟩
    right
    cases htype : row.type with
    | file => exact .inl ⟨row.content.getD [], by rw [hkind, Row.kind, htype], by simp [htype]⟩
    | directory => exact .inr ⟨by rw [hkind, Row.kind, htype], by simp [htype]⟩

/-- How a `mkdir` ends. -/
theorem mkdirAt_cases (hformed : t.Formed) (hclosed : Closed t.view) (d : Path) (path : Str) (recursive : Bool) :
    (d = [] ∧ mkdirAt t (key d) path recursive = (t, none)) ∨
    (d ≠ [] ∧ recursive = true ∧ Blocked t.view (sqlParts (key d)) ∧ ∃ t' c,
      mkdirAt t (key d) path recursive = (t', some (.notADirectory c)) ∧ t'.Formed ∧ t'.view = t.view) ∨
    (d ≠ [] ∧ recursive = true ∧ ¬Blocked t.view (sqlParts (key d)) ∧ ∃ t',
      mkdirAt t (key d) path recursive = (t', none) ∧ t'.Formed ∧ t'.view = withParents t.view (sqlParts (key d))) ∨
    (d ≠ [] ∧ recursive = false ∧
      ((t.view d.dropLast = none ∧ mkdirAt t (key d) path recursive = (t, some (.notFound path))) ∨
      (∃ v, t.view d.dropLast = some (.leaf v) ∧ mkdirAt t (key d) path recursive = (t, some (.notADirectory path))) ∨
      (t.view d.dropLast = some .node ∧
        ((∃ v, t.view d = some (.leaf v) ∧ mkdirAt t (key d) path recursive = (t, some (.exists path))) ∨
        (t.view d = some .node ∧ mkdirAt t (key d) path recursive = (t, none)) ∨
        (t.view d = none ∧ ∃ t', mkdirAt t (key d) path recursive = (t', none) ∧ t'.Formed ∧
          t'.view = Function.update t.view d (some .node)))))) := by
  unfold mkdirAt
  by_cases hd : d = []
  · exact .inl ⟨hd, by simp [key_eq_slash_iff, hd]⟩
  right
  simp only [key_eq_slash_iff, if_neg hd]
  cases recursive with
  | true =>
    simp only [if_true, true_and]
    rcases ensureParents_tree hformed hclosed (key d) with
      ⟨made, hrun, hmade, hblocked, hview⟩ | ⟨made, c, hrun, hmade, hblocked, hview⟩
    · exact .inr (.inl ⟨hd, hblocked, made, hrun, hmade, hview⟩)
    · exact .inl ⟨hd, hblocked, made, c, hrun, hmade, hview⟩
  | false =>
    refine .inr (.inr ⟨hd, rfl, ?_⟩)
    simp only [Bool.false_eq_true, if_false]
    rcases checkParent_cases t path hd with ⟨hparent, hcheck⟩ | ⟨v, hparent, hcheck⟩ | ⟨hparent, hcheck⟩
    · exact .inl ⟨hparent, by rw [hcheck]⟩
    · exact .inr (.inl ⟨v, hparent, by rw [hcheck]⟩)
    · rw [hcheck]
      exact .inr (.inr ⟨hparent, makeRow_cases hformed hd path⟩)

/-! ### Removing -/

/-- The rows that the recursive `remove` and the end of `move` delete. -/
def Gone (L : Like) (d p : Path) : Prop := p = d ∨ L.finds (below (key d)) (key p) = true

instance (L : Like) (d : Path) : DecidablePred (Gone L d) := fun _ => inferInstanceAs (Decidable (_ ∨ _))

/-- Of what is there, the root is not deleted, and with a place all that is below it. -/
def GoneDown (L : Like) (view : FileView Str) (d : Path) : Prop :=
  ¬Gone L d [] ∧ ∀ p n, view (p ++ [n]) ≠ none → Gone L d p → Gone L d (p ++ [n])

/-- Deleting these rows leaves a tree. -/
theorem view_delete_gone (L : Like) (t : Table) (d : Path) :
    (t.delete fun path => path = key d || L.finds (below (key d)) path).view =
      fun q => if Gone L d q then none else t.view q := by
  rw [Table.view_delete]
  funext q
  have hiff : ((decide (key q = key d) || L.finds (below (key d)) (key q)) = true) ↔ Gone L d q := by
    rw [Bool.or_eq_true, decide_eq_true_eq, key_injective.eq_iff]
    rfl
  simp only [hiff]

/-- What is left is a tree exactly if with each place all that is below it goes. -/
theorem closed_gone_iff {view : FileView Str} (hclosed : Closed view) :
    Closed (fun q => if Gone L d q then none else view q) ↔ GoneDown L view d := by
  constructor
  · intro h
    refine ⟨fun hroot => ?_, fun p n hthere hgone => ?_⟩
    · have hnode := h.root
      rw [if_pos hroot] at hnode
      cases hnode
    · by_contra hstays
      have hparent := h.parent p n (by rw [if_neg hstays]; exact hthere)
      rw [if_pos hgone] at hparent
      cases hparent
  · rintro ⟨hroot, hdown⟩
    refine ⟨by rw [if_neg hroot, hclosed.root], fun p n hthere => ?_⟩
    have hstays : ¬Gone L d (p ++ [n]) := fun hgone => hthere (if_pos hgone)
    rw [if_neg hstays] at hthere
    rw [if_neg (fun hgone => hstays (hdown p n hthere hgone)), hclosed.parent p n hthere]

/-- With SQLite this is so for every path without U+0000. -/
theorem goneDown_sqlite (view : FileView Str) (hd : d ≠ []) (hnul : '\x00' ∉ key d) : GoneDown .sqlite view d := by
  have hroot : Like.sqlite.finds (below (key d)) ['/'] = false := by
    refine Like.sqlite_not_root hnul ?_
    obtain ⟨n, x, rfl⟩ := List.exists_cons_of_ne_nil hd
    rw [key_of_ne_nil hd]
    rfl
  refine ⟨?_, fun p n _ hgone => .inr ?_⟩
  · rintro (h | h)
    · exact hd h.symm
    · have hkey : key [] = ['/'] := rfl
      rw [hkey, hroot] at h
      cases h
  · rcases hgone with rfl | h
    · rw [key_append hd]
      exact Like.finds_below _ _ _
    · have hp : p ≠ [] := by
        rintro rfl
        have hkey : key [] = ['/'] := rfl
        rw [hkey, hroot] at h
        cases h
      rw [key_append hp]
      exact Like.sqlite_finds_below hnul h _

/-- How a deletion of a place and what is below it ends, where there is a root. -/
theorem deleteTree_cases (L : Like) (hformed : t.Formed) (hroot : t.view [] ≠ none) (hd : d ≠ []) :
    (L.refuses (below (key d)) = true ∧
      (deleteTree L t (key d) : Table × Option FileError) = (t, some .operational)) ∨
    (L.refuses (below (key d)) = false ∧ ∃ t', (deleteTree L t (key d) : Table × Option FileError) = (t', none) ∧
      t'.Formed ∧
      t'.view = fun q => if Gone L d q then none else t.view q) := by
  have hother : ∃ row ∈ t.rows, row.path ≠ key d :=
    exists_other_row_iff.2 ⟨key [], fun h => hd (key_injective h).symm, hroot⟩
  unfold deleteTree
  cases hlong : L.refuses (below (key d)) with
  | true => exact .inl ⟨rfl, if_pos ⟨rfl, hother⟩⟩
  | false => exact .inr ⟨rfl, _, if_neg (by simp), hformed.delete _, view_delete_gone L t d⟩

/-- How a `remove` ends. -/
theorem removeAt_cases (L : Like) (hformed : t.Formed) (hroot : t.view [] ≠ none) (d : Path) (path : Str)
    (recursive : Bool) :
    (d = [] ∧ removeAt L t (key d) path recursive = (t, some (.permission path))) ∨
    (d ≠ [] ∧ t.view d = none ∧ removeAt L t (key d) path recursive = (t, some (.notFound path))) ∨
    (d ≠ [] ∧ t.view d = some .node ∧ recursive = false ∧ (∃ n, t.view (d ++ [n]) ≠ none) ∧
      removeAt L t (key d) path recursive = (t, some (.notADirectory path))) ∨
    (d ≠ [] ∧ t.view d ≠ none ∧ recursive = true ∧ L.refuses (below (key d)) = true ∧
      removeAt L t (key d) path recursive = (t, some .operational)) ∨
    (d ≠ [] ∧ t.view d ≠ none ∧ (recursive = true → L.refuses (below (key d)) = false) ∧
      ¬(t.view d = some .node ∧ recursive = false ∧ ∃ n, t.view (d ++ [n]) ≠ none) ∧ ∃ t',
      removeAt L t (key d) path recursive = (t', none) ∧ t'.Formed ∧ t'.view =
        if recursive = true then fun q => if Gone L d q then none else t.view q
        else Function.update t.view d none) := by
  unfold removeAt
  by_cases hd : d = []
  · exact .inl ⟨hd, by simp [key_eq_slash_iff, hd]⟩
  right
  simp only [key_eq_slash_iff, if_neg hd]
  cases hselect : t.select (key d) with
  | none => exact .inl ⟨hd, Table.view_eq_none_iff.2 hselect, rfl⟩
  | some row =>
    right
    have hkind : t.view d = some row.kind := Table.view_eq_some_iff.2 ⟨row, hselect, rfl⟩
    have hnode : t.view d = some .node ↔ row.type = .directory := by
      rw [hkind, Option.some_inj, Row.kind_eq_node_iff]
    -- the rows with this parent are what stands in the directory
    have hchild : (t.rows.any fun row => decide (row.parentPath = some (key d))) = true ↔
        ∃ n, t.view (d ++ [n]) ≠ none := by
      rw [List.any_eq_true]
      constructor
      · rintro ⟨child, hmem, hparent⟩
        obtain ⟨n, hpath, -⟩ := hformed.child_of_parent hmem (of_decide_eq_true hparent)
        refine ⟨n, ?_⟩
        rw [Table.view_ne_none_of_mem hmem hpath]
        exact Option.some_ne_none _
      · rintro ⟨n, hn⟩
        obtain ⟨kind, hsome⟩ := Option.ne_none_iff_exists'.1 hn
        obtain ⟨child, hchild, -⟩ := Table.view_eq_some_iff.1 hsome
        obtain ⟨hmem, -, hparent⟩ := hformed.parent_of_child hchild
        exact ⟨child, hmem, decide_eq_true hparent⟩
    have hsome : t.view d ≠ none := by
      rw [hkind]
      exact Option.some_ne_none _
    simp only
    split
    · next hrefused =>
      exact .inl ⟨hd, hnode.2 hrefused.1, hrefused.2.1, hchild.1 hrefused.2.2, rfl⟩
    · next hrefused =>
      have hallowed : ¬(t.view d = some .node ∧ recursive = false ∧ ∃ n, t.view (d ++ [n]) ≠ none) := by
        rw [hnode, ← hchild]
        exact hrefused
      right
      cases recursive with
      | true =>
        rcases deleteTree_cases L hformed hroot hd with ⟨hlong, hrun⟩ | ⟨hshort, t', hrun, hformed', hview⟩
        · exact .inl ⟨hd, hsome, rfl, hlong, hrun⟩
        · exact .inr ⟨hd, hsome, fun _ => hshort, hallowed, t', hrun, hformed', hview⟩
      | false =>
        refine .inr ⟨hd, hsome, fun h => (nomatch h), hallowed, _, rfl, hformed.delete _, ?_⟩
        rw [Table.view_delete]
        funext q
        by_cases hq : q = d
        · simp [hq]
        · simp [hq, key_injective.eq_iff]

/-! ### Copying -/

/-- Of the rows there when a copy begins, `LIKE` finds only those below the source. -/
def CopyExact (L : Like) (view : FileView Str) (s d : Path) : Prop :=
  ∀ p, (view p ≠ none ∨ p = d ∨ p <+: parentsOf d) → L.finds (below (key s)) (key p) = true → ∃ x, x ≠ [] ∧ p = s ++ x

/-- The view after the rows of a copy were written. -/
def copied (view : FileView Str) (s d : Path) (kind : Kind Str) : FileView Str :=
  let written := Function.update (withParents view (parentsOf d)) d (some kind)
  if kind = .node ∧ s ≠ [] then overlay written s d else written

private theorem foldl_replace_formed (f : Row → Row) {l : List Row} (hl : ∀ row ∈ l, (f row).Formed) (h : t.Formed) :
    (l.foldl (fun t row => t.replace (f row)) t).Formed := by
  induction l generalizing t with
  | nil => exact h
  | cons row l ih =>
    exact ih (fun r hr => hl r (List.mem_cons_of_mem _ hr)) (h.replace (hl row List.mem_cons_self))

private theorem destRow_formed (hd : d ≠ []) {srcRow : Row} (hsrc : srcRow.Formed) :
    (destRow (key d) (parentPath (key d)) srcRow).Formed where
  placed := by
    refine ⟨d, rfl, baseName_key hd, ?_⟩
    rw [destRow, parentPath_key hd, if_neg hd]
  size := hsrc.size
  permissions := hsrc.permissions

/-- The copy of a row below the source. -/
private theorem descendantRow_formed (hs : s ≠ []) (hd : d ≠ []) {x : Path} (hx : x ≠ []) (hrow : row.Formed)
    (hpath : row.path = key (s ++ x)) : (descendantRow (key s) (key d) row).Formed := by
  have hnew : key d ++ row.path.drop (key s).length = key (d ++ x) := by
    rw [hpath, key_append hs, List.drop_left, key_append hd]
  have hplace : row.name = lastName (s ++ x) := by
    obtain ⟨p, hp⟩ := hrow.placed
    obtain rfl : p = s ++ x := key_injective (hp.1.symm.trans hpath)
    exact hp.2.1
  refine ⟨⟨d ++ x, hnew, ?_, ?_⟩, hrow.size, hrow.permissions⟩
  · show row.name = _
    rw [hplace, lastName_append s hx, lastName_append d hx]
  · have hdx : d ++ x ≠ [] := by simp [hx]
    rw [descendantRow, hnew, parentPath_key hdx, if_neg hdx]

/-- What a copy writes, where `LIKE` finds only what is below the source. -/
private theorem copyRows_tree (L : Like) (hformed : t.Formed) (hd : d ≠ []) {srcRow : Row} (hsrc : srcRow.Formed)
    (hlike : srcRow.type = .directory → ∀ p, Function.update t.view d (some srcRow.kind) p ≠ none →
      L.finds (below (key s)) (key p) = true → ∃ x, x ≠ [] ∧ p = s ++ x) :
    (copyRows L t (key s) (key d) (parentPath (key d)) srcRow).Formed ∧
    (copyRows L t (key s) (key d) (parentPath (key d)) srcRow).view =
      if srcRow.type = .directory ∧ s ≠ [] then overlay (Function.update t.view d (some srcRow.kind)) s d
      else Function.update t.view d (some srcRow.kind) := by
  have hreplaced : (t.replace (destRow (key d) (parentPath (key d)) srcRow)).Formed :=
    hformed.replace (destRow_formed hd hsrc)
  have hview : (t.replace (destRow (key d) (parentPath (key d)) srcRow)).view =
      Function.update t.view d (some srcRow.kind) := Table.view_replace rfl
  by_cases hdir : srcRow.type = .directory
  · by_cases hs : s = []
    · -- nothing is found below the root
      subst hs
      have hnone : (t.replace (destRow (key d) (parentPath (key d)) srcRow)).rows.filter
          (fun row => L.finds (below (key [])) row.path) = [] := by
        rw [List.filter_eq_nil_iff]
        intro row hrow
        obtain ⟨p, hp⟩ := (hreplaced row hrow).placed
        have hnone : L.finds (below (key [])) (key p) = false := L.finds_root p
        rw [hp.1, hnone]
        simp
      have hrows : copyRows L t (key []) (key d) (parentPath (key d)) srcRow =
          t.replace (destRow (key d) (parentPath (key d)) srcRow) := by
        simp only [copyRows, hdir, if_true, hnone, List.foldl_nil]
      rw [hrows]
      simp only [ne_eq, not_true_eq_false, and_false, if_false]
      exact ⟨hreplaced, hview⟩
    · simp only [hdir, hs, ne_eq, not_false_eq_true, and_self, if_true]
      have hkeys : ∀ k, (t.replace (destRow (key d) (parentPath (key d)) srcRow)).kindAt k ≠ none →
          L.finds (below (key s)) k = true → key s ++ ['/'] <+: k := by
        intro k hk hmatch
        obtain ⟨kind, hkind⟩ := Option.ne_none_iff_exists'.1 hk
        obtain ⟨row, hrow, -⟩ := Option.map_eq_some_iff.1 hkind
        obtain ⟨hmem, hpath⟩ := Table.mem_rows_of_select hrow
        obtain ⟨p, hp⟩ := (hreplaced row hmem).placed
        obtain rfl : k = key p := hpath.symm.trans hp.1
        refine (key_prefix_iff hs).2 (hlike hdir p ?_ hmatch)
        rw [← hview]
        exact hk
      constructor
      · simp only [copyRows, hdir, if_true]
        refine foldl_replace_formed _ (fun row hrow => ?_) hreplaced
        obtain ⟨hmem, hmatch⟩ := List.mem_filter.1 hrow
        obtain ⟨p, hp⟩ := (hreplaced row hmem).placed
        rw [hp.1] at hmatch
        obtain ⟨x, hx, rfl⟩ := hlike hdir p (by
          rw [← hview, Table.view_ne_none_of_mem hmem hp.1]
          exact Option.some_ne_none _) hmatch
        exact descendantRow_formed hs hd hx (hreplaced row hmem) hp.1
      · obtain ⟨hout, hin⟩ := kindAt_copyRows L t (key s) (key d) (parentPath (key d)) srcRow hkeys
        rw [← hview]
        funext q
        by_cases hq : ∃ x, x ≠ [] ∧ q = d ++ x
        · obtain ⟨x, hx, rfl⟩ := hq
          rw [overlay_below hx]
          obtain ⟨n, x, rfl⟩ := List.exists_cons_of_ne_nil hx
          have hkey : ∀ p : Path, p ≠ [] → key (p ++ n :: x) = key p ++ '/' :: (n.text ++ joined x) :=
            fun p hp => key_append hp (n :: x)
          have hplace := hin (n.text ++ joined x)
          rw [← hkey d hd, ← hkey s hs] at hplace
          simp only [hdir, true_and] at hplace
          exact hplace
        · rw [overlay_of_not_below (fun x hx heq => hq ⟨x, hx, heq⟩)]
          refine hout (key q) ?_
          intro h
          obtain ⟨x, hx, hqx⟩ := (key_prefix_iff hd).1 h
          exact hq ⟨x, hx, hqx⟩
  · have hrows : copyRows L t (key s) (key d) (parentPath (key d)) srcRow =
        t.replace (destRow (key d) (parentPath (key d)) srcRow) := by
      simp only [copyRows, hdir, if_false]
    rw [hrows]
    simp only [hdir, false_and, if_false]
    exact ⟨hreplaced, hview⟩

/-- A copy makes the parents of its destination; then the rows are written, unless that failed. -/
theorem copyAt_eq (L : Like) (hd : d ≠ []) {srcRow : Row} (hselect : t.select (key s) = some srcRow) {made : Table}
    {error : Option FileError} (hmade : ensureParents t (key d.dropLast) = (made, error)) (src dest : Str) :
    copyAt L t (key s) (key d) src dest = match error with
      | some e => (made, some e)
      | none =>
        if srcRow.type = .directory ∧ L.refuses (below (key s)) = true then
          (made.replace (destRow (key d) (parentPath (key d)) srcRow), some .operational)
        else (copyRows L made (key s) (key d) (parentPath (key d)) srcRow, none) := by
  simp only [copyAt, key_eq_slash_iff, if_neg hd, hselect, ensureParent_key t hd, hmade]
  cases error <;> rfl

/-- How a copy ends. -/
theorem copyAt_cases (L : Like) (hformed : t.Formed) (hclosed : Closed t.view) (s d : Path) (src dest : Str) :
    (d = [] ∧ copyAt L t (key s) (key d) src dest = (t, some (.isADirectory dest))) ∨
    (d ≠ [] ∧ t.view s = none ∧ copyAt L t (key s) (key d) src dest = (t, some (.notFound src))) ∨
    (d ≠ [] ∧ t.view s ≠ none ∧ Blocked t.view (parentsOf d) ∧ ∃ t' c,
      copyAt L t (key s) (key d) src dest = (t', some (.notADirectory c)) ∧ t'.Formed ∧ t'.view = t.view) ∨
    (d ≠ [] ∧ ¬Blocked t.view (parentsOf d) ∧ t.view s = some .node ∧ L.refuses (below (key s)) = true ∧ ∃ t',
      copyAt L t (key s) (key d) src dest = (t', some .operational) ∧ t'.Formed ∧
        t'.view = Function.update (withParents t.view (parentsOf d)) d (some .node)) ∨
    (d ≠ [] ∧ ¬Blocked t.view (parentsOf d) ∧ ∃ kind t', t.view s = some kind ∧
      (kind = .node → L.refuses (below (key s)) = false) ∧ copyAt L t (key s) (key d) src dest = (t', none) ∧
      ((kind = .node → CopyExact L t.view s d) → t'.Formed ∧ t'.view = copied t.view s d kind)) := by
  by_cases hd : d = []
  · exact .inl ⟨hd, by simp [copyAt, key_eq_slash_iff, hd]⟩
  right
  cases hselect : t.select (key s) with
  | none =>
    exact .inl ⟨hd, Table.view_eq_none_iff.2 hselect, by simp [copyAt, key_eq_slash_iff, hd, hselect]⟩
  | some srcRow =>
    right
    have hkind : t.view s = some srcRow.kind := Table.view_eq_some_iff.2 ⟨srcRow, hselect, rfl⟩
    have hsome : t.view s ≠ none := by
      rw [hkind]
      exact Option.some_ne_none _
    have hsrc : srcRow.Formed := hformed srcRow (Table.mem_rows_of_select hselect).1
    rcases ensureParents_tree hformed hclosed (key d.dropLast) with
      ⟨made, hrun, hmade, hblocked, hview⟩ | ⟨made, c, hrun, hmade, hblocked, hview⟩
    · right
      have hcopy := copyAt_eq L hd hselect hrun src dest
      simp only at hcopy
      have hparents : made.view = withParents t.view (parentsOf d) := hview
      by_cases hlong : srcRow.type = .directory ∧ L.refuses (below (key s)) = true
      · rw [if_pos hlong] at hcopy
        have hnode : srcRow.kind = .node := Row.kind_eq_node_iff.2 hlong.1
        refine .inl ⟨hd, hblocked, by rw [hkind, hnode], hlong.2, _, hcopy, hmade.replace (destRow_formed hd hsrc), ?_⟩
        rw [Table.view_replace rfl, hparents, ← hnode]
        rfl
      · rw [if_neg hlong] at hcopy
        refine .inr ⟨hd, hblocked, srcRow.kind, _, hkind, fun hnode => ?_, hcopy, fun hexact => ?_⟩
        · rw [Bool.eq_false_iff]
          exact fun hrefuses => hlong ⟨Row.kind_eq_node_iff.1 hnode, hrefuses⟩
        · have hresult := copyRows_tree (s := s) L hmade hd hsrc fun htype p hp hmatch => by
            refine hexact (Row.kind_eq_node_iff.2 htype) p ?_ hmatch
            by_cases hpd : p = d
            · exact .inr (.inl hpd)
            · rw [Function.update_of_ne hpd, hview] at hp
              rcases withParents_ne_none_iff.1 hp with hprefix | hthere
              · exact .inr (.inr hprefix.2)
              · exact .inl hthere
          refine ⟨hresult.1, ?_⟩
          rw [hresult.2, hparents, copied]
          simp only [Row.kind_eq_node_iff]
    · have hcopy := copyAt_eq L hd hselect hrun src dest
      exact .inl ⟨hd, hsome, hblocked, made, c, hcopy, hmade, hview⟩

/-- A move is a copy, after which the source is deleted. -/
theorem moveAt_eq (L : Like) (hs : s ≠ []) (hd : d ≠ []) (hsome : t.view s ≠ none) (src dest : Str) :
    moveAt L t (key s) (key d) src dest = match copyAt L t (key s) (key d) src dest with
      | (t, some e) => (t, some e)
      | (t, none) => deleteTree L t (key s) := by
  obtain ⟨kind, hkind⟩ := Option.ne_none_iff_exists'.1 hsome
  obtain ⟨row, hselect, -⟩ := Table.view_eq_some_iff.1 hkind
  unfold moveAt
  rcases copyAt L t (key s) (key d) src dest with ⟨made, _ | e⟩
  · simp [key_eq_slash_iff, hs, hd, hselect]
  · simp [key_eq_slash_iff, hs, hd, hselect]

end Sqlite

end CliServer
