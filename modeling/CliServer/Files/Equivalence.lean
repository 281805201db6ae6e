import CliServer.Files.TreeProviders
import CliServer.Lib.Simulation

/-!
# The providers are equivalent where they agree

The SQLite provider on a view, like the two trees, and all three side by side: in a run whose operations are all
`Agreed` they give the same outcomes.  Paths and contents are `Str`s, texts that can be encoded: SQLite raises an error
for any other.  U+0000 in a path, where SQLite's `LIKE` takes it to end, and paths that are too long for `LIKE` are not
left out; the interpreter's limits and errors of the disk are.
-/

namespace CliServer

open NamedTree Transition Simulation

namespace Sqlite

variable {t : Table} {view : FileView Str} {s d p q : Path} {path src dest : Str} {kind : Kind Str}

/-! ### Reading -/

private theorem entry_eq {row : Row} (h : row.Formed) : row.entry = kindEntry row.name row.kind := by
  have hsize := h.size
  have hpermissions := h.permissions
  unfold Row.entry Row.kind
  cases htype : row.type with
  | file =>
    rw [htype] at hsize hpermissions
    rw [hsize, hpermissions]
    rfl
  | directory =>
    rw [htype] at hsize hpermissions
    rw [hsize, hpermissions]
    rfl

/-- The rows of a parent are the listing of the directory. -/
private theorem isListing_rows (hformed : t.Formed) (d : Path) :
    IsListing t.view d (sortedEntries ((t.rows.filter fun row => row.parentPath = some (key d)).map Row.entry)) := by
  apply isListing_sortedEntries
  · rw [List.map_map]
    apply List.Nodup.of_map (childPath (key d))
    have hpaths : ((t.rows.filter fun row => row.parentPath = some (key d)).map (FileEntry.name ∘ Row.entry)).map
        (childPath (key d)) = (t.rows.filter fun row => row.parentPath = some (key d)).map Row.path := by
      rw [List.map_map]
      apply List.map_congr_left
      intro row hmem
      obtain ⟨hmem, hparent⟩ := List.mem_filter.1 hmem
      obtain ⟨n, hpath, hname⟩ := hformed.child_of_parent hmem (of_decide_eq_true hparent)
      show childPath (key d) row.name = row.path
      rw [hname, hpath, childPath_key]
    rw [hpaths]
    exact t.unique.sublist (List.filter_sublist.map Row.path)
  · intro entry
    rw [List.mem_map]
    constructor
    · rintro ⟨row, hmem, rfl⟩
      obtain ⟨hmem, hparent⟩ := List.mem_filter.1 hmem
      obtain ⟨n, hpath, hname⟩ := hformed.child_of_parent hmem (of_decide_eq_true hparent)
      exact ⟨n, row.kind, Table.view_ne_none_of_mem hmem hpath, by rw [entry_eq (hformed row hmem), hname]⟩
    · rintro ⟨n, kind, hkind, rfl⟩
      obtain ⟨row, hselect, rfl⟩ := Table.view_eq_some_iff.1 hkind
      obtain ⟨hmem, hname, hparent⟩ := hformed.parent_of_child hselect
      refine ⟨row, List.mem_filter.2 ⟨hmem, decide_eq_true hparent⟩, ?_⟩
      rw [entry_eq (hformed row hmem), hname]

private theorem list_eq (hformed : t.Formed) (hsame : SamePath path) : list t path = Common.list t.view path := by
  unfold list listAt Common.list normalizeSql
  rw [hsame]
  generalize sqlParts path = d
  cases hselect : t.select (key d) with
  | none => simp only [Table.view_eq_none_iff.2 hselect]
  | some row =>
    have hkind : t.view d = some row.kind := Table.view_eq_some_iff.2 ⟨row, hselect, rfl⟩
    rw [hkind]
    unfold Row.kind
    cases htype : row.type with
    | file => simp [htype]
    | directory => simp [htype, (isListing_rows hformed d).eq_listing]

private theorem readText_eq {α : Type} (f : Str → α) (hsame : SamePath path) :
    readText f t path = Common.read f t.view path := by
  unfold readText Common.read normalizeSql
  rw [hsame]
  generalize sqlParts path = d
  cases hselect : t.select (key d) with
  | none =>
    rw [Table.view_eq_none_iff.2 hselect]
  | some row =>
    have hkind : t.view d = some row.kind := Table.view_eq_some_iff.2 ⟨row, hselect, rfl⟩
    rw [hkind]
    unfold Row.kind
    cases htype : row.type with
    | file => simp [htype]
    | directory => simp [htype]

private theorem stat_eq (hformed : t.Formed) (hsame : SamePath path) : stat t path = Common.stat t.view path := by
  unfold stat statAt Common.stat normalizeSql
  rw [hsame]
  generalize sqlParts path = d
  cases hselect : t.select (key d) with
  | none =>
    rw [Table.view_eq_none_iff.2 hselect]
  | some row =>
    have hkind : t.view d = some row.kind := Table.view_eq_some_iff.2 ⟨row, hselect, rfl⟩
    have hrow := hformed row (Table.mem_rows_of_select hselect).1
    obtain ⟨-, hname, -⟩ := hformed.placed hselect
    rw [hkind]
    simp only
    rw [entry_eq hrow, hname]

theorem exists_eq (hsame : SamePath path) :
    (t.select (normalizeSql path)).isSome = (t.view (normalizePath path)).isSome := by
  rw [hsame]
  unfold Table.view Table.kindAt normalizeSql
  rw [Option.isSome_map]

/-! ### Changing -/

/-- The table answers what the view does, and then is a table of the view that this leaves. -/
def Matches (run : Table × Option FileError) (common : FileView Str × Option FileError) : Prop :=
  FileOutcome.ofOption run.2 = FileOutcome.ofOption common.2 ∧ run.1.Formed ∧ run.1.view = common.1

private theorem writeFile_matches (hformed : t.Formed) (hclosed : Closed t.view) (hsame : SamePath path)
    (hparents : SameParents (sqlParts path)) (content : Content) :
    Matches (writeFile t path content) (Common.writeFile t.view path content) := by
  have hcases := writeAt_cases hformed hclosed (sqlParts path) path content.decoded
  unfold writeFile normalizeSql Common.writeFile
  rw [hsame]
  generalize sqlParts path = d at hparents hcases ⊢
  rw [hparents] at hcases
  rcases hcases with ⟨hd, hrun⟩ | ⟨hd, hblocked, t', c, hrun, hformed', hview⟩ |
    ⟨hd, hblocked, hnode, t', hrun, hformed', hview⟩ | ⟨hd, hblocked, hnode, t', hrun, hformed', hview⟩
  · rw [hrun, if_pos hd]
    exact ⟨rfl, hformed, rfl⟩
  · simp only [hrun, if_neg hd, if_pos hblocked]
    exact ⟨rfl, hformed', hview⟩
  · simp only [hrun, if_neg hd, if_neg hblocked, if_pos hnode]
    refine ⟨rfl, hformed', ?_⟩
    have hparent := hclosed.dropLast hd (by rw [hnode]; exact Option.some_ne_none _)
    rw [hview, withParents_eq_self hclosed (by rw [hparent]; exact Option.some_ne_none _)]
  · simp only [hrun, if_neg hd, if_neg hblocked, if_neg hnode]
    exact ⟨rfl, hformed', hview⟩

private theorem mkdir_matches (hformed : t.Formed) (hclosed : Closed t.view) (hsame : SamePath path) (recursive : Bool)
    (hkey : recursive = true → sqlParts (key (sqlParts path)) = sqlParts path) :
    Matches (mkdir t path recursive) (Common.mkdir t.view path recursive) := by
  have hcases := mkdirAt_cases hformed hclosed (sqlParts path) path recursive
  unfold mkdir normalizeSql Common.mkdir
  rw [hsame]
  generalize sqlParts path = d at hkey hcases ⊢
  rcases hcases with ⟨hd, hrun⟩ | ⟨hd, hrecursive, hblocked, t', c, hrun, hformed', hview⟩ |
    ⟨hd, hrecursive, hblocked, t', hrun, hformed', hview⟩ | ⟨hd, hrecursive, hcases⟩
  · rw [hrun, if_pos hd]
    exact ⟨rfl, hformed, rfl⟩
  · rw [hkey hrecursive] at hblocked
    simp only [hrun, if_neg hd, if_pos hrecursive, if_pos hblocked]
    exact ⟨rfl, hformed', hview⟩
  · rw [hkey hrecursive] at hblocked hview
    simp only [hrun, if_neg hd, if_pos hrecursive, if_neg hblocked]
    exact ⟨rfl, hformed', hview⟩
  · have hnot : ¬recursive = true := by simp [hrecursive]
    simp only [if_neg hd, if_neg hnot]
    rcases hcases with ⟨hparent, hrun⟩ | ⟨v, hparent, hrun⟩ |
      ⟨hparent, ⟨v, hfile, hrun⟩ | ⟨hnode, hrun⟩ | ⟨hnone, t', hrun, hformed', hview⟩⟩
    · rw [hrun, hparent]
      exact ⟨rfl, hformed, rfl⟩
    · rw [hrun, hparent]
      exact ⟨rfl, hformed, rfl⟩
    · rw [hrun, hparent, hfile]
      exact ⟨rfl, hformed, rfl⟩
    · simp only [hrun, hparent, hnode]
      exact ⟨rfl, hformed, rfl⟩
    · simp only [hrun, hparent, hnone]
      exact ⟨rfl, hformed', hview⟩

private theorem remove_matches (hformed : t.Formed) (hclosed : Closed t.view) (hsame : SamePath path) (recursive : Bool)
    (hexact : recursive = true → t.view (sqlParts path) ≠ none →
      Patterned (sqlParts path) ∧ ∀ p, t.view p ≠ none → (Gone .sqlite (sqlParts path) p ↔ sqlParts path <+: p)) :
    Matches (remove .sqlite t path recursive) (Common.remove t.view path recursive) := by
  have hroot : t.view [] ≠ none := by rw [hclosed.root]; exact Option.some_ne_none _
  have hcases := removeAt_cases .sqlite hformed hroot (sqlParts path) path recursive
  unfold remove normalizeSql Common.remove
  rw [hsame]
  generalize sqlParts path = d at hexact hcases ⊢
  rcases hcases with ⟨hd, hrun⟩ | ⟨hd, hnone, hrun⟩ | ⟨hd, hnode, hrecursive, hchild, hrun⟩ |
    ⟨hd, hsome, hrecursive, hlong, hrun⟩ | ⟨hd, hsome, -, hallowed, t', hrun, hformed', hview⟩
  · rw [hrun, if_pos hd]
    exact ⟨rfl, hformed, rfl⟩
  · simp only [hrun, if_neg hd, if_pos hnone]
    exact ⟨rfl, hformed, rfl⟩
  · have hsome : t.view d ≠ none := by rw [hnode]; exact Option.some_ne_none _
    simp only [hrun, if_neg hd, if_neg hsome, if_pos (And.intro hnode (And.intro hrecursive hchild))]
    exact ⟨rfl, hformed, rfl⟩
  · rw [Patterned, hlong] at hexact
    exact nomatch (hexact hrecursive hsome).1
  · simp only [hrun, if_neg hd, if_neg hsome, if_neg hallowed]
    refine ⟨rfl, hformed', ?_⟩
    show t'.view = fun q => if d <+: q then none else t.view q
    rw [hview]
    split
    · next hrecursive =>
      funext q
      by_cases hq : t.view q = none
      · simp only [hq, ite_self]
      · simp only [(hexact hrecursive hsome).2 q hq]
    · next hrecursive =>
      -- nothing is in what is removed
      have hfree : ∀ x, x ≠ [] → t.view (d ++ x) = none := by
        intro x hx
        obtain ⟨n, x, rfl⟩ := List.exists_cons_of_ne_nil hx
        by_contra hthere
        have hnode := hclosed.above (by simp) hthere
        refine hallowed ⟨hnode, by simpa using hrecursive, n, ?_⟩
        exact hclosed.ne_none_above (q := d ++ n :: x) ⟨x, by simp⟩ hthere
      rw [← put_single_eq hfree]
      simp only [ite_self]

/-- What the rows of a copy leave at a path, where the source covers what is there, is what is put there. -/
private theorem copied_eq_put (hclosed : Closed view) (hd : d ≠ []) (hparents : SameParents d)
    (hkind : view s = some kind)
    (hnot : s <+: d → s = d) (hcovers : ∀ x, x ≠ [] → q = d ++ x → view (d ++ x) ≠ none → view (s ++ x) ≠ none) :
    copied view s d kind q = Common.put view s d q := by
  unfold copied Common.put
  rw [hparents]
  by_cases hq : d <+: q
  · obtain ⟨x, rfl⟩ := hq
    rw [if_pos (List.prefix_append d x), List.drop_left]
    by_cases hx : x = []
    · subst hx
      rw [List.append_nil, List.append_nil, hkind]
      split
      · rw [overlay_of_not_below fun x hx heq => hx (List.append_right_eq_self.1 heq.symm), Function.update_self]
      · rw [Function.update_self]
    · have hbelow : ∀ z, z ≠ [] →
          Function.update (withParents view d.dropLast) d (some kind) (d ++ z) = view (d ++ z) := by
        intro z hz
        have hne : d ++ z ≠ d := fun heq => hz (List.append_right_eq_self.1 heq)
        rw [Function.update_of_ne hne, withParents_of_not_above (not_prefix_dropLast hd z)]
      have hsource : Function.update (withParents view d.dropLast) d (some kind) (s ++ x) = view (s ++ x) := by
        have hne : s ++ x ≠ d := by
          intro heq
          have hself := hnot (heq ▸ List.prefix_append s x)
          rw [hself] at heq
          exact hx (List.append_right_eq_self.1 heq)
        rw [Function.update_of_ne hne, withParents_source hd hnot]
      have hcover := hcovers x hx rfl
      split
      · rw [overlay_below hx, hsource, hbelow x hx]
        split
        · rfl
        · next hnone =>
          rw [not_not] at hnone
          rw [hnone]
          by_contra hthere
          exact hcover hthere hnone
      · next hfile =>
        rw [hbelow x hx]
        have hs : s ≠ [] := by
          rintro rfl
          exact hd (hnot List.nil_prefix).symm
        have hnone : view (s ++ x) = none := by
          refine hclosed.below ?_ hx
          rw [hkind]
          intro hnode
          exact hfile ⟨Option.some.inj hnode, hs⟩
        rw [hnone]
        by_contra hthere
        exact hcover hthere hnone
  · have hne : q ≠ d := fun heq => hq (heq ▸ List.prefix_refl d)
    rw [if_neg hq]
    split
    · rw [overlay_of_not_below, Function.update_of_ne hne]
      rintro x - rfl
      exact hq (List.prefix_append d x)
    · rw [Function.update_of_ne hne]

private theorem copy_matches (hformed : t.Formed) (hclosed : Closed t.view) (hsrc : SamePath src)
    (hdest : SamePath dest)
    (hagreed : Transfers t.view (sqlParts src) (sqlParts dest) (CopyFits t.view (sqlParts src) (sqlParts dest))) :
    Matches (copy .sqlite t src dest) (Common.copy t.view src dest) := by
  have hcases := copyAt_cases .sqlite hformed hclosed (sqlParts src) (sqlParts dest) src dest
  unfold copy normalizeSql Common.copy
  rw [hsrc, hdest]
  generalize sqlParts src = s at hagreed hcases ⊢
  generalize sqlParts dest = d at hagreed hcases ⊢
  obtain ⟨hchecks, hmakes⟩ := hagreed
  rcases hcases with ⟨hd, hrun⟩ | ⟨hd, hnone, hrun⟩ | ⟨hd, hsome, hblocked, t', c, hrun, hformed', hview⟩ |
    ⟨hd, hblocked, hnode, hlong, -⟩ | ⟨hd, hblocked, kind, t', hkind, -, hrun, hresult⟩
  · have hsome : t.view s ≠ none := hchecks.resolve_right fun hne => hne hd
    simp only [hrun, if_neg hsome, if_pos hd]
    exact ⟨rfl, hformed, rfl⟩
  · simp only [hrun, if_pos hnone]
    exact ⟨rfl, hformed, rfl⟩
  · rw [(hmakes hsome hd).1] at hblocked
    simp only [hrun, if_neg hsome, if_neg hd, if_pos hblocked]
    exact ⟨rfl, hformed', hview⟩
  · -- no pattern that is asked is refused
    exfalso
    have hsome : t.view s ≠ none := by rw [hnode]; exact Option.some_ne_none _
    obtain ⟨hparents, hfits⟩ := hmakes hsome hd
    rw [hparents] at hblocked
    rcases hfits hblocked with ⟨rfl, -⟩ | ⟨-, hexact, -⟩
    · exact absurd (hlong.symm.trans Like.sqlite.refuses_root) (by decide)
    · exact absurd (hlong.symm.trans (hexact hnode).1) (by decide)
  · have hsome : t.view s ≠ none := by rw [hkind]; exact Option.some_ne_none _
    obtain ⟨hparents, hfits⟩ := hmakes hsome hd
    rw [hparents] at hblocked
    simp only [hrun, if_neg hsome, if_neg hd, if_neg hblocked]
    rcases hfits hblocked with ⟨rfl, hroot, hempty⟩ | ⟨hnot, hexact, hcovers⟩
    · -- an empty root: there is nothing but the new directory
      obtain rfl : kind = .node := Option.some.inj (hkind.symm.trans hclosed.root)
      obtain ⟨hformed', hview⟩ := hresult fun _ p _ hlike =>
        absurd (hlike.symm.trans (Like.sqlite.finds_root p)) (by decide)
      refine ⟨rfl, hformed', ?_⟩
      show t'.view = Common.put t.view [] d
      rw [hview]
      have hfree : ∀ x, x ≠ [] → t.view (d ++ x) = none := fun x _ => hempty (d ++ x) (by simp [hd])
      have hnew : ∀ x : Path, (if x = [] then some .node else none) = t.view ([] ++ x) := by
        intro x
        rw [List.nil_append]
        split
        · next hx => rw [hx, hclosed.root]
        · next hx => rw [hempty x hx]
      unfold copied Common.put
      rw [hparents, hroot, withParents_nil, if_neg fun h => h.2 rfl, ← put_single_eq hfree]
      simp only [hnew]
    · obtain ⟨hformed', hview⟩ := hresult fun hnode => (hexact (by rw [hkind, hnode])).2
      refine ⟨rfl, hformed', ?_⟩
      show t'.view = Common.put t.view s d
      rw [hview]
      funext q
      apply copied_eq_put hclosed hd hparents hkind hnot
      intro x hx _ hthere
      exact (hcovers x hx hthere).resolve_right id

private theorem move_matches (hformed : t.Formed) (hclosed : Closed t.view) (hsrc : SamePath src)
    (hdest : SamePath dest)
    (hs : sqlParts src ≠ [])
    (hagreed : Transfers t.view (sqlParts src) (sqlParts dest) (MoveFits t.view (sqlParts src) (sqlParts dest))) :
    Matches (move .sqlite t src dest) (Common.move t.view src dest) := by
  unfold Common.move
  rw [hsrc, hdest]
  simp only [if_neg hs]
  obtain ⟨hchecks, hmakes⟩ := hagreed
  by_cases hd : sqlParts dest = []
  · have hsome : t.view (sqlParts src) ≠ none := hchecks.resolve_right fun hne => hne hd
    have hrun : move .sqlite t src dest = (t, some (.isADirectory dest)) := by
      simp [move, moveAt, normalizeSql, key_eq_slash_iff, hs, hd]
    rw [hrun, if_neg hsome, if_pos hd]
    exact ⟨rfl, hformed, rfl⟩
  by_cases hnone : t.view (sqlParts src) = none
  · have hrun : move .sqlite t src dest = (t, some (.notFound src)) := by
      simp [move, moveAt, normalizeSql, key_eq_slash_iff, hs, hd, Table.view_eq_none_iff.1 hnone]
    rw [hrun, if_pos hnone]
    exact ⟨rfl, hformed, rfl⟩
  obtain ⟨hparents, hfits⟩ := hmakes hnone hd
  have hmove : move .sqlite t src dest = _ := moveAt_eq .sqlite hs hd hnone src dest
  rw [hmove, if_neg hnone, if_neg hd]
  rcases copyAt_cases .sqlite hformed hclosed (sqlParts src) (sqlParts dest) src dest with
    ⟨hroot, -⟩ | ⟨-, hmissing, -⟩ | ⟨-, -, hblocked, t', c, hrun, hformed', hview⟩ | ⟨-, hblocked, -, hlong, -⟩ |
    ⟨-, hblocked, kind, t', hkind, -, hrun, hresult⟩
  · exact absurd hroot hd
  · exact absurd hmissing hnone
  · rw [hparents] at hblocked
    rw [hrun, if_pos hblocked]
    exact ⟨rfl, hformed', hview⟩
  · rw [hparents] at hblocked
    exact absurd (hlong.symm.trans (hfits hblocked).1) (by decide)
  · rw [hparents] at hblocked
    obtain ⟨hpattern, hexact, hcovers, -⟩ := hfits hblocked
    rw [hrun, if_neg hblocked]
    have hcopyExact : CopyExact .sqlite t.view (sqlParts src) (sqlParts dest) := by
      intro p hp hlike
      refine hexact p ?_ hlike
      rcases hp with hp | hp | hp
      · exact .inl hp
      · exact .inr (.inl hp)
      · exact .inr (.inr (.inl hp))
    obtain ⟨hformed', hview⟩ := hresult fun _ => hcopyExact
    have hdelete : (deleteTree .sqlite t' (key (sqlParts src)) : Table × Option FileError) = (t'.delete _, none) :=
      if_neg fun h => absurd (h.1.symm.trans hpattern) (by decide)
    simp only [hdelete]
    refine ⟨rfl, hformed'.delete _, ?_⟩
    show _ = fun q => if sqlParts src <+: q then none else Common.put t.view (sqlParts src) (sqlParts dest) q
    rw [view_delete_gone, hview]
    generalize sqlParts src = s at *
    generalize sqlParts dest = d at *
    funext q
    by_cases hq : s <+: q
    · rw [if_pos hq, if_pos (gone_of_below .sqlite hs hq)]
    rw [if_neg hq]
    by_cases hbelow : s <+: d
    · -- nothing of the copy is left, and what is deleted besides was below the source
      have hqd : ¬d <+: q := fun h => hq (hbelow.trans h)
      have hput : Common.put t.view s d q = withParents t.view d.dropLast q := by
        unfold Common.put
        rw [if_neg hqd]
      have hsame : copied t.view s d kind q = withParents t.view d.dropLast q := by
        have hne : q ≠ d := fun heq => hqd (heq ▸ List.prefix_refl d)
        unfold copied
        rw [hparents]
        split
        · rw [overlay_of_not_below, Function.update_of_ne hne]
          rintro x - rfl
          exact hqd (List.prefix_append d x)
        · rw [Function.update_of_ne hne]
      rw [hsame, hput]
      split
      · next hgone =>
        by_contra hthere
        rcases hgone with rfl | hlike
        · exact hq (List.prefix_refl q)
        · have hp : t.view q ≠ none ∨ q = d ∨ q <+: parentsOf d ∨ ∃ x, q = d ++ x ∧ t.view (s ++ x) ≠ none := by
            rcases withParents_ne_none_iff.1 (Ne.symm hthere) with hmade | hold
            · exact .inr (.inr (.inl (by rw [hparents]; exact hmade.2)))
            · exact .inl hold
          obtain ⟨x, -, rfl⟩ := hexact q hp hlike
          exact hq (List.prefix_append s x)
      · rfl
    · have hnot : s <+: d → s = d := fun h => absurd h hbelow
      have hput : copied t.view s d kind q = Common.put t.view s d q := by
        apply copied_eq_put hclosed hd hparents hkind hnot
        rintro x hx rfl hthere
        exact (hcovers x hx hthere).resolve_right hq
      rw [← hput]
      split
      · next hgone =>
        by_contra hthere
        exact hq ((gone_iff hs hbelow hexact (Ne.symm hthere)).1 hgone)
      · rfl

end Sqlite

/-! ### Side by side -/

section Common

variable {view : FileView Str} {s d : Path}

private theorem Common.put_closed (h : Closed view) (hd : d ≠ []) (hblocked : ¬Blocked view d.dropLast) :
    Closed (put view s d) := by
  have hmade := h.withParents hblocked
  have hnot : ¬d <+: d.dropLast := by simpa using not_prefix_dropLast hd []
  refine ⟨?_, fun p n hsome => ?_⟩
  · unfold put
    rw [if_neg fun hroot => hd (List.prefix_nil.1 hroot), hmade.root]
  · unfold put at hsome ⊢
    by_cases hp : d <+: p
    · obtain ⟨x, rfl⟩ := hp
      rw [List.append_assoc, if_pos (List.prefix_append d _), List.drop_left, ← List.append_assoc] at hsome
      rw [if_pos (List.prefix_append d x), List.drop_left]
      exact h.parent _ n hsome
    · rw [if_neg hp]
      by_cases hlast : d <+: p ++ [n]
      · -- the new thing itself
        have hwhole : d = p ++ [n] := (List.prefix_concat_iff.1 hlast).resolve_right hp
        have hparent : d.dropLast = p := by rw [hwhole, List.dropLast_concat]
        rw [← hparent]
        exact parents_made h hblocked
      · rw [if_neg hlast] at hsome
        exact hmade.parent p n hsome

private theorem Common.write_closed (h : Closed view) (path : Str) (content : Content) :
    Closed (Common.writeFile view path content).1 := by
  unfold writeFile
  generalize normalizePath path = d
  simp only
  split
  · exact h
  · next hd =>
    split
    · exact h
    · next hblocked =>
      split
      · exact h
      · next hnode =>
        rw [closed_write_iff (h.withParents hblocked) hd]
        refine ⟨parents_made h hblocked, .inr fun z hz => ?_⟩
        rw [withParents_of_not_above (not_prefix_dropLast hd z), h.below hnode hz]

private theorem Common.mkdir_closed (h : Closed view) (path : Str) (recursive : Bool) :
    Closed (Common.mkdir view path recursive).1 := by
  unfold mkdir
  generalize normalizePath path = d
  simp only
  split
  · exact h
  · next hd =>
    split
    · split
      · exact h
      · next hblocked => exact h.withParents hblocked
    · split
      · exact h
      · exact h
      · next hparent =>
        split
        · exact h
        · exact h
        · rw [closed_write_iff h hd]
          exact ⟨hparent, .inl rfl⟩

private theorem Common.dropped_closed (h : Closed view) (hs : s ≠ []) :
    Closed fun q => if s <+: q then none else view q :=
  h.drop (s <+: ·) (fun hroot => hs (List.prefix_nil.1 hroot)) fun p n hp => hp.trans (List.prefix_append p [n])

private theorem Common.remove_closed (h : Closed view) (path : Str) (recursive : Bool) :
    Closed (Common.remove view path recursive).1 := by
  unfold remove
  generalize normalizePath path = d
  simp only
  split
  · exact h
  · next hd =>
    split
    · exact h
    · split
      · exact h
      · exact dropped_closed h hd

private theorem Common.copy_closed (h : Closed view) (src dest : Str) : Closed (Common.copy view src dest).1 := by
  unfold copy
  generalize normalizePath dest = d
  simp only
  split
  · exact h
  · split
    · exact h
    · next hd =>
      split
      · exact h
      · next hblocked => exact put_closed h hd hblocked

private theorem Common.move_closed (h : Closed view) (src dest : Str) : Closed (Common.move view src dest).1 := by
  unfold move
  generalize normalizePath src = s
  generalize normalizePath dest = d
  simp only
  split
  · exact h
  · next hs =>
    split
    · exact h
    · split
      · exact h
      · next hd =>
        split
        · exact h
        · next hblocked => exact dropped_closed (put_closed h hd hblocked) hs

end Common

namespace Sqlite

/-- The table is one of this view. -/
structure Keeping (t : Table) (view : FileView Str) : Prop where
  formed : t.Formed
  closed : Closed view
  view_eq : t.view = view

private theorem Matches.endsAlike {run : Table × Option FileError} {common : FileView Str × Option FileError}
    (h : Matches run common) (hclosed : Closed common.1) : EndsAlike Keeping run common :=
  ⟨h.1, h.2.1, hclosed, h.2.2⟩

theorem follows : Follows provider Keeping where
  list := by
    rintro t view path ⟨hformed, -, rfl⟩ hsame
    exact list_eq hformed hsame
  readFile := by
    rintro t view path ⟨-, -, rfl⟩ hsame
    exact readText_eq id hsame
  stat := by
    rintro t view path ⟨hformed, -, rfl⟩ hsame
    exact stat_eq hformed hsame
  exists_ := by
    rintro t view path ⟨-, -, rfl⟩ hsame
    exact exists_eq hsame
  getDownloadStream := by
    rintro t view path ⟨-, -, rfl⟩ hsame
    exact readText_eq (fun text => [Utf8.encode text]) hsame
  writeFile := by
    rintro t view path content ⟨hformed, hclosed, rfl⟩ ⟨hsame, hparents, -⟩
    exact (writeFile_matches hformed hclosed hsame hparents content).endsAlike (Common.write_closed hclosed path content)
  uploadFile := by
    rintro t view path content ⟨hformed, hclosed, rfl⟩ ⟨hsame, hparents, -⟩
    exact (writeFile_matches hformed hclosed hsame hparents _).endsAlike (Common.write_closed hclosed path _)
  mkdir := by
    rintro t view path recursive ⟨hformed, hclosed, rfl⟩ ⟨hsame, hclear⟩
    refine (mkdir_matches hformed hclosed hsame recursive fun hrecursive => ?_).endsAlike
      (Common.mkdir_closed hclosed path recursive)
    rw [if_pos hrecursive] at hclear
    exact hclear
  remove := by
    rintro t view path recursive ⟨hformed, hclosed, rfl⟩ ⟨hsame, -, hexact⟩
    exact (remove_matches hformed hclosed hsame recursive hexact).endsAlike (Common.remove_closed hclosed path recursive)
  copy := by
    rintro t view src dest ⟨hformed, hclosed, rfl⟩ ⟨hsrc, hdest, hagreed⟩
    exact (copy_matches hformed hclosed hsrc hdest hagreed).endsAlike (Common.copy_closed hclosed src dest)
  move := by
    rintro t view src dest ⟨hformed, hclosed, rfl⟩ ⟨hsrc, hdest, hs, hagreed⟩
    exact (move_matches hformed hclosed hsrc hdest hs hagreed).endsAlike (Common.move_closed hclosed src dest)

end Sqlite

/-- An empty tree stores the view of the new table. -/
private theorem stores_initial {γ : Type} {len : γ → Nat} (ofText : Str → γ) :
    StoresView ofText ([] : FileTree len) Sqlite.initial.view where
  distinct := distinct_empty
  view_eq p := by
    rw [Sqlite.initial_view]
    cases p with
    | nil => rfl
    | cons n p => rfl

/-- From empty storage, the three providers give the same outcomes, as long as nothing comes into play in which they
differ. -/
theorem providers_equivalent {ops : List FileOp}
    (h : Guarded Sqlite.provider.run (fun t op => Agreed t.view op) Sqlite.initial ops) :
    answers InMemory.provider.run [] ops = answers Sqlite.provider.run Sqlite.initial ops ∧
    answers JsonFile.provider.run ⟨[], none⟩ ops = answers Sqlite.provider.run Sqlite.initial ops := by
  have hinitial : Sqlite.Keeping Sqlite.initial Sqlite.initial.view :=
    ⟨Sqlite.initial_formed, Sqlite.initial_closed, rfl⟩
  have hguarded : Guarded Common.provider.run Agreed Sqlite.initial.view ops :=
    Sqlite.follows.simulates.guarded (fun t view op hkeeping hagreed => hkeeping.view_eq ▸ hagreed) hinitial h
  rw [Sqlite.follows.simulates.answers_eq hinitial hguarded]
  constructor
  · exact InMemory.follows.simulates.answers_eq (stores_initial _) hguarded
  · exact JsonFile.follows.simulates.answers_eq (stores_initial _) hguarded

theorem providers_equivalent_write :
    let ops := [FileOp.mkdir "/d".toList true, .writeFile "/d/x".toList (.text "1".toList), .list "/d".toList,
      .readFile "/d//x".toList, .remove "/d/x".toList false, .exists_ "/d/x".toList]
    answers InMemory.provider.run [] ops = answers Sqlite.provider.run Sqlite.initial ops ∧
      answers JsonFile.provider.run ⟨[], none⟩ ops = answers Sqlite.provider.run Sqlite.initial ops := by
  intro ops
  have hd : SamePath "/d".toList := by decide +kernel
  have hx : SamePath "/d/x".toList := by decide +kernel
  have hslashes : SamePath "/d//x".toList := by decide +kernel
  have hparents : SameParents (sqlParts "/d/x".toList) := by decide +kernel
  have hkey : sqlParts (key (sqlParts "/d".toList)) = sqlParts "/d".toList := by decide +kernel
  have hroot : sqlParts "/d/x".toList ≠ [] := by decide +kernel
  refine providers_equivalent ⟨⟨hd, hkey⟩, ⟨hx, hparents, rfl⟩, hd, hslashes, ⟨hx, hroot, ?_⟩, hx, trivial⟩
  intro hrecursive
  cases hrecursive

/-- A file is copied over a directory: in the SQLite provider, what was in the directory stays. -/
theorem copy_over_directory_differs :
    ∃ ops, answers InMemory.provider.run [] ops ≠ answers Sqlite.provider.run Sqlite.initial ops := by
  refine ⟨[.writeFile "/d/x".toList (.text "1".toList), .writeFile "/a".toList (.text "2".toList),
    .copy "/a".toList "/d".toList, .exists_ "/d/x".toList], ?_⟩
  decide +kernel

end CliServer
