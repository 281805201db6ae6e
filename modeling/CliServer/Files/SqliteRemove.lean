import CliServer.Files.SqliteRuns

/-!
# What the SQLite provider removes

A recursive `remove` finds what is below a path by the pattern made of it, in which `%` and `_` are wildcards and the
case of ASCII letters does not count.  So it also deletes what is in a directory whose path is like the removed one,
and nothing else that it should keep (`remove_exact_iff`).  `LIKE` is here what it is documented to be, without SQLite's
reading of U+0000 and its limit on patterns.
-/

namespace CliServer

open Transition

namespace Sqlite

/-- The rows are those of places, and they are a tree. -/
structure TreeShaped (t : Table) : Prop where
  placed : ∀ row ∈ t.rows, ∃ p, row.Placed p
  tree : t.IsTree

/-- The path is `norm`, or `norm` with a slash and more after it. -/
def AtOrBelow (norm path : Str) : Prop := path = norm ∨ norm ++ ['/'] <+: path

/-- A recursive `remove` that ends without an error deletes the rows at and below the path, and one without `recursive`
deletes at most the row of the path. -/
structure RemovesExactly (t : Table) (path : Str) : Prop where
  recursive : ∀ t', remove .documented t path true = (t', none) →
    ∀ row, row ∈ t'.rows ↔ row ∈ t.rows ∧ ¬AtOrBelow (normalizeSql path) row.path
  single : ∀ row, (row ∈ (remove .documented t path false).1.rows → row ∈ t.rows) ∧
    (row ∈ t.rows → row.path ≠ normalizeSql path → row ∈ (remove .documented t path false).1.rows)

/-- Of the directories with something in them, those whose path is like the removed one are at or below it. -/
def NoneSimilar (t : Table) (path : Str) : Prop :=
  ∀ dir ∈ t.rows, dir.path ≠ ['/'] → (∃ child ∈ t.rows, child.parentPath = some dir.path) →
    like (normalizeSql path) dir.path = true → AtOrBelow (normalizeSql path) dir.path

variable {t : Table} {row : Row} {p q s : Path} {path : Str}

/-! ### Places -/

/-- There is a row at each place above that of a row. -/
theorem TreeShaped.above (h : TreeShaped t) (x : Path) (hrow : row ∈ t.rows) (hpath : row.path = key (q ++ x)) :
    ∃ dir ∈ t.rows, dir.path = key q := by
  induction x using List.reverseRecOn generalizing row with
  | nil => exact ⟨row, hrow, by rw [hpath, List.append_nil]⟩
  | append_singleton x n ih =>
    have hne : row.path ≠ ['/'] := by
      rw [hpath, Ne, key_eq_slash_iff]
      simp
    obtain ⟨parent, parentRow, hparent, hselect, -, -⟩ := h.tree.parent row hrow hne
    obtain ⟨hmem, hparentPath⟩ := Table.mem_rows_of_select hselect
    obtain ⟨p, hplace, -, hplaceParent⟩ := h.placed row hrow
    obtain rfl : p = q ++ (x ++ [n]) := key_injective (hplace.symm.trans hpath)
    rw [hparent, if_neg (by simp), ← List.append_assoc, List.dropLast_concat, Option.some_inj] at hplaceParent
    exact ih hmem (hparentPath.trans hplaceParent)

/-- What stands before a slash in the key of a path is the key of a path above it. -/
private theorem split_joined {u w : Str} (h : u ++ '/' :: w = joined p) :
    ∃ q n x, p = q ++ n :: x ∧ u = joined q := by
  induction p generalizing u with
  | nil => simp at h
  | cons n p ih =>
    cases u with
    | nil => exact ⟨[], n, p, rfl, rfl⟩
    | cons c u =>
      obtain ⟨rfl, htail⟩ := List.cons.inj h
      -- the slash is after the first name
      obtain ⟨v, rfl, hv⟩ : ∃ v, u = n.text ++ v ∧ v ++ '/' :: w = joined p := by
        rcases List.append_eq_append_iff.1 htail with ⟨a, ha, hrest⟩ | ⟨a, rfl, ha⟩
        · cases a with
          | nil => exact ⟨[], by simpa using ha.symm, hrest⟩
          | cons d a =>
            obtain ⟨rfl, -⟩ := List.cons.inj hrest
            exact absurd (by simp [ha]) n.no_slash
        · exact ⟨a, rfl, ha.symm⟩
      obtain ⟨q, m, x, rfl, rfl⟩ := ih hv
      exact ⟨n :: q, m, x, rfl, rfl⟩

/-! ### What `LIKE` finds -/

/-- The pattern of what is below a path finds what goes on, after something like the path, with a slash. -/
private theorem like_slash_iff {norm text : Str} :
    like (norm ++ ['/', '%']) text = true ↔ ∃ u w, like norm u = true ∧ text = u ++ '/' :: w := by
  rw [like_iff, mem_lang_likeRegex_append]
  constructor
  · rintro ⟨u, hu, v, hv, rfl⟩
    obtain ⟨a, ha, w, -, rfl⟩ := Regex.mem_lang_cat.1 hv
    obtain ⟨c, hc, rfl⟩ := Regex.mem_lang_set.1 ha
    have hslash : c = '/' := toLower_eq_slash (by simpa using hc)
    exact ⟨u, w, like_iff.2 hu, by rw [hslash]; rfl⟩
  · rintro ⟨u, w, hu, rfl⟩
    have hrest : like (['/'] ++ ['%']) (['/'] ++ w) = true := like_append ['/'] w
    exact ⟨u, like_iff.1 hu, '/' :: w, like_iff.1 hrest, rfl⟩

/-- A text has at least the slashes of a pattern it is like. -/
private theorem count_slash_le {pattern text : Str} (h : like pattern text = true) :
    pattern.count '/' ≤ text.count '/' := by
  rw [like_iff] at h
  induction pattern generalizing text with
  | nil =>
    obtain rfl : text = [] := h
    simp
  | cons c pattern ih =>
    by_cases hc : c = '/'
    · subst hc
      obtain ⟨a, ha, w, hw, rfl⟩ := Regex.mem_lang_cat.1 h
      obtain ⟨d, hd, rfl⟩ := Regex.mem_lang_set.1 ha
      obtain rfl : d = '/' := toLower_eq_slash (by simpa using hd)
      have hle := ih hw
      simpa using hle
    · obtain ⟨r, hr⟩ := likeRegex_cons c
      rw [hr] at h
      obtain ⟨a, -, w, hw, rfl⟩ := Regex.mem_lang_cat.1 h
      have hle := ih hw
      rw [List.count_cons_of_ne hc, List.count_append]
      omega

private theorem not_like_nil (hs : s ≠ []) : like (key s) [] = false := by
  rw [Bool.eq_false_iff]
  intro h
  have hle := count_slash_le h
  obtain ⟨n, x, rfl⟩ := List.exists_cons_of_ne_nil hs
  simp [key_of_ne_nil hs] at hle

/-! ### Removing -/

private theorem remove_recursive (hs : sqlParts path ≠ []) (hselect : t.select (normalizeSql path) = some row) :
    remove .documented t path true =
      (t.delete fun p => p = normalizeSql path || like (normalizeSql path ++ ['/', '%']) p, none) := by
  have hroot : normalizeSql path ≠ ['/'] := mt key_eq_slash_iff.1 hs
  simp [remove, removeAt, deleteTree, Like.documented, below, hroot, hselect]

/-- Without `recursive`, at most the row of the path goes. -/
private theorem remove_single (t : Table) (path : Str) (row : Row) :
    (row ∈ (remove .documented t path false).1.rows → row ∈ t.rows) ∧
      (row ∈ t.rows → row.path ≠ normalizeSql path → row ∈ (remove .documented t path false).1.rows) := by
  have hends : (remove .documented t path false).1 = t ∨
      (remove .documented t path false).1 = t.delete fun p => p = normalizeSql path := by
    simp only [remove, removeAt]
    split
    · exact .inl rfl
    · split
      · exact .inl rfl
      · split
        · exact .inl rfl
        · exact .inr rfl
  rcases hends with h | h
  · rw [h]
    exact ⟨id, fun hrow _ => hrow⟩
  · rw [h]
    simp only [Table.delete, List.mem_filter]
    exact ⟨fun hrow => hrow.1, fun hrow hne => ⟨hrow, by simp [hne]⟩⟩

/-- When a recursive `remove` deletes exactly what is at and below the path. -/
private theorem remove_recursive_iff (hs : sqlParts path ≠ []) (hselect : t.select (normalizeSql path) = some row) :
    (∀ t', remove .documented t path true = (t', none) →
        ∀ row, row ∈ t'.rows ↔ row ∈ t.rows ∧ ¬AtOrBelow (normalizeSql path) row.path) ↔
      ∀ row ∈ t.rows, like (normalizeSql path ++ ['/', '%']) row.path = true →
        AtOrBelow (normalizeSql path) row.path := by
  rw [remove_recursive hs hselect]
  have hdeleted : ∀ row : Row, row ∈ (t.delete fun p => p = normalizeSql path ||
      like (normalizeSql path ++ ['/', '%']) p).rows ↔ row ∈ t.rows ∧ ¬(row.path = normalizeSql path ∨
        like (normalizeSql path ++ ['/', '%']) row.path = true) := by
    intro row
    simp [Table.delete, List.mem_filter]
  constructor
  · intro h row hrow hlike
    by_contra hnot
    have hkept := (h _ rfl row).2 ⟨hrow, hnot⟩
    exact ((hdeleted row).1 hkept).2 (.inr hlike)
  · intro h t' ht' row
    obtain rfl := congrArg Prod.fst ht'
    rw [hdeleted]
    refine and_congr_right fun hrow => not_congr ⟨?_, ?_⟩
    · rintro (hself | hlike)
      · exact .inl hself
      · exact h row hrow hlike
    · rintro (hself | ⟨w, hw⟩)
      · exact .inl hself
      · right
        rw [← hw]
        have hbelow := like_append (normalizeSql path ++ ['/']) w
        rw [List.append_assoc] at hbelow
        exact hbelow

/-- In a tree, `LIKE` finds only what is below the path exactly if no other directory with something in it is like it.
-/
private theorem like_exact_iff (h : TreeShaped t) (hs : sqlParts path ≠ []) :
    (∀ row ∈ t.rows, like (normalizeSql path ++ ['/', '%']) row.path = true → AtOrBelow (normalizeSql path) row.path) ↔
      NoneSimilar t path := by
  unfold NoneSimilar normalizeSql
  generalize sqlParts path = s at hs
  constructor
  · intro hexact dir hdir hroot ⟨child, hchild, hparent⟩ hlike
    obtain ⟨q, hq, -, -⟩ := h.placed dir hdir
    have hne : q ≠ [] := fun hnil => hroot (by rw [hq, hnil]; rfl)
    -- the child is at a name in the directory
    obtain ⟨p, hp, -, hplace⟩ := h.placed child hchild
    have hpne : p ≠ [] := by
      rintro rfl
      rw [hparent, if_pos rfl] at hplace
      cases hplace
    obtain ⟨q', n, rfl⟩ := exists_last hpne
    rw [hparent, if_neg hpne, List.dropLast_concat, Option.some_inj, hq] at hplace
    obtain rfl := key_injective hplace
    rw [hq, key_of_ne_nil hne] at hlike ⊢
    have hchildPath : child.path = joined q ++ '/' :: n.text := by rw [hp, key_of_ne_nil hpne, joined_concat]
    rcases hexact child hchild (like_slash_iff.2 ⟨joined q, n.text, hlike, hchildPath⟩) with hself | hbelow
    · -- the removed path would have one slash more than what is like it
      have hle := count_slash_le hlike
      rw [← hself, hchildPath, List.count_append, List.count_cons_self] at hle
      omega
    · rw [hp, key_prefix_iff hs] at hbelow
      obtain ⟨x, hx, hsplit⟩ := hbelow
      obtain ⟨x, m, rfl⟩ := exists_last hx
      rw [← List.append_assoc] at hsplit
      obtain ⟨rfl, -⟩ := List.append_inj' hsplit rfl
      rw [← key_of_ne_nil hne]
      by_cases hx : x = []
      · exact .inl (by rw [hx, List.append_nil])
      · exact .inr ((key_prefix_iff hs).2 ⟨x, hx, rfl⟩)
  · intro hnone row hrow hlike
    obtain ⟨p, hp, -, -⟩ := h.placed row hrow
    have hpne : p ≠ [] := by
      rintro rfl
      obtain ⟨m, x, rfl⟩ := List.exists_cons_of_ne_nil hs
      rw [hp, show key [] = ['/'] from rfl, key_of_ne_nil hs, joined_cons, List.cons_append, not_like_root] at hlike
      cases hlike
    obtain ⟨u, w, hu, htext⟩ := like_slash_iff.1 hlike
    rw [hp, key_of_ne_nil hpne] at htext
    obtain ⟨q, n, x, rfl, rfl⟩ := split_joined htext.symm
    have hqne : q ≠ [] := by
      rintro rfl
      rw [joined_nil, not_like_nil hs] at hu
      cases hu
    -- what is like the path is a directory above the row
    obtain ⟨dir, hdir, hdirPath⟩ := h.above (n :: x) hrow hp
    obtain ⟨child, hchild, hchildPath⟩ := h.above (q := q ++ [n]) x hrow (by rw [hp]; simp)
    obtain ⟨c, hc, -, hplace⟩ := h.placed child hchild
    obtain rfl : c = q ++ [n] := key_injective (hc.symm.trans hchildPath)
    rw [if_neg (by simp), List.dropLast_concat, ← hdirPath] at hplace
    have hroot : dir.path ≠ ['/'] := by
      rw [hdirPath, Ne, key_eq_slash_iff]
      exact hqne
    have hsimilar : like (key s) dir.path = true := by
      rw [hdirPath, key_of_ne_nil hqne]
      exact hu
    have hrowPath : row.path = dir.path ++ '/' :: w := by
      rw [hp, key_of_ne_nil hpne, htext, hdirPath, key_of_ne_nil hqne]
    rcases hnone dir hdir hroot ⟨child, hchild, hplace⟩ hsimilar with hself | ⟨v, hv⟩
    · exact .inr ⟨w, by rw [hrowPath, hself]; simp⟩
    · exact .inr ⟨v ++ '/' :: w, by rw [hrowPath, ← hv]; simp⟩

/-- The table is tree-shaped in every run whose operations all keep it a tree. -/
private theorem treeShaped_of_run {history : List (Move Table FileOp)}
    (h : GuardedRun step (fun t op => Exact t.view op ∧ Keeps t.view op) initial history t) : TreeShaped t := by
  have hkept : t.Formed ∧ Closed t.view := by
    refine h.invariant (I := fun t => t.Formed ∧ Closed t.view) ⟨initial_formed, initial_closed⟩ ?_
    intro t op t' ⟨hformed, hclosed⟩ ⟨hexact, hkeeps⟩ hst
    obtain rfl := Option.some.inj hst
    have hleaves := run_leaves hformed hclosed op hexact
    exact ⟨hleaves.formed, hleaves.closed_iff.2 hkeeps⟩
  obtain ⟨hformed, hclosed⟩ := hkept
  exact ⟨fun row hrow => (hformed row hrow).placed, (hformed.isTree_iff hclosed.root).2 hclosed⟩

/-- When `remove` is exact, of a path at which there is something in a tree. -/
theorem remove_exact_iff (h : TreeShaped t) (hexists : ∃ row ∈ t.rows, row.path = normalizeSql path) :
    RemovesExactly t path ↔ NoneSimilar t path := by
  have hsplit : RemovesExactly t path ↔ ∀ t', remove .documented t path true = (t', none) →
      ∀ row, row ∈ t'.rows ↔ row ∈ t.rows ∧ ¬AtOrBelow (normalizeSql path) row.path :=
    ⟨fun hexact => hexact.recursive, fun hrecursive => ⟨hrecursive, remove_single t path⟩⟩
  rw [hsplit]
  by_cases hs : sqlParts path = []
  · -- the root is never removed, and no other path is like it
    have hroot : normalizeSql path = ['/'] := key_eq_slash_iff.2 hs
    constructor
    · intro _ dir _ hne _ hlike
      rw [hroot] at hlike
      obtain ⟨a, ha, w, hw, hdir⟩ := Regex.mem_lang_cat.1 (like_iff.1 hlike)
      obtain ⟨c, hc, rfl⟩ := Regex.mem_lang_set.1 ha
      obtain rfl : c = '/' := toLower_eq_slash (by simpa using hc)
      obtain rfl : w = [] := hw
      exact absurd hdir.symm hne
    · intro _ t' ht'
      simp [remove, removeAt, hroot] at ht'
  · obtain ⟨row, hrow, hpath⟩ := hexists
    have hselect : t.select (normalizeSql path) = some row := hpath ▸ Table.select_of_mem_rows hrow
    rw [remove_recursive_iff hs hselect, like_exact_iff h hs]

/-- A table with a file in `/ab`. -/
def written : Table := (provider.run initial (.writeFile "/ab/x".toList (.text "1".toList))).1

/-- The same with the empty directory `/a_`. -/
def similar : Table := (provider.run written (.mkdir "/a_".toList false)).1

private theorem similar_treeShaped : TreeShaped similar := by
  have hkept : ParentKept initial.view (sqlParts "/ab/x".toList) := by
    right
    decide +kernel
  have hwritten : GuardedRun step (fun t op => Exact t.view op ∧ Keeps t.view op) initial
      ([] ++ [⟨initial, .writeFile "/ab/x".toList (.text "1".toList), written⟩]) written :=
    .step .start ⟨trivial, .inr (.inr hkept)⟩ rfl
  have hsimilar : GuardedRun step (fun t op => Exact t.view op ∧ Keeps t.view op) initial
      ([] ++ [⟨initial, .writeFile "/ab/x".toList (.text "1".toList), written⟩] ++
        [⟨written, .mkdir "/a_".toList false, similar⟩]) similar := .step hwritten ⟨trivial, trivial⟩ rfl
  exact treeShaped_of_run hsimilar

theorem remove_exact_iff_similar :
    RemovesExactly similar "/ab".toList ∧ (remove .documented similar "/ab".toList true).2 = none := by
  have hexists : ∃ row ∈ similar.rows, row.path = normalizeSql "/ab".toList := by decide +kernel
  have hnone : NoneSimilar similar "/ab".toList := by
    have hlike : similar.rows.all (fun dir => !like (normalizeSql "/ab".toList) dir.path ||
        decide (dir.path = normalizeSql "/ab".toList)) = true := by decide +kernel
    intro dir hdir _ _ hsimilar
    have hdir' := List.all_eq_true.1 hlike dir hdir
    rw [hsimilar, Bool.not_true, Bool.false_or, decide_eq_true_eq] at hdir'
    exact .inl hdir'
  exact ⟨(remove_exact_iff similar_treeShaped hexists).2 hnone, by decide +kernel⟩

/-- Removing `/a_` removes `/ab/x` too. -/
theorem similar_removed : ∃ t path, TreeShaped t ∧ (∃ row ∈ t.rows, row.path = normalizeSql path) ∧
    ¬RemovesExactly t path := by
  refine ⟨similar, "/a_".toList, similar_treeShaped, by decide +kernel, fun hexact => ?_⟩
  have hends : (remove .documented similar "/a_".toList true).2 = none := by decide +kernel
  have hgone :
      ((remove .documented similar "/a_".toList true).1.rows.any fun row => row.path = "/ab/x".toList) = false := by
    decide +kernel
  obtain ⟨row, hrow, hpath⟩ : ∃ row ∈ similar.rows, row.path = "/ab/x".toList := by decide +kernel
  have hkept := (hexact.recursive _ (Prod.ext rfl hends) row).2
  have hnot : ¬AtOrBelow (normalizeSql "/a_".toList) row.path := by
    rw [hpath, AtOrBelow]
    decide +kernel
  rw [List.any_eq_false] at hgone
  exact hgone row (hkept ⟨hrow, hnot⟩) (decide_eq_true hpath)

end Sqlite

end CliServer
