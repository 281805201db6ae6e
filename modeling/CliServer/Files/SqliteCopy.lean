import CliServer.Files.Copies
import CliServer.Files.SqliteRuns

/-!
# The copies of the SQLite provider

`copy` writes a row at `dest` and then one for each row that `LIKE` finds.  Where it finds only what is below the source
(`CopyLikeExact`), `Sqlite.copyLaw_iff` says when the provider keeps the copy law; where a row that it finds comes to a
path at which nothing may be (`LikeStrays`), it does not.
-/

namespace CliServer

open NamedTree

namespace Sqlite

/-- The keys at which there are rows when `copy` looks for those below the source. -/
def Present (t : Table) (dest : Path) (k : Str) : Prop :=
  t.kindAt k ≠ none ∨ k ∈ directoryKeys [] (parentsOf dest) ∨ k = key dest

/-- `LIKE` is asked: the source is a directory, whose path is not too long. -/
def Asked (L : Like) (t : Table) (src : Path) : Prop :=
  t.view src = some .node ∧ L.refuses (below (key src)) = false

/-- Where it is asked, it finds only what is below the source. -/
def CopyLikeExact (L : Like) (t : Table) (src dest : Path) : Prop :=
  Asked L t src → ∀ k, Present t dest k → L.finds (below (key src)) k = true → src ≠ [] ∧ key src ++ ['/'] <+: k

/-- It is asked, and a row that it finds comes to a path at which nothing may be: below `dest`, where the source has
nothing, or elsewhere, where nothing was. -/
def LikeStrays (L : Like) (t : Table) (src dest : Path) : Prop :=
  Asked L t src ∧ ∃ k p, Present t dest k ∧ L.finds (below (key src)) k = true ∧
    key dest ++ k.drop (key src).length = key p ∧
    ((∃ x, p = dest ++ x ∧ t.view (src ++ x) = none) ∨
      (¬ dest <+: p ∧ ¬ (src <+: p ∧ src <+: dest) ∧ t.view p = none ∧ ¬ p <+: dest))

/-- What is copied takes the place of what was at `dest`.  Of the root, below which nothing is found, this needs that it
is empty. -/
structure CopiesCleanly (view : FileView Str) (src dest : Path) : Prop where
  /-- Every directory that is made is a parent of `dest`, and not in the source. -/
  parents : src ≠ [] → ∀ p, p ≠ [] → p <+: parentsOf dest → view p = none → p <+: dest ∧ ¬ src <+: p
  /-- Inside of a directory that is copied, `dest` is a directory already. -/
  inside : src ≠ [] → view src = some .node → src <+: dest → src = dest ∨ view dest = some .node
  /-- Below `dest` there is what is at the same place of the source, or it is replaced by that. -/
  covered : src ≠ [] → ∀ x, x ≠ [] →
    view (dest ++ x) = view (src ++ x) ∨ (view src = some .node ∧ view (src ++ x) ≠ none)
  root : src = [] → ∀ x, x ≠ [] → view x = none

variable {L : Like} {t t' : Table} {s d p : Path} {k : Str}

/-! ### An exact pattern -/

/-- A path is no longer than the longest key of the table. -/
private theorem exists_length_bound (t : Table) : ∃ n, ∀ p, t.view p ≠ none → p.length ≤ n := by
  refine ⟨(t.rows.map fun row => row.path.length).sum, fun p hp => ?_⟩
  obtain ⟨kind, hkind⟩ := Option.ne_none_iff_exists'.1 hp
  obtain ⟨row, hrow, -⟩ := Table.view_eq_some_iff.1 hkind
  obtain ⟨hmem, hpath⟩ := Table.mem_rows_of_select hrow
  have hkey : p.length ≤ (key p).length := by
    by_cases hnil : p = []
    · simp [hnil]
    · rw [key_of_ne_nil hnil]
      clear hrow hkind hpath hp hnil
      induction p with
      | nil => simp
      | cons n p ih =>
        simp only [List.length_cons, joined_cons, List.length_append]
        omega
  calc p.length ≤ (key p).length := hkey
    _ = row.path.length := by rw [hpath]
    _ ≤ _ := List.le_sum_of_mem (List.mem_map.2 ⟨row, hmem, rfl⟩)

/-- What is the same further down is nothing. -/
private theorem eq_none_of_repeats (hd : d ≠ []) (h : ∀ x, x ≠ [] → t.view (d ++ x) = t.view x) {x : Path}
    (hx : x ≠ []) :
    t.view x = none := by
  obtain ⟨n, hn⟩ := exists_length_bound t
  have hrepeat : ∀ m, ∃ y, y ≠ [] ∧ m ≤ y.length ∧ t.view y = t.view x := by
    intro m
    induction m with
    | zero => exact ⟨x, hx, Nat.zero_le _, rfl⟩
    | succ m ih =>
      obtain ⟨y, hy, hlen, hsame⟩ := ih
      refine ⟨d ++ y, by simp [hd], ?_, by rw [h y hy, hsame]⟩
      have hpos : 0 < d.length := List.length_pos_of_ne_nil hd
      rw [List.length_append]
      omega
  obtain ⟨y, -, hlen, hsame⟩ := hrepeat (n + 1)
  by_contra hthere
  have hbound := hn y (by rw [hsame]; exact hthere)
  omega

section Written

variable {view : FileView Str} {kind : Kind Str}

/-- Where nothing is written, there are the directories that were made. -/
private theorem copied_of_not_below (hp : ¬ d <+: p) : copied view s d kind p = withParents view (parentsOf d) p := by
  have hne : ∀ x, p ≠ d ++ x := fun x hx => hp ⟨x, hx.symm⟩
  have hpd : p ≠ d := by simpa using hne []
  unfold copied
  split
  · rw [overlay_of_not_below fun x _ => hne x, Function.update_of_ne hpd]
  · rw [Function.update_of_ne hpd]

private theorem copied_dest : copied view s d kind d = some kind := by
  unfold copied
  split
  · rw [overlay_of_not_below, Function.update_self]
    intro x hx heq
    exact hx (List.append_right_eq_self.1 heq.symm)
  · rw [Function.update_self]

/-- Below `dest` there is what is found below the source by then, and otherwise what was there. -/
private theorem copied_below (hd : d ≠ []) {x : Path} (hx : x ≠ []) : copied view s d kind (d ++ x) =
    if (kind = .node ∧ s ≠ []) ∧ Function.update (withParents view (parentsOf d)) d (some kind) (s ++ x) ≠ none
    then Function.update (withParents view (parentsOf d)) d (some kind) (s ++ x) else view (d ++ x) := by
  have hold : Function.update (withParents view (parentsOf d)) d (some kind) (d ++ x) = view (d ++ x) := by
    rw [Function.update_of_ne (fun h => hx (List.append_right_eq_self.1 h)),
      withParents_of_not_above (not_prefix_parentsOf hd x)]
  unfold copied
  split
  · next hnode =>
    rw [overlay_below hx, hold]
    exact if_congr (and_iff_right hnode).symm rfl rfl
  · next hnode => rw [hold, if_neg (fun h => hnode h.1)]

/-- What a parent that is made becomes. -/
private theorem withParents_missing (hp : p ≠ []) (hparent : p <+: parentsOf d) (hnone : view p = none) :
    withParents view (parentsOf d) p = some .node := by
  rw [withParents, if_pos ⟨hp, hparent, hnone⟩]

/-- When the outcome is a copy, of a source that is not the root. -/
private theorem copyLaw_copied_iff (hs : s ≠ []) (hd : d ≠ []) (hkind : view s = some kind)
    (hblocked : ¬ Blocked view (parentsOf d)) :
    CopyLaw view (copied view s d kind) false s d ↔ CopiesCleanly view s d := by
  have hsome : view s ≠ none := by
    rw [hkind]
    exact Option.some_ne_none _
  have hshort : ∀ p, p <+: parentsOf d → ¬ d <+: p := by
    intro p hprefix hbelow
    have hlen := (hbelow.trans hprefix).length_le
    have hlength := parentsOf_length hd
    omega
  rw [copyLaw_iff]
  constructor
  · rintro ⟨hcopied, hkept⟩
    have hinsource : ∀ p, p ≠ [] → p <+: parentsOf d → view p = none → ¬ s <+: p := by
      rintro p hp hprefix hnone ⟨x, rfl⟩
      have hx : x ≠ [] := by
        rintro rfl
        rw [List.append_nil] at hnone
        exact hsome hnone
      cases hcase : kind with
      | leaf v =>
        rw [hcase] at hkind
        exact hblocked ⟨s, v, hs, (List.prefix_append s x).trans hprefix, hkind⟩
      | node =>
        -- the directory that was made in the source comes along
        have hnew := hcopied x
        have hne : s ++ x ≠ d := by
          rintro rfl
          exact hshort _ hprefix (List.prefix_refl _)
        rw [copied_below hd hx, Function.update_of_ne hne, withParents_missing hp hprefix hnone,
          if_pos ⟨⟨hcase, hs⟩, Option.some_ne_none _⟩, hnone] at hnew
        cases hnew
    refine ⟨fun _ p hp hprefix hnone => ⟨?_, hinsource p hp hprefix hnone⟩, fun _ hnode habove => ?_,
      fun _ x hx => ?_, fun h => absurd h hs⟩
    · have hstays := hkept p (hshort p hprefix) (fun h => hinsource p hp hprefix hnone h.1)
      rw [copied_of_not_below (hshort p hprefix), withParents_missing hp hprefix hnone] at hstays
      rcases hstays with h | h
      · rw [hnone] at h
        cases h
      · exact h.2.1
    · by_cases heq : s = d
      · exact .inl heq
      · obtain ⟨r, rfl⟩ := habove
        have hr : r ≠ [] := by
          rintro rfl
          exact heq (List.append_nil s).symm
        obtain rfl : kind = .node := Option.some.inj (hkind.symm.trans hnode)
        have hdest := hcopied r
        rw [copied_below hd hr, Function.update_self, if_pos ⟨⟨rfl, hs⟩, Option.some_ne_none _⟩] at hdest
        exact .inr hdest.symm
    · have hplace := hcopied x
      rw [copied_below hd hx] at hplace
      split at hplace
      · next hfound =>
        right
        rw [hkind, hfound.1.1, ← hplace]
        exact ⟨rfl, hfound.2⟩
      · exact .inl hplace
  · intro hclean
    refine ⟨fun x => ?_, fun p hp _ => ?_⟩
    · by_cases hx : x = []
      · rw [hx, List.append_nil, List.append_nil, copied_dest, hkind]
      rw [copied_below hd hx]
      by_cases hdest : s ++ x = d
      · rw [hdest, Function.update_self]
        cases hcase : kind with
        | leaf v =>
          have hfile : ¬ ((Kind.leaf v = Kind.node ∧ s ≠ []) ∧ some (Kind.leaf v) ≠ none) := by simp
          rw [if_neg hfile, ← hdest]
          rcases hclean.covered hs x hx with h | ⟨hnode, -⟩
          · exact hdest ▸ h
          · rw [hkind, hcase] at hnode
            cases hnode
        | node =>
          rw [if_pos ⟨⟨rfl, hs⟩, Option.some_ne_none _⟩]
          rcases hclean.inside hs (by rw [hkind, hcase]) ⟨x, hdest⟩ with heq | hnode
          · rw [← hdest] at heq
            exact absurd (List.append_right_eq_self.1 heq.symm) hx
          · exact hnode.symm
      · have hsame : withParents view (parentsOf d) (s ++ x) = view (s ++ x) := by
          rw [withParents, if_neg]
          rintro ⟨hne, hprefix, hnone⟩
          exact (hclean.parents hs _ hne hprefix hnone).2 (List.prefix_append s x)
        rw [Function.update_of_ne hdest, hsame]
        split
        · rfl
        · next hfound =>
          rcases hclean.covered hs x hx with h | ⟨hnode, hthere⟩
          · exact h
          · refine absurd ⟨⟨?_, hs⟩, hthere⟩ hfound
            exact Option.some.inj (hkind.symm.trans hnode)
    · rw [copied_of_not_below hp, withParents]
      split
      · next hmade => exact .inr ⟨hmade.2.2, (hclean.parents hs p hmade.1 hmade.2.1 hmade.2.2).1, rfl⟩
      · exact .inl rfl

end Written

/-- When the outcome is a copy, of the root. -/
private theorem copyLaw_copied_root_iff {kind : Kind Str} (hd : d ≠ []) (hkind : t.view [] = some kind) :
    CopyLaw t.view (copied t.view [] d kind) false [] d ↔ CopiesCleanly t.view [] d := by
  have hplace : ∀ x, x ≠ [] → copied t.view [] d kind (d ++ x) = t.view (d ++ x) := by
    intro x hx
    rw [copied_below hd hx, if_neg (fun h => h.1.2 rfl)]
  rw [copyLaw_iff]
  constructor
  · rintro ⟨hcopied, -⟩
    refine ⟨fun h => absurd rfl h, fun h => absurd rfl h, fun h => absurd rfl h, fun _ x hx => ?_⟩
    refine eq_none_of_repeats hd (fun y hy => ?_) hx
    rw [← hplace y hy, hcopied y, List.nil_append]
  · intro hclean
    refine ⟨fun x => ?_, fun p _ hp => absurd ⟨List.nil_prefix, List.nil_prefix⟩ hp⟩
    by_cases hx : x = []
    · rw [hx, List.append_nil, List.append_nil, copied_dest, hkind]
    · rw [hplace x hx, List.nil_append, hclean.root rfl x hx, hclean.root rfl (d ++ x) (by simp [hx])]

/-! ### The rows that are written -/

private theorem present_of_replace (srcRow : Row) (destParent : Option Str)
    (hmade : Made t t' (directoryKeys [] (parentsOf d))) :
    (t'.replace (destRow (key d) destParent srcRow)).kindAt k ≠ none ↔ Present t d k := by
  have hdest : (destRow (key d) destParent srcRow).path = key d := rfl
  rw [Table.kindAt_replace, hdest, hmade.2, Present]
  by_cases hk : k = key d
  · simp [hk]
  · by_cases hmem : k ∈ directoryKeys [] (parentsOf d)
    · by_cases hnone : t.kindAt k = none <;> simp [hk, hmem, hnone]
    · simp [hk, hmem]

/-- What the rows that are written come to, where the pattern is exact. -/
private theorem view_copyRows {srcRow : Row} {destParent : Option Str} (hd : d ≠ [])
    (hmade : Made t t' (directoryKeys [] (parentsOf d)))
    (hlike : srcRow.type = .directory → ∀ k, Present t d k → L.finds (below (key s)) k = true →
      s ≠ [] ∧ key s ++ ['/'] <+: k) :
    (copyRows L t' (key s) (key d) destParent srcRow).view = copied t.view s d srcRow.kind := by
  have hwritten : (t'.replace (destRow (key d) destParent srcRow)).view =
      Function.update (withParents t.view (parentsOf d)) d (some srcRow.kind) := by
    rw [Table.view_replace rfl, hmade.view_eq]
    rfl
  by_cases hnode : srcRow.kind = .node ∧ s ≠ []
  · obtain ⟨hdir, hs⟩ := hnode
    have htype := Row.kind_eq_node_iff.1 hdir
    have hfound : ∀ k, (t'.replace (destRow (key d) destParent srcRow)).kindAt k ≠ none →
        L.finds (below (key s)) k = true → key s ++ ['/'] <+: k :=
      fun k hk hmatch => (hlike htype k ((present_of_replace srcRow destParent hmade).1 hk) hmatch).2
    obtain ⟨hout, hin⟩ := kindAt_copyRows L t' (key s) (key d) destParent srcRow hfound
    rw [copied, if_pos ⟨hdir, hs⟩, ← hwritten]
    funext q
    by_cases hq : ∃ x, x ≠ [] ∧ q = d ++ x
    · obtain ⟨x, hx, rfl⟩ := hq
      rw [overlay_below hx]
      obtain ⟨n, x, rfl⟩ := List.exists_cons_of_ne_nil hx
      have hkey : ∀ p : Path, p ≠ [] → key (p ++ n :: x) = key p ++ '/' :: (n.text ++ joined x) :=
        fun p hp => key_append hp (n :: x)
      have hplace := hin (n.text ++ joined x)
      rw [← hkey d hd, ← hkey s hs] at hplace
      simp only [htype, true_and] at hplace
      exact hplace
    · rw [overlay_of_not_below (fun x hx heq => hq ⟨x, hx, heq⟩)]
      refine hout (key q) ?_
      intro h
      obtain ⟨x, hx, hqx⟩ := (key_prefix_iff hd).1 h
      exact hq ⟨x, hx, hqx⟩
  · have hrows : copyRows L t' (key s) (key d) destParent srcRow = t'.replace (destRow (key d) destParent srcRow) := by
      by_cases hdir : srcRow.type = .directory
      · -- nothing is found below the root
        have hroot : s = [] := not_not.1 fun hs => hnode ⟨Row.kind_eq_node_iff.2 hdir, hs⟩
        have hnone : (t'.replace (destRow (key d) destParent srcRow)).rows.filter
            (fun row => L.finds (below (key s)) row.path) = [] := by
          rw [List.filter_eq_nil_iff]
          intro row hrow hmatch
          have hpresent : Present t d row.path := by
            rw [← present_of_replace srcRow destParent hmade,
              Table.kindAt_of_mem_rows hrow]
            exact Option.some_ne_none _
          exact (hlike hdir row.path hpresent hmatch).1 hroot
        simp only [copyRows, hdir, if_true, hnone, List.foldl_nil]
      · simp only [copyRows, hdir, if_false]
    rw [hrows, copied, if_neg hnode, hwritten]

/-- A row that is written somewhere stays, or is replaced. -/
private theorem kindAt_foldl_replace_ne_none (f : Row → Row) {l : List Row} {row : Row} (h : row ∈ l) (t : Table) :
    (l.foldl (fun t row => t.replace (f row)) t).kindAt (f row).path ≠ none := by
  induction l using List.reverseRecOn with
  | nil => cases h
  | append_singleton l last ih =>
    rw [List.foldl_append, List.foldl_cons, List.foldl_nil, Table.kindAt_replace]
    split
    · exact Option.some_ne_none _
    · next hne =>
      refine ih ((List.mem_append.1 h).resolve_right fun hlast => hne ?_)
      rw [List.mem_singleton.1 hlast]

/-- Where a row that is found comes to, something is afterwards. -/
private theorem view_copyRows_ne_none {srcRow : Row} (destParent : Option Str) (htype : srcRow.type = .directory)
    (hmade : Made t t' (directoryKeys [] (parentsOf d))) (hpresent : Present t d k)
    (hfound : L.finds (below (key s)) k = true) (hlanding : key d ++ k.drop (key s).length = key p) :
    (copyRows L t' (key s) (key d) destParent srcRow).view p ≠ none := by
  have hthere := (present_of_replace srcRow destParent hmade).2 hpresent
  obtain ⟨kind, hkind⟩ := Option.ne_none_iff_exists'.1 hthere
  obtain ⟨row, hrow, -⟩ := Option.map_eq_some_iff.1 hkind
  obtain ⟨hmem, rfl⟩ := Table.mem_rows_of_select hrow
  have hmatched : row ∈ (t'.replace (destRow (key d) destParent srcRow)).rows.filter
      (fun row => L.finds (below (key s)) row.path) := List.mem_filter.2 ⟨hmem, hfound⟩
  have hwritten := kindAt_foldl_replace_ne_none (descendantRow (key s) (key d)) hmatched
    (t'.replace (destRow (key d) destParent srcRow))
  simp only [copyRows, htype, if_true]
  rw [Table.view, ← hlanding]
  exact hwritten

/-! ### The whole copy -/

/-- A copy is refused, is stopped by a path that is too long, or writes its rows. -/
private theorem copyAt_ends (L : Like) (t : Table) (s d : Path) (src dest : Str) :
    (Refused t.view s d ∧ ∃ after e, copyAt L t (key s) (key d) src dest = (after, some e)) ∨
      ¬ Refused t.view s d ∧ ∃ srcRow t', t.view s = some srcRow.kind ∧
        Made t t' (directoryKeys [] (parentsOf d)) ∧
        ((srcRow.type = .directory ∧ L.refuses (below (key s)) = true ∧ ∃ after e,
            copyAt L t (key s) (key d) src dest = (after, some e)) ∨
          ¬ (srcRow.type = .directory ∧ L.refuses (below (key s)) = true) ∧
            copyAt L t (key s) (key d) src dest =
              (copyRows L t' (key s) (key d) (parentPath (key d)) srcRow, none)) := by
  by_cases hd : d = []
  · exact .inl ⟨.inl hd, t, _, by simp [copyAt, key_eq_slash_iff, hd]; rfl⟩
  cases hselect : t.select (key s) with
  | none =>
    exact .inl ⟨.inr (.inl (Table.view_eq_none_iff.2 hselect)), t, _,
      by simp [copyAt, key_eq_slash_iff, hd, hselect]; rfl⟩
  | some srcRow =>
    have hkind : t.view s = some srcRow.kind := Table.view_eq_some_iff.2 ⟨srcRow, hselect, rfl⟩
    rcases ensureParents_cases t (key d.dropLast) with
      ⟨t', hrun, hmade⟩ | ⟨t', e, p, n, rest, content, hparts, hrun, -, hleaf⟩
    · have hcopy := copyAt_eq L hd hselect hrun src dest
      simp only at hcopy
      refine .inr ⟨not_refused hd (by rw [hkind]; exact Option.some_ne_none _) hmade.not_blocked, srcRow, t', hkind,
        hmade, ?_⟩
      by_cases hlong : srcRow.type = .directory ∧ L.refuses (below (key s)) = true
      · rw [if_pos hlong] at hcopy
        exact .inl ⟨hlong.1, hlong.2, _, _, hcopy⟩
      · rw [if_neg hlong] at hcopy
        exact .inr ⟨hlong, hcopy⟩
    · refine .inl ⟨.inr (.inr ⟨p ++ [n], content, by simp, ⟨rest, ?_⟩, ?_⟩), t', e,
        copyAt_eq L hd hselect hrun src dest⟩
      · rw [parentsOf, hparts]
        simp
      · rw [Table.view, key_of_ne_nil (by simp)]
        exact hleaf

/-- A copy raises an error before it is done: it is refused, or `LIKE` refuses the path of a source directory. -/
def Raises (L : Like) (t : Table) (src dest : Path) : Prop :=
  Refused t.view src dest ∨ (t.view src = some .node ∧ L.refuses (below (key src)) = true)

/-- A copy that raises an error keeps the copy law, which is about the others. -/
theorem copyLaw_of_raises (L : Like) (src dest : Str) (h : Raises L t s d) :
    CopyLaw t.view (copyAt L t (key s) (key d) src dest).1.view (copyAt L t (key s) (key d) src dest).2.isSome s d := by
  rcases copyAt_ends L t s d src dest with
    ⟨-, after, e, hcopy⟩ | ⟨hrefused, srcRow, t', hkind, -, ⟨-, -, after, e, hcopy⟩ | ⟨hlong, -⟩⟩
  · rw [hcopy]
    exact CopyLaw.of_raised
  · rw [hcopy]
    exact CopyLaw.of_raised
  · obtain ⟨hnode, hrefuses⟩ := h.resolve_left hrefused
    exact absurd ⟨Row.kind_eq_node_iff.1 (Option.some.inj (hkind.symm.trans hnode)), hrefuses⟩ hlong

/-- When the SQLite provider keeps the copy law, where `LIKE` finds only what is below the source. -/
theorem copyLaw_iff (src dest : Str) (hlike : CopyLikeExact L t s d) :
    CopyLaw t.view (copyAt L t (key s) (key d) src dest).1.view (copyAt L t (key s) (key d) src dest).2.isSome s d ↔
      Raises L t s d ∨ CopiesCleanly t.view s d := by
  rcases copyAt_ends L t s d src dest with
    ⟨hrefused, after, e, hcopy⟩ | ⟨hrefused, srcRow, t', hkind, hmade, ⟨htype, hlong, after, e, hcopy⟩ | ⟨hlong, hcopy⟩⟩
  · rw [hcopy]
    exact iff_of_true CopyLaw.of_raised (.inl (.inl hrefused))
  · rw [hcopy]
    refine iff_of_true CopyLaw.of_raised (.inl (.inr ⟨?_, hlong⟩))
    rw [hkind, Row.kind_eq_node_iff.2 htype]
  · have hraises : ¬ Raises L t s d := by
      rintro (h | ⟨hnode, hrefuses⟩)
      · exact hrefused h
      · exact hlong ⟨Row.kind_eq_node_iff.1 (Option.some.inj (hkind.symm.trans hnode)), hrefuses⟩
    have hd : d ≠ [] := fun h => hrefused (.inl h)
    have hview : (copyRows L t' (key s) (key d) (parentPath (key d)) srcRow).view = copied t.view s d srcRow.kind := by
      refine view_copyRows hd hmade fun htype => hlike ⟨?_, ?_⟩
      · rw [hkind, Row.kind_eq_node_iff.2 htype]
      · rw [Bool.eq_false_iff]
        exact fun hrefuses => hlong ⟨htype, hrefuses⟩
    rw [hcopy, or_iff_right hraises, hview]
    by_cases hs : s = []
    · subst hs
      exact copyLaw_copied_root_iff hd hkind
    · exact copyLaw_copied_iff hs hd hkind hmade.not_blocked

/-- Where a row that `LIKE` finds comes to a path at which nothing may be, only a refused copy keeps the law. -/
theorem copyLaw_iff_of_likeStrays (src dest : Str) (hlike : LikeStrays L t s d) :
    CopyLaw t.view (copyAt L t (key s) (key d) src dest).1.view (copyAt L t (key s) (key d) src dest).2.isSome s d ↔
      Refused t.view s d := by
  obtain ⟨⟨hnode, hshort⟩, k, p, hpresent, hfound, hlanding, hstray⟩ := hlike
  rcases copyAt_ends L t s d src dest with
    ⟨hrefused, after, e, hcopy⟩ | ⟨hrefused, srcRow, t', hkind, hmade, ⟨-, hlong, -⟩ | ⟨-, hcopy⟩⟩
  · rw [hcopy]
    exact iff_of_true CopyLaw.of_raised hrefused
  · rw [hshort] at hlong
    cases hlong
  · refine iff_of_false ?_ hrefused
    have htype := Row.kind_eq_node_iff.1 (Option.some.inj (hkind.symm.trans hnode))
    have hthere := view_copyRows_ne_none (parentPath (key d)) htype hmade hpresent hfound hlanding
    rw [hcopy]
    intro hlaw
    obtain ⟨hcopied, hkept⟩ := CliServer.copyLaw_iff.1 hlaw
    rcases hstray with ⟨x, rfl, hnone⟩ | ⟨hbelow, hsource, hnone, habove⟩
    · exact hthere ((hcopied x).trans hnone)
    · rcases hkept p hbelow hsource with h | ⟨-, hparent, -⟩
      · exact hthere (h.trans hnone)
      · exact habove hparent

end Sqlite

end CliServer
