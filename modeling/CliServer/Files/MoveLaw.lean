import CliServer.Files.JsonTrees
import CliServer.Files.SqliteTexts

/-!
# The move law

When the three providers keep the move law (`move_law_iff`), and the shortest way to lose a file.  Paths are Python's
texts, with a surrogate that stands alone too; what SQLite's `LIKE` makes of U+0000 and of long patterns is part of the
condition.  The interpreter's limits (a tree that is nested too deep to be copied) and errors of the disk are left out.
-/

namespace CliServer

open Json (Text ofChars)
open NamedTree Transition

/-- The in-memory provider keeps the move law. -/
def MemoryTree.KeepsMoveLaw (root : MemoryTree) (src dest : Text) : Prop :=
  MoveLaw (node root).view (node (root.move src dest).1).view (root.move src dest).2.isSome (normalizeText src)
    (normalizeText dest)

/-- The JSON provider does. -/
def JsonFileStorage.KeepsMoveLaw (s : JsonFileStorage) (now : Stamp) (src dest : Text) : Prop :=
  MoveLaw s.view (s.move now src dest).1.view (s.move now src dest).2.isSome (normalizeText src) (normalizeText dest)

/-- The SQLite provider does. -/
def SqliteFileStorage.KeepsMoveLaw (t : Table) (src dest : Text) : Prop :=
  MoveLaw t.textView (move t src dest).1.textView (move t src dest).2.isSome (sqlNames src) (sqlNames dest)

private theorem MemoryTree.keepsMoveLaw_iff (root : MemoryTree) (src dest : Text) : root.KeepsMoveLaw src dest ↔
    MoveRefused (node root).view (normalizeText src) (normalizeText dest) ∨
      ¬ normalizeText src <+: normalizeText dest ∧ ∀ r, r ≠ [] → normalizeText src = normalizeText dest ++ r →
        (node root).view (normalizeText src ++ r.dropLast) = none := by
  have hmove : Does (root.move src dest) _ := move_does
  have hraised := congrArg Option.isSome hmove.2
  rw [Option.isSome_map, Option.isSome_map] at hraised
  rw [KeepsMoveLaw, hmove.1, hraised]
  exact InMemory.moveLaw_iff id root _ _ src dest

private theorem JsonFileStorage.keepsMoveLaw_iff {s : JsonFileStorage} (hdir : s.root.type = directoryType)
    (now : Stamp)
    (src dest : Text) : s.KeepsMoveLaw now src dest ↔
      MoveRefused s.view (normalizeText src) (normalizeText dest) ∨
        ¬ normalizeText src <+: normalizeText dest ∧ ∀ r, r ≠ [] → normalizeText src = normalizeText dest ++ r →
          s.view (normalizeText src ++ r) = none := by
  have hmove : Does (s.move now src dest) (JsonFile.moveAt ⟨trees s.root.children, none⟩ _ _ src dest) :=
    move_does hdir
  have hraised := congrArg Option.isSome hmove.2
  rw [Option.isSome_map, Option.isSome_map] at hraised
  rw [KeepsMoveLaw, view, view, hmove.1, hraised]
  exact JsonFile.moveLaw_iff ⟨trees s.root.children, none⟩ _ _ src dest

/-- When a move does what it promises, with the in-memory, the JSON and the SQLite provider.  The first two are given by
the paths alone, and by what is at `src`.  With the third, a move from a path that cannot be encoded raises at once, and
one to such a path when the parents before the first name that cannot are made.  Otherwise a move that is refused at
once does, whatever the paths are, or `LIKE` has to find only what is below `src`; where it finds something that has to
be there after the move, that is lost; and where it refuses the path, nothing is moved. -/
theorem move_law_iff {start : Stamp} {history : List (Move JsonFileStorage (JsonCall × Stamp))}
    {provider : JsonFileStorage} (h : Run jsonStep (.start start) history provider) (now : Stamp)
    (root : MemoryTree) (t : Table) (src dest : Text) :
    (root.KeepsMoveLaw src dest ↔
      MoveRefused (node root).view (normalizeText src) (normalizeText dest) ∨
        ¬ normalizeText src <+: normalizeText dest ∧ ∀ r, r ≠ [] → normalizeText src = normalizeText dest ++ r →
          (node root).view (normalizeText src ++ r.dropLast) = none) ∧
    (provider.KeepsMoveLaw now src dest ↔
      MoveRefused provider.view (normalizeText src) (normalizeText dest) ∨
        ¬ normalizeText src <+: normalizeText dest ∧ ∀ r, r ≠ [] → normalizeText src = normalizeText dest ++ r →
          provider.view (normalizeText src ++ r) = none) ∧
    (place? src = none → SqliteFileStorage.KeepsMoveLaw t src dest) ∧
    (∀ s, place? src = some s → place? dest = none →
      (SqliteFileStorage.KeepsMoveLaw t src dest ↔
        s = [] ∨ t.view s = none ∨ SqliteFileStorage.NothingMade t.view (leading (parentNames dest)))) ∧
    ∀ s d, place? src = some s → place? dest = some d →
      (Sqlite.RefusedAtOnce t.view s d → SqliteFileStorage.KeepsMoveLaw t src dest) ∧
      (Like.sqlite.refuses (below (key s)) = false →
        (Sqlite.LikeExact .sqlite t s d →
          (SqliteFileStorage.KeepsMoveLaw t src dest ↔
            Sqlite.RefusedAtOnce t.view s d ∨ Sqlite.MovesCleanly t.view s d)) ∧
        (Sqlite.LikeLoses .sqlite t s d →
          (SqliteFileStorage.KeepsMoveLaw t src dest ↔ Sqlite.RefusedAtOnce t.view s d))) ∧
      (Like.sqlite.refuses (below (key s)) = true →
        (SqliteFileStorage.KeepsMoveLaw t src dest ↔ Sqlite.RefusedAtOnce t.view s d ∨ Sqlite.Unaltered t s d)) := by
  refine ⟨root.keepsMoveLaw_iff src dest,
    JsonFileStorage.keepsMoveLaw_iff (JsonFileStorage.rooted_of_run h).root now src dest,
    fun hs => SqliteFileStorage.moveLaw_of_src_none t hs dest,
    fun s hs hd => SqliteFileStorage.moveLaw_of_dest_none_iff t hs hd, fun s d hs hd => ?_⟩
  rw [SqliteFileStorage.KeepsMoveLaw, SqliteFileStorage.moveLaw_spelled_iff t hs hd]
  exact ⟨Sqlite.moveLaw_of_refusedAtOnce .sqlite [] [],
    fun hshort => ⟨Sqlite.moveLaw_iff [] [] hshort, Sqlite.moveLaw_iff_of_likeLoses [] [] hshort⟩,
    Sqlite.moveLaw_iff_of_long [] []⟩

/-- `/axb` can be moved; to move `/a_b` loses the file of the other, and to move to a name that cannot be encoded leaves
the directory that was made for it.  With the JSON provider a file is moved after it was written. -/
theorem move_law_iff_similarNames : ∃ history provider, Run jsonStep (.start someStamp) history provider ∧
    provider.view (normalizeText (ofChars ['a'])) ≠ none ∧
    provider.KeepsMoveLaw someStamp (ofChars ['a']) (ofChars ['d']) ∧
    SqliteFileStorage.KeepsMoveLaw similarNames (ofChars "/axb".toList) (ofChars "/d".toList) ∧
    ¬ SqliteFileStorage.KeepsMoveLaw similarNames (ofChars "/a_b".toList) (ofChars "/d".toList) ∧
    ¬ SqliteFileStorage.KeepsMoveLaw similarNames (ofChars "/axb".toList) (ofChars "/n/".toList ++ [0xD800]) := by
  have hexec : (exec jsonStep (.start someStamp)
      [(.writeFile (ofChars ['a']) (.text (ofChars ['h', 'i'])), someStamp)]).any
      (fun r => (r.2.view (normalizeText (ofChars ['a']))).isSome) = true := by decide +kernel
  obtain ⟨⟨history, provider⟩, hexec, hthere⟩ := (Option.any_eq_true _ _).1 hexec
  have hrun := run_of_exec hexec
  have hparents : Sqlite.parentsOf (sqlParts "/d".toList) = [] := by decide
  have hsrc : key (sqlParts "/axb".toList) = "/axb".toList := by decide
  have hdest : key (sqlParts "/d".toList) = "/d".toList := by decide
  have hlaw := move_law_iff hrun someStamp [] similarNames
  have hpaths := fun src dest : Str =>
    (hlaw (ofChars src) (ofChars dest)).2.2.2.2 _ _ (place_ofChars src) (place_ofChars dest)
  refine ⟨history, provider, hrun, Option.isSome_iff_ne_none.1 hthere,
    (hlaw (ofChars ['a']) (ofChars ['d'])).2.1.2 (.inr ⟨by decide +kernel, ?_⟩),
    (((hpaths "/axb".toList "/d".toList).2.1 (by decide)).1 ?_).2 (.inr ?_),
    mt (((hpaths "/a_b".toList "/d".toList).2.1 (by decide)).2 ?_).1 ?_,
    mt ((hlaw (ofChars "/axb".toList) (ofChars "/n/".toList ++ [0xD800])).2.2.2.1 _ (place_ofChars _)
      (by decide +kernel)).1 ?_⟩
  · intro r _ h
    have hnames : normalizeText (ofChars ['a']) = [ofChars ['a']] ∧
        normalizeText (ofChars ['d']) = [ofChars ['d']] := by
      decide +kernel
    rw [hnames.1, hnames.2, List.singleton_append, List.cons.injEq] at h
    exact absurd h.1 (by decide)
  · rintro k (hk | hk | hk | ⟨y, hk, rfl⟩) hlike
    · rcases similarNames_paths hk with rfl | rfl | rfl | rfl <;> revert hlike <;> decide
    · rw [hparents] at hk
      cases hk
    · subst hk
      revert hlike
      decide
    · rw [hsrc] at hk
      rcases similarNames_paths hk with h | h | h | h <;> simp at h
      subst h
      revert hlike
      decide
  · refine ⟨?_, by decide, ?_, ?_, ?_⟩
    · rintro ⟨q, _, hq, hprefix, _⟩
      rw [hparents] at hprefix
      exact hq (List.prefix_nil.1 hprefix)
    · rw [hparents]
      exact .inr List.nil_prefix
    · intro x hx
      have hhead := (List.cons_prefix_cons.1 (show _ :: [] <+: _ :: x from hx)).1
      exact absurd hhead (by decide)
    · intro x hx _
      by_cases hthere : similarNames.view (sqlParts "/axb".toList ++ x) = none
      · left
        rw [hthere, Table.view, key_append (by decide), hdest]
        by_contra hsome
        obtain ⟨n, x, rfl⟩ := List.exists_cons_of_ne_nil hx
        rcases similarNames_paths hsome with h | h | h | h <;> simp at h
      · exact .inr ⟨by decide, hthere⟩
  · refine ⟨sqlParts "/axb/c".toList, by decide, by decide, .inl ⟨by decide, by decide⟩⟩
  · rintro (h | h | h | ⟨p, _, hp, hprefix, _⟩)
    · exact absurd h (by decide)
    · exact absurd h (by decide)
    · exact absurd h (by decide)
    · rw [hparents] at hprefix
      exact hp (List.prefix_nil.1 hprefix)
  · have hmade : leading (parentNames (ofChars "/n/".toList ++ [0xD800])) = sqlParts "/n".toList := by decide +kernel
    rintro (h | h | h)
    · exact absurd h (by decide)
    · exact absurd h (by decide)
    · rw [hmade] at h
      have hnone : similarNames.view (sqlParts "/n".toList) = none := by decide
      obtain ⟨p, content, hp, hprefix, hfile⟩ := h _ (by decide) (List.prefix_refl _) hnone
      -- what is above the new directory is the directory itself
      obtain rfl : p = sqlParts "/n".toList := hprefix.eq_of_length (le_antisymm hprefix.length_le
        (List.length_pos_of_ne_nil hp))
      rw [hnone] at hfile
      cases hfile

/-- A file that is moved to where it is, is gone. -/
theorem move_to_itself_loses : ¬ ∀ (root : MemoryTree) (src dest : Text), root.KeepsMoveLaw src dest := by
  intro h
  let root := (MemoryTree.writeFile [] (ofChars ['/', 'a']) (.bytes [120])).1
  have hlaw : root.KeepsMoveLaw (ofChars ['/', 'a']) (ofChars ['/', 'a']) := h root _ _
  have hsame := congrFun (MoveLaw.same hlaw (by decide +kernel) rfl) (normalizeText (ofChars ['/', 'a']))
  revert hsame
  decide +kernel

end CliServer
