import CliServer.Files.JsonTrees
import CliServer.Files.SqliteCopy
import CliServer.Files.SqliteTexts

/-!
# The copy law

When the three providers keep the copy law (`copy_law_iff`), and the shortest way to something of a previous `dest` that
remains.  Paths are Python's texts, with a surrogate that stands alone too; what SQLite's `LIKE` makes of U+0000 and of
long patterns is part of the condition.  The interpreter's limits and errors of the disk are left out.
-/

namespace CliServer

open Json (Text ofChars)
open NamedTree Transition

/-- The in-memory provider keeps the copy law. -/
def MemoryTree.KeepsCopyLaw (root : MemoryTree) (src dest : Text) : Prop :=
  CopyLaw (node root).view (node (root.copy src dest).1).view (root.copy src dest).2.isSome (normalizeText src)
    (normalizeText dest)

/-- The JSON provider does. -/
def JsonFileStorage.KeepsCopyLaw (s : JsonFileStorage) (now : Stamp) (src dest : Text) : Prop :=
  CopyLaw s.view (s.copy now src dest).1.view (s.copy now src dest).2.isSome (normalizeText src) (normalizeText dest)

/-- The SQLite provider does. -/
def SqliteFileStorage.KeepsCopyLaw (t : Table) (src dest : Text) : Prop :=
  CopyLaw t.textView (copy t src dest).1.textView (copy t src dest).2.isSome (sqlNames src) (sqlNames dest)

private theorem MemoryTree.keepsCopyLaw_iff (root : MemoryTree) (src dest : Text) : root.KeepsCopyLaw src dest ↔
    CopyRefused (node root).view (normalizeText src) (normalizeText dest) ∨
      (normalizeText src <+: (normalizeText dest).dropLast →
        (node root).view (normalizeText dest).dropLast ≠ none) := by
  have hcopy : Does (root.copy src dest) _ := copy_does
  have hraised := congrArg Option.isSome hcopy.2
  rw [Option.isSome_map, Option.isSome_map] at hraised
  rw [KeepsCopyLaw, hcopy.1, hraised]
  exact InMemory.copyLaw_iff root _ _ src dest

private theorem JsonFileStorage.keepsCopyLaw_iff {s : JsonFileStorage} (hdir : s.root.type = directoryType)
    (now : Stamp)
    (src dest : Text) : s.KeepsCopyLaw now src dest ↔
      CopyRefused s.view (normalizeText src) (normalizeText dest) ∨
        (normalizeText src <+: normalizeText dest → normalizeText src = normalizeText dest ∨
          s.view (normalizeText dest) = none ∧ s.view (normalizeText dest).dropLast ≠ none) := by
  have hcopy : Does (s.copy now src dest) (JsonFile.copyAt ⟨trees s.root.children, none⟩ _ _ src dest) :=
    copy_does hdir
  have hraised := congrArg Option.isSome hcopy.2
  rw [Option.isSome_map, Option.isSome_map] at hraised
  rw [KeepsCopyLaw, view, view, hcopy.1, hraised]
  exact JsonFile.copyLaw_iff ⟨trees s.root.children, none⟩ _ _ src dest

/-- When a copy does what it promises, with the in-memory, the JSON and the SQLite provider.  The first two fail only
where `dest` is inside of `src`: when parents of `dest` are made there, which come along, and the second also when
something is at `dest`, which does not come along.  With the third, a copy that raises an error does, as it does for a
path that cannot be encoded; where `LIKE` finds only what is below a directory that is copied, what is copied has to
take the place of what was at `dest`; and where a row that it finds comes to a path at which nothing may be, no copy
that is made does. -/
theorem copy_law_iff {start : Stamp} {history : List (Move JsonFileStorage (JsonCall × Stamp))}
    {provider : JsonFileStorage} (h : Run jsonStep (.start start) history provider) (now : Stamp)
    (root : MemoryTree) (t : Table) (src dest : Text) :
    (root.KeepsCopyLaw src dest ↔
      CopyRefused (node root).view (normalizeText src) (normalizeText dest) ∨
        (normalizeText src <+: (normalizeText dest).dropLast →
          (node root).view (normalizeText dest).dropLast ≠ none)) ∧
    (provider.KeepsCopyLaw now src dest ↔
      CopyRefused provider.view (normalizeText src) (normalizeText dest) ∨
        (normalizeText src <+: normalizeText dest → normalizeText src = normalizeText dest ∨
          provider.view (normalizeText dest) = none ∧ provider.view (normalizeText dest).dropLast ≠ none)) ∧
    (place? src = none ∨ place? dest = none → SqliteFileStorage.KeepsCopyLaw t src dest) ∧
    ∀ s d, place? src = some s → place? dest = some d →
      (Sqlite.Raises .sqlite t s d → SqliteFileStorage.KeepsCopyLaw t src dest) ∧
      (Sqlite.CopyLikeExact .sqlite t s d →
        (SqliteFileStorage.KeepsCopyLaw t src dest ↔
          Sqlite.Raises .sqlite t s d ∨ Sqlite.CopiesCleanly t.view s d)) ∧
      (Sqlite.LikeStrays .sqlite t s d →
        (SqliteFileStorage.KeepsCopyLaw t src dest ↔ Sqlite.Refused t.view s d)) := by
  refine ⟨root.keepsCopyLaw_iff src dest,
    JsonFileStorage.keepsCopyLaw_iff (JsonFileStorage.rooted_of_run h).root now src dest,
    SqliteFileStorage.copyLaw_of_none t, fun s d hs hd => ?_⟩
  rw [SqliteFileStorage.KeepsCopyLaw, SqliteFileStorage.copyLaw_spelled_iff t hs hd]
  exact ⟨Sqlite.copyLaw_of_raises .sqlite [] [], Sqlite.copyLaw_iff [] [], Sqlite.copyLaw_iff_of_likeStrays [] []⟩

/-- `/axb` can be copied; to copy `/a_b` brings the file of the other along.  With the JSON provider a file is copied
after it was written. -/
theorem copy_law_iff_similarNames : ∃ history provider, Run jsonStep (.start someStamp) history provider ∧
    provider.view (normalizeText (ofChars ['a'])) ≠ none ∧
    provider.KeepsCopyLaw someStamp (ofChars ['a']) (ofChars ['d']) ∧
    SqliteFileStorage.KeepsCopyLaw similarNames (ofChars "/axb".toList) (ofChars "/d".toList) ∧
    ¬ SqliteFileStorage.KeepsCopyLaw similarNames (ofChars "/a_b".toList) (ofChars "/d".toList) := by
  have hexec : (exec jsonStep (.start someStamp)
      [(.writeFile (ofChars ['a']) (.text (ofChars ['h', 'i'])), someStamp)]).any
      (fun r => (r.2.view (normalizeText (ofChars ['a']))).isSome) = true := by decide +kernel
  obtain ⟨⟨history, provider⟩, hexec, hthere⟩ := (Option.any_eq_true _ _).1 hexec
  have hrun := run_of_exec hexec
  have hparents : Sqlite.parentsOf (sqlParts "/d".toList) = [] := by decide
  have hdest : key (sqlParts "/d".toList) = "/d".toList := by decide
  have hlaw := copy_law_iff hrun someStamp [] similarNames
  have hpaths := fun src dest : Str =>
    (hlaw (ofChars src) (ofChars dest)).2.2.2 _ _ (place_ofChars src) (place_ofChars dest)
  refine ⟨history, provider, hrun, Option.isSome_iff_ne_none.1 hthere,
    (hlaw (ofChars ['a']) (ofChars ['d'])).2.1.2 (.inr fun habove => ?_),
    ((hpaths "/axb".toList "/d".toList).2.1 ?_).2 (.inr ?_), mt ((hpaths "/a_b".toList "/d".toList).2.2 ?_).1 ?_⟩
  · exact absurd habove (by decide +kernel)
  · rintro - k (hk | hk | hk) hlike
    · rcases similarNames_paths hk with rfl | rfl | rfl | rfl <;> revert hlike <;> decide
    · rw [hparents] at hk
      cases hk
    · subst hk
      revert hlike
      decide
  · refine ⟨fun _ p hp hprefix => ?_, fun _ _ habove => ?_, fun _ x hx => ?_, fun h => absurd h (by decide)⟩
    · rw [hparents] at hprefix
      exact absurd (List.prefix_nil.1 hprefix) hp
    · exact absurd habove (by decide)
    · by_cases hthere : similarNames.view (sqlParts "/axb".toList ++ x) = none
      · left
        rw [hthere, Table.view, key_append (by decide), hdest]
        by_contra hsome
        obtain ⟨n, x, rfl⟩ := List.exists_cons_of_ne_nil hx
        rcases similarNames_paths hsome with h | h | h | h <;> simp at h
      · exact .inr ⟨by decide, hthere⟩
  · refine ⟨⟨by decide, by decide⟩, "/axb/c".toList, sqlParts "/d/c".toList, .inl (by decide), by decide, by decide, ?_⟩
    exact .inl ⟨sqlParts "c".toList, by decide, by decide⟩
  · rintro (h | h | ⟨p, _, hp, hprefix, _⟩)
    · exact absurd h (by decide)
    · exact absurd h (by decide)
    · rw [hparents] at hprefix
      exact hp (List.prefix_nil.1 hprefix)

/-- An empty directory copied over one with a file: the file stays. -/
theorem copied_over_remains : ¬ ∀ (history : List (Move Table FileOp)) (t : Table),
    Run Sqlite.step Sqlite.initial history t → ∀ src dest : Text, SqliteFileStorage.KeepsCopyLaw t src dest := by
  intro h
  have hexec : (exec Sqlite.step Sqlite.initial
      [.writeFile "/d/x".toList (.text "1".toList), .mkdir "/a".toList false]).any (fun r =>
        (SqliteFileStorage.copy r.2 (ofChars "/a".toList) (ofChars "/d".toList)).2.isNone &&
        ((SqliteFileStorage.copy r.2 (ofChars "/a".toList) (ofChars "/d".toList)).1.textView
          (sqlNames (ofChars "/d/x".toList))).isSome &&
        (r.2.textView (sqlNames (ofChars "/a/x".toList))).isNone) = true := by decide +kernel
  obtain ⟨⟨history, t⟩, hrun, hstate⟩ := (Option.any_eq_true _ _).1 hexec
  simp only [Bool.and_eq_true, Option.isNone_iff_eq_none] at hstate
  obtain ⟨⟨hraised, hthere⟩, hnone⟩ := hstate
  have hlaw := h history t (run_of_exec hrun) (ofChars "/a".toList) (ofChars "/d".toList)
  rw [SqliteFileStorage.KeepsCopyLaw, hraised] at hlaw
  have hdest : sqlNames (ofChars "/d/x".toList) = sqlNames (ofChars "/d".toList) ++ sqlNames (ofChars "x".toList) := by
    decide +kernel
  have hsrc : sqlNames (ofChars "/a/x".toList) = sqlNames (ofChars "/a".toList) ++ sqlNames (ofChars "x".toList) := by
    decide +kernel
  rw [hdest, hlaw.copied rfl, ← hsrc, hnone] at hthere
  cases hthere

end CliServer
