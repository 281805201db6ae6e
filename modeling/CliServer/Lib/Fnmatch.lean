import CliServer.Lib.Regex

/-!
# Shell patterns

`fnmatch.translate`: a `*` stands for any text, a `?` for any character and a set in brackets for one of its
characters, or with `!` for one of the others.  A pattern without these matches itself only
(`fnmatchcase_literal_iff`), and a pattern without sets matches itself (`fnmatchcase_self`).
-/

namespace Fnmatch

/-! ### Sets -/

/-- What stands before the next closing bracket. -/
def untilBracket : List Char → Option (List Char)
  | [] => none
  | c :: s => if c = ']' then some [] else (untilBracket s).map (c :: ·)

/-- What stands in the bracket that has been opened, if it is closed; a bracket at the start of the set does not close
it. -/
def stuff (s : List Char) : Option (List Char) :=
  let bang := if s.head? = some '!' then 1 else 0
  let start := if s[bang]? = some ']' then bang + 1 else bang
  (untilBracket (s.drop start)).map (s.take start ++ ·)

/-- The set cut at the hyphens of its ranges; the first `skip` characters are none. -/
def chunks (skip : Nat) (chunk : List Char) : List Char → List (List Char)
  | [] => [chunk]
  | c :: s =>
    match skip with
    | skip + 1 => chunks skip (chunk ++ [c]) s
    | 0 => if c = '-' then chunk :: chunks 2 [] s else chunks 0 (chunk ++ [c]) s

/-- A hyphen at the end is one of the characters. -/
def closeLast : List (List Char) → List (List Char)
  | [] => []
  | [chunk, []] => [chunk ++ ['-']]
  | chunk :: rest => chunk :: closeLast rest

/-- Removes the ranges that are empty. -/
def dropEmpty : List (List Char) → List (List Char)
  | [] => []
  | chunk :: rest =>
    match dropEmpty rest with
    | [] => [chunk]
    | next :: rest =>
      match chunk.getLast?, next.head? with
      | some a, some b => if b < a then (chunk.dropLast ++ next.tail) :: rest else chunk :: next :: rest
      | _, _ => chunk :: next :: rest

/-- A set of characters and ranges; `none` is the hyphen of a range. -/
def inSet (c : Char) : List (Option Char) → Bool
  | some a :: none :: some b :: set => (a ≤ c && c ≤ b) || inSet c set
  | some a :: set => a = c || inSet c set
  | none :: set => c = '-' || inSet c set
  | [] => false

def setMatches (stuff : List Char) (c : Char) : Bool :=
  let skip := if stuff.head? = some '!' then 2 else 1
  match [none].intercalate ((dropEmpty (closeLast (chunks skip [] stuff))).map (List.map some)) with
  | some '!' :: set => !inSet c set
  | set => inSet c set

/-! ### Patterns -/

def anyChar : Regex Char := .set fun _ => true

/-- The parts of a pattern; the first `skip` characters have been read, with a bracket. -/
def parts (skip : Nat) : List Char → List (Regex Char)
  | [] => []
  | c :: s =>
    match skip with
    | skip + 1 => parts skip s
    | 0 =>
      if c = '*' then .star anyChar :: parts 0 s
      else if c = '?' then anyChar :: parts 0 s
      else if c = '[' then
        match stuff s with
        | some set => .set (setMatches set) :: parts (set.length + 1) s
        | none => .char c :: parts 0 s
      else .char c :: parts 0 s

/-- `fnmatch.translate`. -/
def translate (pat : List Char) : Regex Char := (parts 0 pat).foldr .cat .eps

/-- `fnmatch.fnmatchcase`. -/
def fnmatchcase (name pat : List Char) : Bool := (translate pat).accepts name

/-! ### Plain patterns -/

/-- A pattern without the characters that mean something else. -/
def IsLiteral (pat : List Char) : Prop := '*' ∉ pat ∧ '?' ∉ pat ∧ '[' ∉ pat

instance (pat : List Char) : Decidable (IsLiteral pat) := inferInstanceAs (Decidable (_ ∧ _ ∧ _))

private theorem translate_literal {pat : List Char} (h : IsLiteral pat) : translate pat = .lit pat := by
  induction pat with
  | nil => rfl
  | cons c pat ih =>
    obtain ⟨hstar, hstars⟩ := List.ne_and_not_mem_of_not_mem_cons h.1
    obtain ⟨hquestion, hquestions⟩ := List.ne_and_not_mem_of_not_mem_cons h.2.1
    obtain ⟨hbracket, hbrackets⟩ := List.ne_and_not_mem_of_not_mem_cons h.2.2
    rw [translate, parts, if_neg hstar.symm, if_neg hquestion.symm, if_neg hbracket.symm, List.foldr_cons, Regex.lit,
      ← ih ⟨hstars, hquestions, hbrackets⟩]
    rfl

/-- A pattern without special characters matches itself only. -/
theorem fnmatchcase_literal_iff {name pat : List Char} (h : IsLiteral pat) :
    fnmatchcase name pat = true ↔ name = pat := by
  rw [fnmatchcase, translate_literal h, Regex.accepts_iff, Regex.mem_lang_lit]

/-- A pattern without sets matches itself. -/
theorem fnmatchcase_self {pat : List Char} (h : '[' ∉ pat) : fnmatchcase pat pat = true := by
  rw [fnmatchcase, Regex.accepts_iff]
  induction pat with
  | nil => exact Regex.mem_lang_eps.2 rfl
  | cons c pat ih =>
    obtain ⟨hc, hpat⟩ := List.ne_and_not_mem_of_not_mem_cons h
    -- every part matches the character that it is made of
    have hpart : ∃ r, parts 0 (c :: pat) = r :: parts 0 pat ∧ [c] ∈ r.lang := by
      rw [parts]
      split
      · refine ⟨_, rfl, Regex.mem_lang_star_set.2 fun d _ => rfl⟩
      · split
        · exact ⟨_, rfl, Regex.mem_lang_set.2 ⟨c, rfl, rfl⟩⟩
        · rw [if_neg hc.symm]
          exact ⟨_, rfl, Regex.mem_lang_set.2 ⟨c, decide_eq_true rfl, rfl⟩⟩
    obtain ⟨r, hparts, hr⟩ := hpart
    rw [translate, hparts]
    exact Regex.mem_lang_cat.2 ⟨[c], hr, pat, ih hpat, rfl⟩

end Fnmatch
