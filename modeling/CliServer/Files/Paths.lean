import CliServer.Lib.SegmentPaths
import CliServer.Text

/-!
# Paths of the file providers

A normalised path is the list of its segments; what the code then joins and splits again at the slashes is this list.
The in-memory and the JSON provider normalise alike, the SQLite provider does not drop the slashes first.
-/

namespace CliServer

/-- What stands between two slashes. -/
abbrev Piece := { t : Str // '/' ∉ t }

/-- The name of a file or directory. -/
structure Name where
  text : Str
  ne_nil : text ≠ []
  ne_dot : text ≠ ['.']
  ne_dots : text ≠ ['.', '.']
  no_slash : '/' ∉ text
  deriving DecidableEq

/-- A normalised path; the root is the empty one. -/
abbrev Path := List Name

/-- The errors of the file providers, with the path they name, and what Python raises instead of them: `operational` is
`sqlite3.OperationalError`, of a pattern that is too long. -/
inductive PathError (τ : Type*)
  | notFound (path : τ)
  | permission (path : τ)
  | exists (path : τ)
  | isADirectory (path : τ)
  | notADirectory (path : τ)
  | nameError
  | keyError (name : τ)
  | operational
  deriving DecidableEq

/-- The errors for paths that are texts of characters. -/
abbrev FileError := PathError Str

/-- `len(text.encode("utf-8"))`. -/
def utf8Length (text : Str) : Nat := (text.map Char.utf8Size).sum

/-! ### Normalising -/

private theorem not_mem_splitOn {c : Char} {s t : Str} (h : t ∈ s.splitOn c) :
    c ∉ t := SegmentPath.notMem_of_mem_splitOn h

/-- `path.split("/")`. -/
def pieces (path : Str) : List Piece := (path.splitOn '/').attach.map fun t => ⟨t.1, not_mem_splitOn t.2⟩

/-- One round of the loop of `_normalize_path`. -/
def addPiece (parts : Path) (segment : Piece) : Path :=
  if h : segment.1 = [] ∨ segment.1 = ['.'] then parts
  else if h' : segment.1 = ['.', '.'] then parts.dropLast
  else parts ++ [⟨segment.1, fun hnil => h (.inl hnil), fun hdot => h (.inr hdot), h', segment.2⟩]

/-- `_normalize_path` of the in-memory and the JSON provider. -/
def normalizePath (path : Str) : Path :=
  let path := strip (stripSlashes path)
  if path = [] ∨ path = ['.'] then [] else (pieces path).foldl addPiece []

end CliServer
