import CliServer.Files.Providers

/-!
# The provider of the operating system's files

`Os` is the platform: how `os.path` resolves and splits a path, its line separator, and the directories that are
allowed. `Disk` says what is at each resolved path.  Text is written and read in text mode, which translates the ends
of lines.
-/

namespace CliServer

/-- `os.linesep`. -/
inductive LineSep
  | lf
  | crlf
  deriving DecidableEq

def LineSep.text : LineSep → Str
  | .lf => ['\n']
  | .crlf => ['\r', '\n']

/-- A regular file, or a directory, with what `stat` says of its mode. -/
inductive Inode
  | file (content : List UInt8) (mode : Str)
  | directory (size : Nat) (mode : Str)

/-- What is at each resolved path. -/
abbrev Disk := Str → Option Inode

/-- The platform, with the allowed paths as `realpath` resolved them. -/
structure Os where
  realpath : Str → Str
  dirname : Str → Str
  basename : Str → Str
  sep : Char
  linesep : LineSep
  /-- The mode of a new file. -/
  newMode : Str
  allowedPaths : List Str

/-- What writing in text mode makes of a text. -/
def toLineEnds (linesep : LineSep) (s : Str) : Str := s.flatMap fun c => if c = '\n' then linesep.text else [c]

/-- What reading in text mode makes of a text. -/
def universalNewlines : Str → Str
  | [] => []
  | '\r' :: '\n' :: s => '\n' :: universalNewlines s
  | '\r' :: s => '\n' :: universalNewlines s
  | c :: s => c :: universalNewlines s

namespace Disk

variable (os : Os)

/-- `_validate`. -/
def validate (path : Str) : Except FileError Str :=
  let resolved := os.realpath path
  if os.allowedPaths.any fun allowed => decide (resolved = allowed) || (allowed ++ [os.sep]).isPrefixOf resolved then
    .ok resolved
  else .error (.permission path)

/-- `os.path.isdir`. -/
def isDir (disk : Disk) (resolved : Str) : Bool :=
  match disk resolved with
  | some (.directory _ _) => true
  | _ => false

/-- `open` for writing, and `write`. -/
def write (disk : Disk) (resolved : Str) (content : List UInt8) : Disk :=
  let mode := match disk resolved with
    | some (.file _ mode) => mode
    | _ => os.newMode
  fun p => if p = resolved then some (.file content mode) else disk p

/-- `write_file`. -/
def writeFile (disk : Disk) (path : Str) (content : Content) : Disk × Option FileError :=
  match validate os path with
  | .error e => (disk, some e)
  | .ok resolved =>
    if isDir disk resolved then (disk, some (.isADirectory path))
    else if !isDir disk (os.dirname resolved) then (disk, some (.notFound (os.dirname path)))
    else match content with
      | .text s => (write os disk resolved (Utf8.encode (toLineEnds os.linesep s)), none)
      | .bytes b => (write os disk resolved b, none)

/-- The content of a file. -/
def readBytes {α : Type} (f : List UInt8 → α) (disk : Disk) (path : Str) : Except FileError α :=
  match validate os path with
  | .error e => .error e
  | .ok resolved =>
    match disk resolved with
    | none => .error (.notFound path)
    | some (.directory _ _) => .error (.isADirectory path)
    | some (.file content _) => .ok (f content)

/-- The loop of `_stream`. -/
def readChunks (content : List UInt8) : List (List UInt8) :=
  if h : content = [] then []
  else content.take (64 * 1024) :: readChunks (content.drop (64 * 1024))
termination_by content.length
decreasing_by
  have hpos : 0 < content.length := List.length_pos_of_ne_nil h
  rw [List.length_drop]
  omega

/-- `stat`. -/
def stat (disk : Disk) (path : Str) : Except FileError FileEntry :=
  match validate os path with
  | .error e => .error e
  | .ok resolved =>
    match disk resolved with
    | none => .error (.notFound path)
    | some (.file content mode) => .ok ⟨os.basename resolved, .file, content.length, some mode⟩
    | some (.directory size mode) => .ok ⟨os.basename resolved, .directory, size, some mode⟩

/-- The provider of the operating system's files. -/
def provider : ContentProvider Disk where
  readFile := readBytes os fun content => universalNewlines (Utf8.decode content)
  writeFile := writeFile os
  stat := stat os
  getDownloadStream := readBytes os readChunks
  uploadFile disk path content := writeFile os disk path (.bytes content)

end Disk

/-! ### Text mode -/

theorem toLineEnds_cons (linesep : LineSep) (c : Char) (s : Str) :
    toLineEnds linesep (c :: s) = (if c = '\n' then linesep.text else [c]) ++ toLineEnds linesep s := rfl

/-- No carriage return is read in text mode. -/
theorem not_mem_universalNewlines (s : Str) : '\r' ∉ universalNewlines s := by
  fun_induction universalNewlines s with
  | case1 => simp
  | case2 s ih => simpa using ih
  | case3 s _ ih => simpa using ih
  | case4 c s h₁ h₂ ih =>
    rw [List.mem_cons, not_or]
    refine ⟨?_, ih⟩
    rintro rfl
    cases s with
    | nil => exact h₂ rfl
    | cons c s => exact h₂ rfl

end CliServer
