import CliServer.Files.JsonNodes
import CliServer.Files.Trees

/-!
# The in-memory provider of Python's texts

The operations of the in-memory provider on names and contents in which a surrogate may stand alone, with every error
that they raise.  A node has the name that it is kept under; times are left out.
-/

namespace CliServer

open Json (CodePoint Text)
open NamedTree

/-- The bytes of a file, and the size that is stored with them. -/
structure MemoryFile where
  content : List UInt8
  size : Nat
  deriving DecidableEq

/-- The children of the root. -/
abbrev MemoryTree := Forest Text MemoryFile

/-- What a provider raises: an error of the file providers or `UnicodeEncodeError`, or what Python raises for a name
that is not imported, and a key that is not there. -/
inductive CallError where
  | storage (e : FileStorageError)
  | nameError
  | keyError (name : Text)
  deriving DecidableEq

/-- The error classes of the file providers. -/
def CallError.IsFileStorage : CallError → Prop
  | .storage e => e ≠ .unicodeEncode
  | _ => False

/-- `content.encode("utf-8") if isinstance(content, str) else content`; `none`: it raises. -/
def FileContent.encoded? : FileContent → Option (List UInt8)
  | .text s => if s.any isSurrogate then none else some (Utf8.encode (s.map fun c => Char.ofNat c.val))
  | .bytes raw => some raw

inductive FileCall where
  | list (path : Text)
  | readFile (path : Text)
  | writeFile (path : Text) (content : FileContent)
  | stat (path : Text)
  | mkdir (path : Text) (recursive : Bool)
  | remove (path : Text) (recursive : Bool)
  | copy (src dest : Text)
  | move (src dest : Text)
  | exists_ (path : Text)
  | getDownloadStream (path : Text)
  | uploadFile (path : Text) (raw : List UInt8)

/-- What `list` raises of a node: is it a directory? -/
def listError (path : Text) : Option Bool → Option FileStorageError
  | none => some (.notFound path)
  | some false => some (.notADirectory path)
  | some true => none

/-- What `read_file` and `get_download_stream` raise. -/
def readError (path : Text) : Option Bool → Option FileStorageError
  | none => some (.notFound path)
  | some false => none
  | some true => some (.isADirectory path)

/-- What `stat` raises. -/
def statError (path : Text) : Option Bool → Option FileStorageError
  | none => some (.notFound path)
  | some _ => none

namespace MemoryTree

/-- `node.type == "directory"`. -/
def isDirectory : NamedTree Text MemoryFile → Bool
  | leaf _ => false
  | node _ => true

/-- `children.get(name)`. -/
def getChild (children : MemoryTree) (name : Text) : Option (NamedTree Text MemoryFile) := (node children).find [name]

/-- `_resolve`. -/
def resolve (root : MemoryTree) (parts : List Text) : Option (NamedTree Text MemoryFile) := (node root).find parts

/-- `_ensure_parents`: the tree it leaves, and the error. -/
def ensureParents (originalPath : Text) (create : Bool) : List Text → MemoryTree → MemoryTree × Option FileStorageError
  | [], children => (children, none)
  | part :: parts, children =>
    match getChild children part with
    | none =>
      if create then
        let made := ensureParents originalPath create parts []
        (children.assign part (node made.1), made.2)
      else (children, some (.notFound originalPath))
    | some (leaf _) => (children, some (.notADirectory originalPath))
    | some (node inner) =>
      let made := ensureParents originalPath create parts inner
      (children.assign part (node made.1), made.2)

variable (root : MemoryTree)

/-- `write_file`. -/
def writeFile (path : Text) (content : FileContent) : MemoryTree × Option CallError :=
  let parts := normalizeText path
  if hparts : parts = [] then (root, some (.storage (.isADirectory path)))
  else match ensureParents path true parts.dropLast root with
    | (root, some e) => (root, some (.storage e))
    | (root, none) =>
      match content.encoded? with
      | none => (root, some (.storage .unicodeEncode))
      | some raw =>
        match resolve root parts with
        | some (node _) => (root, some (.storage (.isADirectory path)))
        | _ =>
          let file := leaf { content := raw, size := raw.length }
          (root.alter (fun children => children.assign (parts.getLast hparts) file) parts.dropLast, none)

/-- `mkdir`. -/
def mkdir (path : Text) (recursive : Bool) : MemoryTree × Option CallError :=
  let parts := normalizeText path
  if hparts : parts = [] then (root, none)
  else if recursive then
    match ensureParents path true parts root with
    | (root, some e) => (root, some (.storage e))
    | (root, none) => (root, none)
  else match ensureParents path false parts.dropLast root with
    | (root, some e) => (root, some (.storage e))
    | (root, none) =>
      match resolve root parts with
      | some (leaf _) => (root, some (.storage (.exists path)))
      | some (node _) => (root, none)
      | none => (root.alter (fun children => children.assign (parts.getLast hparts) (node [])) parts.dropLast, none)

/-- `remove`; `FileStoragePermissionError` is not among the names this module imports. -/
def remove (path : Text) (recursive : Bool) : MemoryTree × Option CallError :=
  let parts := normalizeText path
  if hparts : parts = [] then (root, some .nameError)
  else match (resolve root parts.dropLast).bind fun parent => parent.find [parts.getLast hparts] with
    | none => (root, some (.storage (.notFound path)))
    | some found =>
      match found, recursive with
      | node (_ :: _), false => (root, some (.storage (.notADirectory path)))
      | _, _ => (root.alter (fun children => children.discard (parts.getLast hparts)) parts.dropLast, none)

/-- The lines of `copy` and `move` that put the copy at `dest`. -/
def putCopy (srcNode : NamedTree Text MemoryFile) (dest : List Text) (hdest : dest ≠ []) : MemoryTree :=
  root.alter (fun children => children.assign (dest.getLast hdest) (deepCopy srcNode)) dest.dropLast

/-- `copy`. -/
def copy (src dest : Text) : MemoryTree × Option CallError :=
  match resolve root (normalizeText src) with
  | none => (root, some (.storage (.notFound src)))
  | some srcNode =>
    let parts := normalizeText dest
    if hparts : parts = [] then (root, some (.storage (.isADirectory dest)))
    else match ensureParents dest true parts.dropLast root with
      | (root, some e) => (root, some (.storage e))
      -- the object that was found, with the directories that were just made in it
      | (root, none) => (putCopy root ((resolve root (normalizeText src)).getD srcNode) parts hparts, none)

/-- The last lines of `move`: `del src_parent.children[src_parts[-1]]`. -/
def removeOld (src : List Text) (hsrc : src ≠ []) : MemoryTree × Option CallError :=
  match resolve root src.dropLast with
  | none => (root, none)
  | some srcParent =>
    let name := src.getLast hsrc
    if (srcParent.find [name]).isNone then (root, some (.keyError name))
    else (root.alter (fun children => children.discard name) src.dropLast, none)

/-- `move`. -/
def move (src dest : Text) : MemoryTree × Option CallError :=
  let srcParts := normalizeText src
  if hsrc : srcParts = [] then (root, some .nameError)
  else match resolve root srcParts with
    | none => (root, some (.storage (.notFound src)))
    | some srcNode =>
      let parts := normalizeText dest
      if hparts : parts = [] then (root, some (.storage (.isADirectory dest)))
      else match ensureParents dest true parts.dropLast root with
        | (root, some e) => (root, some (.storage e))
        | (root, none) => removeOld (putCopy root ((resolve root srcParts).getD srcNode) parts hparts) srcParts hsrc

/-- One call: the tree it leaves, and what it raises. -/
def call : FileCall → MemoryTree × Option CallError
  | .list path => (root, (listError path ((resolve root (normalizeText path)).map isDirectory)).map .storage)
  | .readFile path => (root, (readError path ((resolve root (normalizeText path)).map isDirectory)).map .storage)
  | .writeFile path content => writeFile root path content
  | .stat path => (root, (statError path ((resolve root (normalizeText path)).map isDirectory)).map .storage)
  | .mkdir path recursive => mkdir root path recursive
  | .remove path recursive => remove root path recursive
  | .copy src dest => copy root src dest
  | .move src dest => move root src dest
  | .exists_ _ => (root, none)
  | .getDownloadStream path =>
    (root, (readError path ((resolve root (normalizeText path)).map isDirectory)).map .storage)
  | .uploadFile path raw => writeFile root path (.bytes raw)

end MemoryTree

/-- One call of the JSON provider; a stream is read to its end, and encodes the content then. -/
def JsonFileStorage.call (s : JsonFileStorage) (now : Stamp) : FileCall → JsonFileStorage × Option FileStorageError
  | .list path => (s, listError path ((resolveNode (normalizeText path) s.root).map fun n => n.type = directoryType))
  | .readFile path => (s, readError path ((resolveNode (normalizeText path) s.root).map fun n => n.type = directoryType))
  | .writeFile path content => s.writeFile now path content
  | .stat path => (s, statError path ((resolveNode (normalizeText path) s.root).map fun n => n.type = directoryType))
  | .mkdir path recursive => s.mkdir now path recursive
  | .remove path recursive => s.remove path recursive
  | .copy src dest => s.copy now src dest
  | .move src dest => s.move now src dest
  | .exists_ _ => (s, none)
  | .getDownloadStream path =>
    match resolveNode (normalizeText path) s.root with
    | none => (s, some (.notFound path))
    | some n =>
      if n.type = directoryType then (s, some (.isADirectory path))
      else (s, if (encodedLength? n.content).isNone then some .unicodeEncode else none)
  | .uploadFile path raw => s.writeFile now path (.bytes raw)

end CliServer
