import CliServer.Files.InMemory
import CliServer.Files.JsonFile
import CliServer.Files.SqliteMove
import CliServer.Lib.Utf8

/-!
# File providers

`FileProvider` is `IFileStorageProvider` over the state a provider keeps: an operation that changes it returns the
state it leaves behind and the error it raised.  `FileProvider.run` performs one operation of any of them.  Times are
left out.
-/

namespace CliServer

/-- What is written: `str` or `bytes`. -/
inductive Content
  | text (s : Str)
  | bytes (b : List UInt8)
  deriving DecidableEq

/-- `content.encode("utf-8") if isinstance(content, str) else content`. -/
def Content.raw : Content → List UInt8
  | .text s => Utf8.encode s
  | .bytes b => b

/-- `content.decode("utf-8", errors="replace") if isinstance(content, bytes) else content`. -/
def Content.decoded : Content → Str
  | .text s => s
  | .bytes b => Utf8.decode b

/-- `FileEntry`, and `FileStat`. -/
structure FileEntry where
  name : Str
  type : EntryType
  size : Nat
  permissions : Option Str
  deriving DecidableEq

/-- The permissions of a `_FileNode`. -/
def permissionsOf : EntryType → Str
  | .file => "-rw-r--r--".toList
  | .directory => "drwxr-xr-x".toList

/-- What can be done with a file. -/
structure ContentProvider (σ : Type) where
  readFile : σ → Str → Except FileError Str
  writeFile : σ → Str → Content → σ × Option FileError
  stat : σ → Str → Except FileError FileEntry
  /-- The chunks of the stream. -/
  getDownloadStream : σ → Str → Except FileError (List (List UInt8))
  uploadFile : σ → Str → List UInt8 → σ × Option FileError

/-- `IFileStorageProvider`. -/
structure FileProvider (σ : Type) extends ContentProvider σ where
  list : σ → Str → Except FileError (List FileEntry)
  mkdir : σ → Str → Bool → σ × Option FileError
  remove : σ → Str → Bool → σ × Option FileError
  copy : σ → Str → Str → σ × Option FileError
  move : σ → Str → Str → σ × Option FileError
  exists_ : σ → Str → Bool

inductive FileOp
  | list (path : Str)
  | readFile (path : Str)
  | writeFile (path : Str) (content : Content)
  | stat (path : Str)
  | exists_ (path : Str)
  | mkdir (path : Str) (recursive : Bool)
  | remove (path : Str) (recursive : Bool)
  | copy (src dest : Str)
  | move (src dest : Str)
  | getDownloadStream (path : Str)
  | uploadFile (path : Str) (content : List UInt8)
  deriving DecidableEq

/-- The class of an error. -/
inductive ErrorClass
  | notFound
  | permission
  | exists_
  | isADirectory
  | notADirectory
  | nameError
  | keyError
  | operational
  deriving DecidableEq

def FileError.errorClass : FileError → ErrorClass
  | .notFound _ => .notFound
  | .permission _ => .permission
  | .exists _ => .exists_
  | .isADirectory _ => .isADirectory
  | .notADirectory _ => .notADirectory
  | .nameError => .nameError
  | .keyError _ => .keyError
  | .operational => .operational

/-- What an operation returns, or the class of the error it raises. -/
inductive FileOutcome
  | done
  | listing (entries : List FileEntry)
  | text (s : Str)
  | stats (stat : FileEntry)
  | flag (b : Bool)
  | stream (chunks : List (List UInt8))
  | raised (error : ErrorClass)
  deriving DecidableEq

def FileOutcome.ofOption : Option FileError → FileOutcome
  | none => .done
  | some e => .raised e.errorClass

def FileOutcome.ofExcept {α : Type} (f : α → FileOutcome) : Except FileError α → FileOutcome
  | .ok a => f a
  | .error e => .raised e.errorClass

/-- One operation: the state after it, and its outcome. -/
def FileProvider.run {σ : Type} (provider : FileProvider σ) (s : σ) : FileOp → σ × FileOutcome
  | .list path => (s, .ofExcept .listing (provider.list s path))
  | .readFile path => (s, .ofExcept .text (provider.readFile s path))
  | .writeFile path content => ((provider.writeFile s path content).1, .ofOption (provider.writeFile s path content).2)
  | .stat path => (s, .ofExcept .stats (provider.stat s path))
  | .exists_ path => (s, .flag (provider.exists_ s path))
  | .mkdir path recursive => ((provider.mkdir s path recursive).1, .ofOption (provider.mkdir s path recursive).2)
  | .remove path recursive => ((provider.remove s path recursive).1, .ofOption (provider.remove s path recursive).2)
  | .copy src dest => ((provider.copy s src dest).1, .ofOption (provider.copy s src dest).2)
  | .move src dest => ((provider.move s src dest).1, .ofOption (provider.move s src dest).2)
  | .getDownloadStream path => (s, .ofExcept .stream (provider.getDownloadStream s path))
  | .uploadFile path content => ((provider.uploadFile s path content).1,
    .ofOption (provider.uploadFile s path content).2)

/-! ### The tree providers -/

open NamedTree

section Tree

variable {γ : Type*} {len : γ → Nat}

/-- The type and the size of a `_FileNode`. -/
def nodeEntry (name : Str) : NamedTree Name (FileData len) → FileEntry
  | leaf file => ⟨name, .file, file.size, some (permissionsOf .file)⟩
  | node _ => ⟨name, .directory, 0, some (permissionsOf .directory)⟩

/-- The entries, sorted by name. -/
def sortedEntries (entries : List FileEntry) : List FileEntry := entries.mergeSort fun a b => a.name ≤ b.name

/-- `list`. -/
def listNode (root : FileTree len) (path : Str) : Except FileError (List FileEntry) :=
  match resolve root (normalizePath path) with
  | none => .error (.notFound path)
  | some (leaf _) => .error (.notADirectory path)
  | some (node children) => .ok (sortedEntries (children.map fun child => nodeEntry child.1.text child.2))

/-- `read_file`, and `get_download_stream`. -/
def readNode {α : Type} (f : γ → α) (root : FileTree len) (path : Str) : Except FileError α :=
  match resolve root (normalizePath path) with
  | none => .error (.notFound path)
  | some (node _) => .error (.isADirectory path)
  | some (leaf file) => .ok (f file.content)

/-- The name of the node at a path; the root has none. -/
def lastName (path : Path) : Str := (path.getLast?.map Name.text).getD []

/-- `stat`. -/
def statNode (root : FileTree len) (path : Str) : Except FileError FileEntry :=
  match resolve root (normalizePath path) with
  | none => .error (.notFound path)
  | some found => .ok (nodeEntry (lastName (normalizePath path)) found)

end Tree

namespace InMemory

/-- `mkdir`. -/
def mkdir (root : InMemory) (path : Str) (recursive : Bool) : InMemory × Option FileError :=
  let made := makeDirectory root (normalizePath path) path recursive
  (made.1, made.2.1)

/-- `remove`; `FileStoragePermissionError` is not among the names this module imports. -/
def remove (root : InMemory) (path : Str) (recursive : Bool) : InMemory × Option FileError :=
  if hnorm : normalizePath path = [] then (root, some .nameError)
  else removeNode root (normalizePath path) path recursive hnorm

/-- The in-memory provider. -/
def provider : FileProvider InMemory where
  readFile := readNode Utf8.decode
  writeFile root path content := writeFile root path content.raw
  stat := statNode
  getDownloadStream := readNode fun content => [content]
  uploadFile root path content := writeFile root path content
  list := listNode
  mkdir := mkdir
  remove := remove
  copy := copy
  move := move
  exists_ root path := (resolve root (normalizePath path)).isSome

end InMemory

namespace JsonFile

/-- `write_file`. -/
def writeFile (provider : JsonFile) (path : Str) (content : Content) : JsonFile × Option FileError :=
  let text := content.decoded
  let file : FileData utf8Length := { content := text, size := utf8Length text, size_eq := rfl }
  match writeNode provider.root (normalizePath path) path file with
  | (root, some e) => ({ provider with root := root }, some e)
  | (root, none) => (save { provider with root := root }, none)

/-- `mkdir`. -/
def mkdir (provider : JsonFile) (path : Str) (recursive : Bool) : JsonFile × Option FileError :=
  let made := makeDirectory provider.root (normalizePath path) path recursive
  let provider := { provider with root := made.1 }
  (if made.2.2 then provider else save provider, made.2.1)

/-- `remove`. -/
def remove (provider : JsonFile) (path : Str) (recursive : Bool) : JsonFile × Option FileError :=
  if hnorm : normalizePath path = [] then (provider, some (.permission path))
  else match removeNode provider.root (normalizePath path) path recursive hnorm with
    | (root, some e) => ({ provider with root := root }, some e)
    | (root, none) => (save { provider with root := root }, none)

/-- The JSON provider. -/
def provider : FileProvider JsonFile where
  readFile json := readNode id json.root
  writeFile := writeFile
  stat json := statNode json.root
  getDownloadStream json := readNode (fun content => [Utf8.encode content]) json.root
  uploadFile json path content := writeFile json path (.bytes content)
  list json := listNode json.root
  mkdir := mkdir
  remove := remove
  copy := copy
  move := move
  exists_ json path := (resolve json.root (normalizePath path)).isSome

end JsonFile

end CliServer
