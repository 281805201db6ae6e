import CliServer.Lib.Json
import CliServer.Lib.Utf8
import CliServer.Text

/-!
# The JSON provider and its file

The JSON provider with its `_FileNode` objects as `to_dict` and `from_dict` write and read them, and the text of its
file. Names and contents are Python's texts, in which a surrogate may stand alone; `encode("utf-8")` raises on it.  A
call takes the time once.
-/

namespace CliServer

open Json (CodePoint Text ofChars)

/-- `_FileNode`; `permissions` follows from the type (`__post_init__`). -/
structure FileNode where
  name : Text
  type : Text
  content : Text
  children : List FileNode
  createdAt : Text
  modifiedAt : Text
  size : Nat

def fileType : Text := ofChars ['f', 'i', 'l', 'e']

def directoryType : Text := ofChars ['d', 'i', 'r', 'e', 'c', 't', 'o', 'r', 'y']

/-- The text of `isoformat()`. -/
structure Stamp where
  text : Text
  ne_nil : text ≠ []
  ascii : ∀ c ∈ text, c.val < 0x80

/-- What the provider raises: the errors of the file providers with the path they name, and `UnicodeEncodeError`. -/
inductive FileStorageError where
  | notFound (path : Text)
  | permission (path : Text)
  | exists (path : Text)
  | isADirectory (path : Text)
  | notADirectory (path : Text)
  | unicodeEncode
  deriving DecidableEq

/-! ### `to_dict` and `from_dict` -/

def nameKey : Text := ofChars ['n', 'a', 'm', 'e']
def typeKey : Text := ofChars ['t', 'y', 'p', 'e']
def contentKey : Text := ofChars ['c', 'o', 'n', 't', 'e', 'n', 't']
def childrenKey : Text := ofChars ['c', 'h', 'i', 'l', 'd', 'r', 'e', 'n']
def createdAtKey : Text := ofChars ['c', 'r', 'e', 'a', 't', 'e', 'd', '_', 'a', 't']
def modifiedAtKey : Text := ofChars ['m', 'o', 'd', 'i', 'f', 'i', 'e', 'd', '_', 'a', 't']
def sizeKey : Text := ofChars ['s', 'i', 'z', 'e']
def permissionsKey : Text := ofChars ['p', 'e', 'r', 'm', 'i', 's', 's', 'i', 'o', 'n', 's']

/-- The permissions that `__post_init__` sets. -/
def permissionsText (type : Text) : Text :=
  if type = directoryType then ofChars ['d', 'r', 'w', 'x', 'r', '-', 'x', 'r', '-', 'x']
  else ofChars ['-', 'r', 'w', '-', 'r', '-', '-', 'r', '-', '-']

mutual

/-- `to_dict`. -/
def FileNode.toDict : FileNode → Json
  | ⟨name, type, content, children, createdAt, modifiedAt, size⟩ =>
    .obj [(nameKey, .str name), (typeKey, .str type), (contentKey, .str content),
      (childrenKey, .arr (toDicts children)),
      (createdAtKey, .str createdAt), (modifiedAtKey, .str modifiedAt), (sizeKey, .num size),
      (permissionsKey, .str (permissionsText type))]

def toDicts : List FileNode → List Json
  | [] => []
  | child :: children => child.toDict :: toDicts children

end

/-- A member of a dictionary: the last one that was written under the key. -/
def member (key : Text) (members : List (Text × Json)) : Option Json := members.reverse.lookup key

def text? : Json → Option Text
  | .str s => some s
  | _ => none

def number? : Json → Option Nat
  | .num n => some n
  | _ => none

/-- `__post_init__`: without a time, it is now. -/
def FileNode.postInit (now : Text) (node : FileNode) : FileNode :=
  if node.createdAt = [] then { node with createdAt := now, modifiedAt := now } else node

mutual

/-- `from_dict`. -/
def fromDict (now : Text) : Json → Option FileNode
  | .obj members => do
    let name ← (member nameKey members).bind text?
    let type ← (member typeKey members).bind text?
    let content ← ((member contentKey members).map text?).getD (some [])
    let createdAt ← ((member createdAtKey members).map text?).getD (some [])
    let modifiedAt ← ((member modifiedAtKey members).map text?).getD (some [])
    let size ← ((member sizeKey members).map number?).getD (some 0)
    let children ← childrenOf now members
    return FileNode.postInit now ⟨name, type, content, children, createdAt, modifiedAt, size⟩
  | _ => none

/-- The nodes of `data.get("children", [])`. -/
def childrenOf (now : Text) : List (Text × Json) → Option (List FileNode)
  | [] => some []
  | (key, value) :: members =>
    if key = childrenKey ∧ (member childrenKey members).isNone then
      match value with
      | .arr items => fromDicts now items
      | _ => none
    else childrenOf now members

def fromDicts (now : Text) : List Json → Option (List FileNode)
  | [] => some []
  | item :: items => do
    let child ← fromDict now item
    let children ← fromDicts now items
    return child :: children

end

/-- `_load`, of a file that exists. -/
def loadTree (now : Text) (text : List Char) : Option FileNode := (Json.load text).bind (fromDict now)

/-! ### Nodes -/

namespace FileNode

/-- `get_child`. -/
def getChild (node : FileNode) (name : Text) : Option FileNode := node.children.find? (·.name = name)

/-- `add_child`. -/
def addChild (node child : FileNode) : FileNode := { node with children := node.children ++ [child] }

/-- `remove_child`. -/
def removeChild (node : FileNode) (name : Text) : FileNode :=
  { node with children := node.children.filter (·.name ≠ name) }

def setContent (node : FileNode) (text : Text) : FileNode := { node with content := text }

/-- The three lines of `write_file` that write to an existing file. -/
def setFile (node : FileNode) (text : Text) (size : Nat) (now : Text) : FileNode :=
  { node.setContent text with size := size, modifiedAt := now }

end FileNode

/-- Changes the first node of a name. -/
def replaceFirst (name : Text) (f : FileNode → FileNode) : List FileNode → List FileNode
  | [] => []
  | child :: children => if child.name = name then f child :: children else child :: replaceFirst name f children

/-- Changes the node that is found at a path. -/
def alterAt (f : FileNode → FileNode) : List Text → FileNode → FileNode
  | [], node => f node
  | part :: parts, node => { node with children := replaceFirst part (alterAt f parts) node.children }

/-- `_resolve`. -/
def resolveNode : List Text → FileNode → Option FileNode
  | [], node => some node
  | part :: parts, node =>
    match node.getChild part with
    | none => none
    | some child => if node.type = directoryType then resolveNode parts child else none

/-- `_FileNode(name=name, type="directory")`. -/
def newDirectory (now : Stamp) (name : Text) : FileNode := ⟨name, directoryType, [], [], now.text, now.text, 0⟩

/-- `_ensure_parents`: the tree it leaves, and the last node or the error. -/
def ensureNodes (originalPath : Text) (create : Bool) (now : Stamp) :
    List Text → FileNode → FileNode × Except FileStorageError FileNode
  | [], node => (node, .ok node)
  | part :: parts, node =>
    match node.getChild part with
    | none =>
      if create then
        let made := ensureNodes originalPath create now parts (newDirectory now part)
        (node.addChild made.1, made.2)
      else (node, .error (.notFound originalPath))
    | some child =>
      if child.type = directoryType then
        let made := ensureNodes originalPath create now parts child
        ({ node with children := replaceFirst part (fun _ => made.1) node.children }, made.2)
      else (node, .error (.notADirectory originalPath))

mutual

/-- `_deep_copy`. -/
def FileNode.deepCopy (now : Stamp) (newName : Text) : FileNode → FileNode
  | ⟨_, type, content, children, _, _, size⟩ =>
    ⟨newName, type, content, copyChildren now children, now.text, now.text, size⟩

def copyChildren (now : Stamp) : List FileNode → List FileNode
  | [] => []
  | child :: children => child.deepCopy now child.name :: copyChildren now children

end

/-! ### Paths and contents -/

def slashPoint : CodePoint := Json.ofChar '/'

def dotPoint : CodePoint := Json.ofChar '.'

/-- `strip` of the code points of a kind. -/
def stripBy (p : CodePoint → Bool) (s : Text) : Text := (s.dropWhile p).rdropWhile p

/-- One round of the loop of `_normalize_path`. -/
def addSegment (parts : List Text) (segment : Text) : List Text :=
  if segment = [] ∨ segment = [dotPoint] then parts
  else if segment = [dotPoint, dotPoint] then parts.dropLast
  else parts ++ [segment]

/-- `_normalize_path`. -/
def normalizeText (path : Text) : List Text :=
  let path := stripBy (fun c => isSpace (Char.ofNat c.val)) (stripBy (· = slashPoint) path)
  if path = [] ∨ path = [dotPoint] then [] else (path.splitOn slashPoint).foldl addSegment []

/-- What `write_file` is given. -/
inductive FileContent where
  | text (s : Text)
  | bytes (raw : List UInt8)

/-- `content.decode("utf-8", errors="replace")` of bytes. -/
def FileContent.decoded : FileContent → Text
  | .text s => s
  | .bytes raw => ofChars (Utf8.decode raw)

def isSurrogate (c : CodePoint) : Bool := 0xD800 ≤ c.val && c.val < 0xE000

/-- The number of bytes of a code point. -/
def codePointSize (c : CodePoint) : Nat :=
  if c.val < 0x80 then 1 else if c.val < 0x800 then 2 else if c.val < 0x10000 then 3 else 4

/-- `len(text.encode("utf-8"))`; `none`: it raises. -/
def encodedLength? (s : Text) : Option Nat := if s.any isSurrogate then none else some (s.map codePointSize).sum

/-! ### The provider -/

/-- The provider: its tree, and the text of its file, where there is one. -/
structure JsonFileStorage where
  root : FileNode
  file : Option (List Char)

namespace JsonFileStorage

/-- A provider whose file does not exist. -/
def start (now : Stamp) : JsonFileStorage := ⟨newDirectory now [], none⟩

variable (s : JsonFileStorage)

/-- `_save`. -/
def save : JsonFileStorage := { s with file := some (Json.dump s.root.toDict) }

/-- A new provider on the file. -/
def reopen (now : Stamp) : Option JsonFileStorage :=
  match s.file with
  | none => some { s with root := newDirectory now [] }
  | some text => (loadTree now.text text).map fun root => { s with root := root }

/-- `write_file`, and `upload_file`. -/
def writeFile (now : Stamp) (path : Text) (content : FileContent) : JsonFileStorage × Option FileStorageError :=
  let parts := normalizeText path
  if hparts : parts = [] then (s, some (.isADirectory path))
  else
    let fileName := parts.getLast hparts
    match ensureNodes path true now parts.dropLast s.root with
    | (root, .error e) => ({ s with root := root }, some e)
    | (root, .ok parent) =>
      let text := content.decoded
      match parent.getChild fileName with
      | some existing =>
        if existing.type = directoryType then ({ s with root := root }, some (.isADirectory path))
        else match encodedLength? text with
          -- the content is set already
          | none => ({ s with root := alterAt (·.setContent text) parts root }, some .unicodeEncode)
          | some size => (save { s with root := alterAt (·.setFile text size now.text) parts root }, none)
      | none =>
        match encodedLength? text with
        | none => ({ s with root := root }, some .unicodeEncode)
        | some size =>
          let child : FileNode := ⟨fileName, fileType, text, [], now.text, now.text, size⟩
          (save { s with root := alterAt (·.addChild child) parts.dropLast root }, none)

/-- `mkdir`. -/
def mkdir (now : Stamp) (path : Text) (recursive : Bool) : JsonFileStorage × Option FileStorageError :=
  let parts := normalizeText path
  if hparts : parts = [] then (s, none)
  else if recursive then
    match ensureNodes path true now parts s.root with
    | (root, .error e) => ({ s with root := root }, some e)
    | (root, .ok _) => (save { s with root := root }, none)
  else
    match ensureNodes path false now parts.dropLast s.root with
    | (root, .error e) => ({ s with root := root }, some e)
    | (root, .ok parent) =>
      match parent.getChild (parts.getLast hparts) with
      | some existing =>
        if existing.type = directoryType then ({ s with root := root }, none)
        else ({ s with root := root }, some (.exists path))
      | none =>
        let child := newDirectory now (parts.getLast hparts)
        (save { s with root := alterAt (·.addChild child) parts.dropLast root }, none)

/-- `remove`. -/
def remove (path : Text) (recursive : Bool) : JsonFileStorage × Option FileStorageError :=
  let parts := normalizeText path
  if hparts : parts = [] then (s, some (.permission path))
  else match (resolveNode parts.dropLast s.root).bind (·.getChild (parts.getLast hparts)) with
    | none => (s, some (.notFound path))
    | some node =>
      if node.type = directoryType ∧ node.children ≠ [] ∧ recursive = false then (s, some (.notADirectory path))
      else (save { s with root := alterAt (·.removeChild (parts.getLast hparts)) parts.dropLast s.root }, none)

/-- The lines of `copy` and `move` that put the copy at `dest`; `srcNode` is the object that was found at `src`. -/
def putNode (now : Stamp) (root srcNode : FileNode) (src dest : List Text) (hdest : dest ≠ []) : FileNode :=
  let name := dest.getLast hdest
  let removed := alterAt (·.removeChild name) dest.dropLast root
  -- the object has the directories that were just made in it, and stays what it is when it goes with what was removed
  let srcNode := (resolveNode src removed).getD ((resolveNode src root).getD srcNode)
  alterAt (·.addChild (srcNode.deepCopy now name)) dest.dropLast removed

/-- `copy`. -/
def copy (now : Stamp) (src dest : Text) : JsonFileStorage × Option FileStorageError :=
  match resolveNode (normalizeText src) s.root with
  | none => (s, some (.notFound src))
  | some srcNode =>
    let parts := normalizeText dest
    if hparts : parts = [] then (s, some (.isADirectory dest))
    else match ensureNodes dest true now parts.dropLast s.root with
      | (root, .error e) => ({ s with root := root }, some e)
      | (root, .ok _) => (save { s with root := putNode now root srcNode (normalizeText src) parts hparts }, none)

/-- `move`. -/
def move (now : Stamp) (src dest : Text) : JsonFileStorage × Option FileStorageError :=
  let srcParts := normalizeText src
  if hsrc : srcParts = [] then (s, some (.permission src))
  else match resolveNode srcParts s.root with
    | none => (s, some (.notFound src))
    | some srcNode =>
      let parts := normalizeText dest
      if hparts : parts = [] then (s, some (.isADirectory dest))
      else match ensureNodes dest true now parts.dropLast s.root with
        | (root, .error e) => ({ s with root := root }, some e)
        | (root, .ok _) =>
          let root := putNode now root srcNode srcParts parts hparts
          -- where the old location is still there
          let root := match resolveNode srcParts.dropLast root with
            | none => root
            | some _ => alterAt (·.removeChild (srcParts.getLast hsrc)) srcParts.dropLast root
          (save { s with root := root }, none)

end JsonFileStorage

/-- The calls that may change something; a provider on the same file can be made anew. -/
inductive JsonCall where
  | writeFile (path : Text) (content : FileContent)
  | mkdir (path : Text) (recursive : Bool)
  | remove (path : Text) (recursive : Bool)
  | copy (src dest : Text)
  | move (src dest : Text)
  | reopen

/-- One call at a time; `none`: the file cannot be loaded. -/
def jsonStep (s : JsonFileStorage) : JsonCall × Stamp → Option JsonFileStorage
  | (.writeFile path content, now) => some (s.writeFile now path content).1
  | (.mkdir path recursive, now) => some (s.mkdir now path recursive).1
  | (.remove path recursive, _) => some (s.remove path recursive).1
  | (.copy src dest, now) => some (s.copy now src dest).1
  | (.move src dest, now) => some (s.move now src dest).1
  | (.reopen, now) => s.reopen now

end CliServer
