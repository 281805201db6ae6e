import CliServer.Files.Providers
import CliServer.Lib.Process

/-!
# The S3 file provider

The provider keeps no state: its operations are programs that await the calls of an S3 client.  A path is normalised
and put behind the configured prefix; a directory is what the keys of the bucket have in common, or an empty object
whose key ends in a slash.  The client, with the bucket behind it, is a parameter.
-/

namespace CliServer

open Process

/-! ### The client -/

/-- An object of a listing: `Key` and `Size`. -/
structure S3Object where
  key : Str
  size : Option Nat
  deriving DecidableEq

/-- `Contents` and `CommonPrefixes` of an answer of `list_objects_v2`, empty where they are missing. -/
structure S3Listing where
  contents : List S3Object
  commonPrefixes : List Str
  deriving DecidableEq

/-- The calls of the client, of its bucket. -/
inductive S3Call where
  | listObjectsV2 (keyPrefix : Str) (delimiter : Option Char) (maxKeys : Option Nat)
  | getObject (key : Str)
  | putObject (key : Str) (body : List UInt8)
  | headObject (key : Str)
  | deleteObject (key : Str)
  | deleteObjects (keys : List Str)
  | copyObject (source key : Str)
  deriving DecidableEq

/-- What a call returns, or the code of the `ClientError` it raises; of `head_object`, `ContentLength`. -/
abbrev S3Call.Answer : S3Call → Type
  | .listObjectsV2 _ _ _ => Except Str S3Listing
  | .getObject _ => Except Str (List UInt8)
  | .headObject _ => Except Str (Option Nat)
  | _ => Except Str Unit

/-- What an operation raises: an error of the file providers, or the `ClientError`. -/
inductive S3Error where
  | storage (error : FileError)
  | client (code : Str)
  deriving DecidableEq

abbrev S3Process (α : Type) : Type := Process S3Call S3Call.Answer S3Error α

/-- A client with its bucket: a call is answered, and changes what is in the bucket. -/
abbrev S3Client (σ : Type) : Type := σ → (c : S3Call) → c.Answer × σ

namespace S3

/-! ### Calls -/

abbrev listObjectsV2 (keyPrefix : Str) (delimiter : Option Char) (maxKeys : Option Nat) :
    S3Process (Except Str S3Listing) :=
  call (S3Call.listObjectsV2 keyPrefix delimiter maxKeys)

abbrev getObject (key : Str) : S3Process (Except Str (List UInt8)) := call (S3Call.getObject key)

abbrev putObject (key : Str) (body : List UInt8) : S3Process (Except Str Unit) := call (S3Call.putObject key body)

abbrev headObject (key : Str) : S3Process (Except Str (Option Nat)) := call (S3Call.headObject key)

abbrev deleteObject (key : Str) : S3Process (Except Str Unit) := call (S3Call.deleteObject key)

abbrev deleteObjects (keys : List Str) : S3Process (Except Str Unit) := call (S3Call.deleteObjects keys)

abbrev copyObject (source key : Str) : S3Process (Except Str Unit) := call (S3Call.copyObject source key)

/-- A call whose `ClientError` is not caught. -/
def request {α : Type} : Except Str α → S3Process α
  | .ok a => pure a
  | .error code => raise (.client code)

def notFound {α : Type} (path : Str) : S3Process α := raise (.storage (.notFound path))

def notADirectory {α : Type} (path : Str) : S3Process α := raise (.storage (.notADirectory path))

def isADirectory {α : Type} (path : Str) : S3Process α := raise (.storage (.isADirectory path))

/-! ### Keys -/

/-- `self._prefix`. -/
def configuredPrefix (option : Option Str) : Str :=
  let text := stripSlashes (option.getD [])
  if text = [] then [] else text ++ ['/']

/-- `_normalize_path`. -/
def normalize (path : Str) : Str := ['/'].intercalate ((normalizePath path).map Name.text)

variable (pre : Str)

/-- `_to_key`. -/
def toKey (norm : Str) : Str := if norm = [] then pre.rdropWhile (· = '/') else pre ++ norm

/-- `_dir_key`. -/
def dirKey (norm : Str) : Str :=
  let key := toKey pre norm
  if key.getLast? = some '/' then key else key ++ ['/']

/-- `_dir_prefix`. -/
def dirPrefix (norm : Str) : Str := if norm = [] then pre else pre ++ norm ++ ['/']

/-! ### The operations -/

/-- `_is_file`. -/
def isFile (norm : Str) : S3Process Bool := do
  match ← headObject (toKey pre norm) with
  | .ok _ => return true
  | .error _ => return false

/-- One round of the loop over the directories of a listing. -/
def directoryEntry (dir common : Str) : Option FileEntry :=
  let name := (common.drop dir.length).rdropWhile (· = '/')
  if name = [] then none else some ⟨name, .directory, 0, some (permissionsOf .directory)⟩

/-- One round of the loop over the files of a listing, which leaves out the marker of the directory. -/
def fileEntry (dir : Str) (object : S3Object) : Option FileEntry :=
  let name := object.key.drop dir.length
  if object.key = dir ∨ name = [] ∨ name.getLast? = some '/' then none
  else some ⟨name, .file, object.size.getD 0, some (permissionsOf .file)⟩

/-- `list`. -/
def list (path : Str) : S3Process (List FileEntry) := do
  let norm := normalize path
  let dir := dirPrefix pre norm
  let response ← request (← listObjectsV2 dir (some '/') none)
  if response.contents = [] ∧ response.commonPrefixes = [] then
    if norm = [] then return []
    else if ← isFile pre norm then notADirectory path
    else notFound path
  else return sortedEntries (response.commonPrefixes.filterMap (directoryEntry dir) ++
    response.contents.filterMap (fileEntry dir))

/-- `get_object`, of `read_file` and `get_download_stream`. -/
def getBody (path : Str) : S3Process (List UInt8) := do
  let norm := normalize path
  if norm = [] then isADirectory path
  else match ← getObject (toKey pre norm) with
    | .ok body => return body
    | .error code => if code = "NoSuchKey".toList then notFound path else raise (.client code)

/-- `read_file`. -/
def readFile (path : Str) : S3Process Str := do
  let body ← getBody pre path
  return Utf8.decode body

/-- `get_download_stream`, with the chunks that its `_stream` yields. -/
def getDownloadStream (path : Str) : S3Process (List (List UInt8)) := do
  let body ← getBody pre path
  return body.toChunks 8192

/-- `write_file`, and `upload_file`. -/
def writeFile (path : Str) (content : Content) : S3Process Unit := do
  let norm := normalize path
  if norm = [] then isADirectory path
  else request (← putObject (toKey pre norm) content.raw)

/-- The last lines of `stat`: whether something is below the path. -/
def statBelow (path norm : Str) : S3Process FileEntry := do
  let response ← request (← listObjectsV2 (dirPrefix pre norm) none (some 1))
  if response.contents = [] ∧ response.commonPrefixes = [] then notFound path
  else return ⟨baseName norm, .directory, 0, some (permissionsOf .directory)⟩

/-- The lines of `stat` that ask for the marker of a directory. -/
def statMarker (path norm : Str) : S3Process FileEntry := do
  match ← headObject (dirKey pre norm) with
  | .ok _ => return ⟨baseName norm, .directory, 0, some (permissionsOf .directory)⟩
  | .error code => if code = "404".toList then statBelow pre path norm else raise (.client code)

/-- `stat`. -/
def stat (path : Str) : S3Process FileEntry := do
  let norm := normalize path
  if norm = [] then return ⟨['/'], .directory, 0, some (permissionsOf .directory)⟩
  else match ← headObject (toKey pre norm) with
    | .ok length => return ⟨baseName norm, .file, length.getD 0, some (permissionsOf .file)⟩
    | .error code => if code = "404".toList then statMarker pre path norm else raise (.client code)

/-- `mkdir`; `recursive` makes no difference. -/
def mkdir (path : Str) : S3Process Unit := do
  let norm := normalize path
  if norm = [] then return ()
  else request (← putObject (dirKey pre norm) [])

/-- The lines of `remove` for a directory. -/
def removeDirectory (path norm : Str) (recursive : Bool) : S3Process Unit := do
  let response ← request (← listObjectsV2 (dirPrefix pre norm) none none)
  match response.contents with
  | [] => notFound path
  | object :: objects =>
    if recursive = false ∧ objects ≠ [] then notADirectory path
    -- one object alone has to be the marker
    else if recursive = false ∧ object.key.getLast? ≠ some '/' then notADirectory path
    else request (← deleteObjects ((object :: objects).map S3Object.key))

/-- `remove`. -/
def remove (path : Str) (recursive : Bool) : S3Process Unit := do
  let norm := normalize path
  if norm = [] then notFound path
  else if ← isFile pre norm then request (← deleteObject (toKey pre norm))
  else removeDirectory pre path norm recursive

/-- `copy`. -/
def copy (src dest : Str) : S3Process Unit := do
  let srcNorm := normalize src
  let destNorm := normalize dest
  if srcNorm = [] then notFound src
  else if destNorm = [] then isADirectory dest
  else match ← copyObject (toKey pre srcNorm) (toKey pre destNorm) with
    | .ok _ => return ()
    | .error code => if code = "NoSuchKey".toList then notFound src else raise (.client code)

/-- `move`. -/
def move (src dest : Str) : S3Process Unit := do
  copy pre src dest
  request (← deleteObject (toKey pre (normalize src)))

/-- The last lines of `exists`. -/
def existsBelow (norm : Str) : S3Process Bool := do
  let response ← request (← listObjectsV2 (dirPrefix pre norm) none (some 1))
  return !(decide (response.contents = []) && decide (response.commonPrefixes = []))

/-- `exists`. -/
def exists_ (path : Str) : S3Process Bool := do
  let norm := normalize path
  if norm = [] then return true
  else if ← isFile pre norm then return true
  else match ← headObject (dirKey pre norm) with
    | .ok _ => return true
    | .error _ => existsBelow pre norm

/-- The program of an operation. -/
def program : FileOp → S3Process FileOutcome
  | .list path => do return .listing (← list pre path)
  | .readFile path => do return .text (← readFile pre path)
  | .writeFile path content => do writeFile pre path content; return .done
  | .stat path => do return .stats (← stat pre path)
  | .exists_ path => do return .flag (← exists_ pre path)
  | .mkdir path _ => do mkdir pre path; return .done
  | .remove path recursive => do remove pre path recursive; return .done
  | .copy src dest => do copy pre src dest; return .done
  | .move src dest => do move pre src dest; return .done
  | .getDownloadStream path => do return .stream (← getDownloadStream pre path)
  | .uploadFile path content => do writeFile pre path (.bytes content); return .done

end S3

end CliServer
