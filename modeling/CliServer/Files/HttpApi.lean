import CliServer.Files.SqliteTree
import CliServer.Files.TreeStores

/-!
# The file system over HTTP

The handlers of the file system's routes call one operation of a provider each, and answer with the status of the
errors that they list.  An error that a handler does not list escapes it (`handled_iff`).  For the in-memory and the
SQLite provider, `router_handles_iff` says when that happens.
-/

namespace CliServer

open NamedTree

/-- `str` of the error; of a `KeyError`, up to the escapes. -/
def FileError.message : FileError → Str
  | .notFound path => "Path not found: ".toList ++ path
  | .permission path => "Access denied: ".toList ++ path
  | .exists path => "Path already exists: ".toList ++ path
  | .notADirectory path => "Not a directory: ".toList ++ path
  | .isADirectory path => "Is a directory: ".toList ++ path
  | .nameError => "name 'FileStoragePermissionError' is not defined".toList
  | .keyError name => '\'' :: name ++ ['\'']
  | .operational => "LIKE or GLOB pattern too complex".toList

/-- `HTTPException`. -/
structure HttpException where
  status : Nat
  detail : Str
  deriving DecidableEq

/-- `_map_provider_error`. -/
def mapProviderError (e : FileError) : HttpException where
  status := match e with
    | .notFound _ => 404
    | .permission _ => 403
    | .notADirectory _ | .isADirectory _ => 400
    | .exists _ => 409
    | _ => 500
  detail := e.message

/-! ### Requests -/

/-- What `_read_upload` reads of a request: its `content-length`, if that is a number, how many bytes come, and the
fields `file` and `path` of the form, where they are a file and a text. -/
structure UploadRequest where
  contentLength : Option Nat
  bodyLength : Nat
  file : Option (List UInt8)
  path : Option Str

inductive FileRequest where
  | list (path : Str)
  | readFile (path : Str)
  | stat (path : Str)
  | download (path : Str)
  | upload (request : UploadRequest)
  /-- A body without `recursive` is one with `true`. -/
  | mkdir (path : Option Str) (recursive : Bool)
  | remove (path : Str) (recursive : Bool)

/-- What escapes a handler: an error of the provider, or that a header is not Latin-1. -/
inductive Escaped where
  | provider (e : FileError)
  | unicodeEncode

/-- What a handler returns. -/
inductive FileBody where
  | entries (entries : List FileEntry)
  | content (text : Str)
  | info (stat : FileEntry)
  | stream (chunks : List (List UInt8)) (contentDisposition : Str)
  | status (path status : Str)

inductive FileAnswer where
  | ok (body : FileBody)
  | http (e : HttpException)
  | escaped (e : Escaped)

namespace FileRouter

/-! ### Handlers -/

def multipartOverhead : Nat := 1024 * 1024

/-- `_too_large`. -/
def tooLarge (maxBytes : Nat) : HttpException :=
  ⟨413, "File exceeds the maximum upload size of ".toList ++ (toString maxBytes).toList ++ " bytes".toList⟩

/-- `_read_upload`. -/
def readUpload (maxBytes : Nat) (request : UploadRequest) : Except HttpException (Str × List UInt8) :=
  let bodyLimit := maxBytes + multipartOverhead
  if request.contentLength.any fun n => bodyLimit < n then .error (tooLarge maxBytes)
  else if bodyLimit < request.bodyLength then .error (tooLarge maxBytes)
  else match request.file, request.path with
    | some contents, some path =>
      if path = [] then .error ⟨422, "'file' and 'path' form fields are required".toList⟩
      else if maxBytes < contents.length then .error (tooLarge maxBytes)
      else .ok (path, contents)
    | _, _ => .error ⟨422, "'file' and 'path' form fields are required".toList⟩

/-- `path.rstrip("/").rsplit("/", 1)[-1] or "download"`. -/
def downloadName (path : Str) : Str :=
  let name := baseName (path.rdropWhile (· = '/'))
  if name = [] then "download".toList else name

/-- The header can be encoded. -/
def IsLatin1 (s : Str) : Prop := ∀ c ∈ s, c.toNat < 256

instance (s : Str) : Decidable (IsLatin1 s) := List.decidableBAll _ s

/-- The errors that the handler of a request lists. -/
def listed : FileRequest → List ErrorClass
  | .list _ => [.permission, .notFound, .notADirectory]
  | .readFile _ => [.permission, .notFound, .isADirectory]
  | .stat _ => [.permission, .notFound]
  | .download _ => [.permission, .notFound, .isADirectory]
  | .upload _ => [.permission, .notFound, .isADirectory]
  | .mkdir _ _ => [.permission, .notFound, .exists_]
  | .remove _ _ => [.permission, .notFound]

/-- The answer to a request for which the provider gives this result. -/
def answer {α : Type} (request : FileRequest) (body : α → FileAnswer) : Except FileError α → FileAnswer
  | .ok a => body a
  | .error e => if e.errorClass ∈ listed request then .http (mapProviderError e) else .escaped (.provider e)

/-- The response of `download_file`, whose headers are encoded as it is made. -/
def streamed (path : Str) (chunks : List (List UInt8)) : FileAnswer :=
  if IsLatin1 (downloadName path) then
    .ok (.stream chunks ("attachment; filename=\"".toList ++ downloadName path ++ "\"".toList))
  else .escaped .unicodeEncode

/-- The result of an operation that returns nothing. -/
def unitResult : Option FileError → Except FileError Unit
  | none => .ok ()
  | some e => .error e

def error? {α : Type} : Except FileError α → Option FileError
  | .ok _ => none
  | .error e => some e

section

variable {σ : Type} (provider : FileProvider σ) (maxUploadBytes : Nat) (s : σ)

/-- The handlers of `_create_provider_router`. -/
def handle (request : FileRequest) : σ × FileAnswer :=
  match request with
  | .list path => (s, answer request (fun entries => .ok (.entries entries)) (provider.list s path))
  | .readFile path => (s, answer request (fun content => .ok (.content content)) (provider.readFile s path))
  | .stat path => (s, answer request (fun info => .ok (.info info)) (provider.stat s path))
  | .download path => (s, answer request (streamed path) (provider.getDownloadStream s path))
  | .upload upload =>
    match readUpload maxUploadBytes upload with
    | .error e => (s, .http e)
    | .ok (path, contents) =>
      let run := provider.uploadFile s path contents
      (run.1, answer request (fun _ => .ok (.status path "uploaded".toList)) (unitResult run.2))
  | .mkdir rawPath recursive =>
    let path := rawPath.getD []
    if path = [] then (s, .http ⟨400, "'path' is required".toList⟩)
    else
      let run := provider.mkdir s path recursive
      (run.1, answer request (fun _ => .ok (.status path "created".toList)) (unitResult run.2))
  | .remove path recursive =>
    let run := provider.remove s path recursive
    (run.1, answer request (fun _ => .ok (.status path "deleted".toList)) (unitResult run.2))

/-- The error that the provider raises in a handler. -/
def raised : FileRequest → Option FileError
  | .list path => error? (provider.list s path)
  | .readFile path => error? (provider.readFile s path)
  | .stat path => error? (provider.stat s path)
  | .download path => error? (provider.getDownloadStream s path)
  | .upload upload =>
    match readUpload maxUploadBytes upload with
    | .error _ => none
    | .ok (path, contents) => (provider.uploadFile s path contents).2
  | .mkdir rawPath recursive => if rawPath.getD [] = [] then none else (provider.mkdir s (rawPath.getD []) recursive).2
  | .remove path recursive => (provider.remove s path recursive).2

/-- An answer is a success where the provider raised nothing, or has a status of the 4xx, that of the error if it
raised one. -/
def Proper (raised : Option FileError) : FileAnswer → Prop
  | .ok _ => raised = none
  | .http e => (400 ≤ e.status ∧ e.status < 500) ∧ ∀ error, raised = some error → e = mapProviderError error
  | .escaped _ => False

/-- The handler answers the request as it should. -/
def Handled (request : FileRequest) : Prop :=
  Proper (raised provider maxUploadBytes s request) (handle provider maxUploadBytes s request).2

/-- The name that a download is given can be put in its header. -/
def Nameable (raised : Option FileError) : FileRequest → Prop
  | .download path => raised = none → IsLatin1 (downloadName path)
  | _ => True

end

variable {σ : Type} {provider : FileProvider σ} {maxUploadBytes : Nat} {s : σ} {request : FileRequest}

/-- The errors that are listed have a status of the 4xx. -/
private theorem status_of_listed {e : FileError} (h : e.errorClass ∈ listed request) :
    400 ≤ (mapProviderError e).status ∧ (mapProviderError e).status < 500 := by
  cases e with
  | nameError => cases request <;> simp [listed, FileError.errorClass] at h
  | keyError name => cases request <;> simp [listed, FileError.errorClass] at h
  | operational => cases request <;> simp [listed, FileError.errorClass] at h
  | _ => simp [mapProviderError]

private theorem proper_answer_iff {α : Type} {body : α → FileAnswer} {result : Except FileError α} {Q : Prop}
    (hbody : ∀ a, result = .ok a → (Proper none (body a) ↔ Q)) (herror : error? result ≠ none → Q) :
    Proper (error? result) (answer request body result) ↔
      (∀ e, error? result = some e → e.errorClass ∈ listed request) ∧ Q := by
  cases result with
  | ok a =>
    have hnone : ∀ e, error? (Except.ok (ε := FileError) a) = some e → e.errorClass ∈ listed request := by
      intro e he
      cases he
    exact (hbody a rfl).trans (and_iff_right hnone).symm
  | error e =>
    rw [and_iff_left (herror (Option.some_ne_none e))]
    unfold answer
    dsimp only
    by_cases hlisted : e.errorClass ∈ listed request
    · rw [if_pos hlisted]
      refine iff_of_true ⟨status_of_listed hlisted, fun error herr => ?_⟩ fun error herr => ?_
      · obtain rfl := Option.some.inj herr
        rfl
      · obtain rfl := Option.some.inj herr
        exact hlisted
    · rw [if_neg hlisted]
      exact iff_of_false id fun h => hlisted (h e rfl)

/-- Of an operation that returns nothing. -/
private theorem proper_unit_iff (body : FileBody) (e : Option FileError) :
    Proper e (answer request (fun _ => .ok body) (unitResult e)) ↔
    ∀ error, e = some error → error.errorClass ∈ listed request := by
  have hiff : Proper (error? (unitResult e)) (answer request (fun _ => .ok body) (unitResult e)) ↔
      (∀ error, error? (unitResult e) = some error → error.errorClass ∈ listed request) ∧ True :=
    proper_answer_iff (fun _ _ => iff_of_true rfl trivial) fun _ => trivial
  have herror : error? (unitResult e) = e := by cases e <;> rfl
  rw [herror, and_true] at hiff
  exact hiff

/-- A request that is refused before the provider is asked. -/
private theorem proper_refused {e : HttpException} (h : 400 ≤ e.status ∧ e.status < 500) : Proper none (.http e) :=
  ⟨h, fun _ herr => by cases herr⟩

private theorem status_readUpload {upload : UploadRequest} {e : HttpException}
    (h : readUpload maxUploadBytes upload = .error e) :
    400 ≤ e.status ∧ e.status < 500 := by
  have hlarge : 400 ≤ (tooLarge maxUploadBytes).status ∧ (tooLarge maxUploadBytes).status < 500 :=
    ⟨(by decide : 400 ≤ 413), (by decide : 413 < 500)⟩
  unfold readUpload at h
  dsimp only at h
  split at h
  · exact Except.error.inj h ▸ hlarge
  · split at h
    · exact Except.error.inj h ▸ hlarge
    · split at h
      · split at h
        · obtain rfl := Except.error.inj h
          exact ⟨(by decide : 400 ≤ 422), (by decide : 422 < 500)⟩
        · split at h
          · exact Except.error.inj h ▸ hlarge
          · cases h
      · obtain rfl := Except.error.inj h
        exact ⟨(by decide : 400 ≤ 422), (by decide : 422 < 500)⟩

private theorem proper_streamed_iff (path : Str) (chunks : List (List UInt8)) :
    Proper none (streamed path chunks) ↔ IsLatin1 (downloadName path) := by
  unfold streamed
  split
  · next h => exact iff_of_true rfl h
  · next h => exact iff_of_false id h

/-- A request is handled exactly if its handler lists the error that the provider raises, and its download has a name
for the header. -/
private theorem handled_iff : Handled provider maxUploadBytes s request ↔
    (∀ e, raised provider maxUploadBytes s request = some e → e.errorClass ∈ listed request) ∧
      Nameable (raised provider maxUploadBytes s request) request := by
  unfold Handled
  cases request with
  | list path => exact proper_answer_iff (fun _ _ => iff_of_true rfl trivial) fun _ => trivial
  | readFile path => exact proper_answer_iff (fun _ _ => iff_of_true rfl trivial) fun _ => trivial
  | stat path => exact proper_answer_iff (fun _ _ => iff_of_true rfl trivial) fun _ => trivial
  | download path =>
    refine proper_answer_iff (fun chunks hchunks => ?_) fun herr hnone => absurd hnone herr
    have hnone : raised provider maxUploadBytes s (.download path) = none := by
      rw [raised, hchunks]
      rfl
    rw [proper_streamed_iff, Nameable, hnone]
    exact (imp_iff_right rfl).symm
  | upload upload =>
    unfold handle raised
    dsimp only
    cases hread : readUpload maxUploadBytes upload with
    | error e =>
      refine iff_of_true (proper_refused (status_readUpload hread)) ⟨fun e he => ?_, trivial⟩
      cases he
    | ok fields => exact (proper_unit_iff _ _).trans (and_iff_left trivial).symm
  | mkdir rawPath recursive =>
    unfold handle raised
    dsimp only
    by_cases hpath : rawPath.getD [] = []
    · rw [if_pos hpath, if_pos hpath]
      refine iff_of_true (proper_refused ⟨(by decide : 400 ≤ 400), (by decide : 400 < 500)⟩) ⟨fun e he => ?_, trivial⟩
      cases he
    · rw [if_neg hpath, if_neg hpath]
      exact (proper_unit_iff _ _).trans (and_iff_left trivial).symm
  | remove path recursive => exact (proper_unit_iff _ _).trans (and_iff_left trivial).symm

private theorem handled_upload_iff (upload : UploadRequest) : Handled provider maxUploadBytes s (.upload upload) ↔
    ∀ fields, readUpload maxUploadBytes upload = .ok fields →
    ∀ e, (provider.uploadFile s fields.1 fields.2).2 = some e →
      e.errorClass ∈ [.permission, .notFound, .isADirectory] := by
  rw [handled_iff, raised]
  cases readUpload maxUploadBytes upload with
  | error e =>
    refine iff_of_true ⟨fun e he => ?_, trivial⟩ fun fields hfields => ?_
    · cases he
    · cases hfields
  | ok fields =>
    refine (and_iff_left trivial).trans ⟨?_, fun h => h fields rfl⟩
    rintro h fields' heq
    obtain rfl := Except.ok.inj heq
    exact h

private theorem handled_mkdir_iff (rawPath : Option Str) (recursive : Bool) :
    Handled provider maxUploadBytes s (.mkdir rawPath recursive) ↔
      (rawPath.getD [] ≠ [] → ∀ e, (provider.mkdir s (rawPath.getD []) recursive).2 = some e →
        e.errorClass ∈ [.permission, .notFound, .exists_]) := by
  rw [handled_iff, raised]
  by_cases hpath : rawPath.getD [] = []
  · rw [if_pos hpath]
    refine iff_of_true ⟨fun e he => ?_, trivial⟩ fun h => absurd hpath h
    cases he
  · rw [if_neg hpath]
    exact (and_iff_left trivial).trans (imp_iff_right hpath).symm

private theorem handled_remove_iff (path : Str) (recursive : Bool) :
    Handled provider maxUploadBytes s (.remove path recursive) ↔
      ∀ e, (provider.remove s path recursive).2 = some e → e.errorClass ∈ [.permission, .notFound] :=
  handled_iff.trans (and_iff_left trivial)

private theorem handled_download_iff (path : Str) : Handled provider maxUploadBytes s (.download path) ↔
    (∀ e, error? (provider.getDownloadStream s path) = some e →
    e.errorClass ∈ [.permission, .notFound, .isADirectory]) ∧
      (error? (provider.getDownloadStream s path) = none → IsLatin1 (downloadName path)) := handled_iff

end FileRouter

/-! ### The in-memory provider -/

private theorem not_blocked_nil {γ : Type*} {view : FileView γ} : ¬Blocked view [] := by
  rintro ⟨q, v, hq, habove, -⟩
  exact hq (List.prefix_nil.1 habove)

namespace InMemory

open FileRouter

variable {root : InMemory} {path : Str} {maxUploadBytes : Nat}

/-- A file that is read is there, or is no file. -/
private theorem readNode_listed {α : Type} (f : List UInt8 → α) :
    (∀ e, error? (readNode f root path) = some e → e.errorClass ∈ [.permission, .notFound, .isADirectory]) ∧
      (error? (readNode f root path) = none ↔ ∃ file, (node root).view (normalizePath path) = some (.leaf file)) := by
  unfold readNode
  have hview : (node root).view (normalizePath path) = (resolve root (normalizePath path)).map kind := rfl
  rw [hview]
  cases resolve root (normalizePath path) with
  | none => simp [error?, FileError.errorClass]
  | some found => cases found <;> simp [error?, FileError.errorClass, kind]

private theorem writeFile_listed (raw : List UInt8) :
    (∀ e, (writeFile root path raw).2 = some e → e.errorClass ∈ [.permission, .notFound, .isADirectory]) ↔
      ¬Blocked (node root).view (normalizePath path).dropLast := by
  unfold writeFile writeNode
  generalize normalizePath path = d
  by_cases hd : d = []
  · subst hd
    exact iff_of_true (by simp [FileError.errorClass]) not_blocked_nil
  · rcases ensureParents_error path root d.dropLast with ⟨made, hrun, hblocked, -⟩ | ⟨made, hrun, hblocked, -⟩
    · simp only [dif_neg hd, hrun]
      refine iff_of_false (fun h => ?_) (not_not_intro hblocked)
      have hmem := h _ rfl
      simp [FileError.errorClass] at hmem
    · simp only [dif_neg hd, hrun]
      refine iff_of_true ?_ hblocked
      cases resolve made d with
      | none => simp
      | some found => cases found <;> simp [FileError.errorClass]

/-- Where there is a directory, no file is in the way. -/
private theorem not_blocked_of_find {inner : InMemory} {d : Path} (h : (node root).find d = some (node inner)) :
    ¬Blocked (node root).view d := by
  rintro ⟨q, v, -, ⟨x, rfl⟩, hleaf⟩
  have hnode : (node root).view (q ++ x) = some .node := by simp [NamedTree.view, h, kind]
  by_cases hx : x = []
  · rw [hx, List.append_nil, hleaf] at hnode
    cases hnode
  · have hnode' := view_node_of_append hx (hnode ▸ Option.some_ne_none _)
    rw [hleaf] at hnode'
    cases hnode'

private theorem mkdir_listed (recursive : Bool) :
    (∀ e, (mkdir root path recursive).2 = some e → e.errorClass ∈ [.permission, .notFound, .exists_]) ↔
      ¬Blocked (node root).view (if recursive = true then normalizePath path else (normalizePath path).dropLast) := by
  unfold mkdir makeDirectory
  generalize normalizePath path = d
  by_cases hd : d = []
  · subst hd
    refine iff_of_true (by simp) ?_
    rw [List.dropLast_nil, ite_self]
    exact not_blocked_nil
  cases recursive with
  | true =>
    simp only [dif_neg hd, if_true]
    rcases ensureParents_error path root d with ⟨made, hrun, hblocked, -⟩ | ⟨made, hrun, hblocked, -⟩
    · rw [hrun]
      refine iff_of_false (fun h => ?_) (not_not_intro hblocked)
      have hmem := h _ rfl
      simp [FileError.errorClass] at hmem
    · rw [hrun]
      exact iff_of_true (by simp) hblocked
  | false =>
    simp only [dif_neg hd, Bool.false_eq_true, if_false]
    rcases existingParents_cases path root d.dropLast with
      ⟨inner, hrun, hfound⟩ | ⟨hrun, hblocked⟩ | ⟨hrun, hnone, hblocked⟩
    · rw [hrun]
      refine iff_of_true ?_ (not_blocked_of_find hfound)
      simp only
      cases inner.lookup (d.getLast hd) with
      | none => simp
      | some found => cases found <;> simp [FileError.errorClass]
    · rw [hrun]
      refine iff_of_false (fun h => ?_) (not_not_intro hblocked)
      have hmem := h _ rfl
      simp [FileError.errorClass] at hmem
    · rw [hrun]
      exact iff_of_true (by simp [FileError.errorClass]) hblocked

/-- Only what is there, and only an empty directory without `recursive`, is removed; the root is no such thing. -/
private theorem remove_listed (recursive : Bool) :
    (∀ e, (remove root path recursive).2 = some e → e.errorClass ∈ [.permission, .notFound]) ↔
      normalizePath path ≠ [] ∧
        (recursive = true ∨ ∀ n, (node root).view (normalizePath path ++ [n]) = none) := by
  unfold remove removeNode
  generalize normalizePath path = d
  by_cases hd : d = []
  · refine iff_of_false (fun h => ?_) fun h => h.1 hd
    rw [dif_pos hd] at h
    have hmem := h _ rfl
    simp [FileError.errorClass] at hmem
  rw [dif_neg hd]
  have hfind : ((resolve root d.dropLast).bind fun parent => parent.find [d.getLast hd]) = (node root).find d := by
    have happend := find_append (node root) d.dropLast [d.getLast hd]
    rw [List.dropLast_append_getLast hd] at happend
    exact happend.symm
  simp only [hfind]
  rw [and_iff_right hd]
  cases hfound : (node root).find d with
  | none =>
    refine iff_of_true (by simp [FileError.errorClass]) (.inr fun n => ?_)
    exact view_append_eq_none (view_eq_none_iff.2 hfound) [n]
  | some found =>
    have hbelow : ∀ n, (node root).view (d ++ [n]) = found.view [n] := fun n => view_append_of_find hfound [n]
    cases found with
    | leaf file =>
      refine iff_of_true (by cases recursive <;> simp) (.inr fun n => ?_)
      rw [hbelow, view_leaf_cons]
    | node children =>
      cases children with
      | nil => exact iff_of_true (by cases recursive <;> simp) (.inr fun n => by rw [hbelow]; rfl)
      | cons child children =>
        cases recursive with
        | true => exact iff_of_true (by simp) (.inl rfl)
        | false =>
          refine iff_of_false (fun h => ?_) ?_
          · have hmem := h _ rfl
            simp [FileError.errorClass] at hmem
          · rintro (h | h)
            · cases h
            · have hchild := h child.1
              rw [hbelow, view_node_cons, List.lookup_cons, beq_self_eq_true] at hchild
              obtain ⟨name, found⟩ := child
              cases found <;> simp [NamedTree.view, kind] at hchild

/-- The requests that are handled on the in-memory provider. -/
def Answers (root : InMemory) (maxUploadBytes : Nat) : FileRequest → Prop
  | .download path => (∃ file, (node root).view (normalizePath path) = some (.leaf file)) → IsLatin1 (downloadName path)
  | .upload upload => ∀ fields, readUpload maxUploadBytes upload = .ok fields →
    ¬Blocked (node root).view (normalizePath fields.1).dropLast
  | .mkdir path recursive => ¬Blocked (node root).view
    (if recursive = true then normalizePath (path.getD []) else (normalizePath (path.getD [])).dropLast)
  | .remove path recursive => normalizePath path ≠ [] ∧
    (recursive = true ∨ ∀ n, (node root).view (normalizePath path ++ [n]) = none)
  | _ => True

private theorem handled_iff_answers (request : FileRequest) :
    Handled provider maxUploadBytes root request ↔ Answers root maxUploadBytes request := by
  cases request with
  | list path =>
    refine iff_of_true (handled_iff.2 ⟨fun e he => ?_, trivial⟩) trivial
    have hlist : error? (listNode root path) = some e := he
    unfold listNode at hlist
    cases hfound : resolve root (normalizePath path) with
    | none =>
      rw [hfound] at hlist
      obtain rfl := Option.some.inj hlist
      simp [listed, FileError.errorClass]
    | some found =>
      rw [hfound] at hlist
      cases found with
      | leaf file =>
        obtain rfl := Option.some.inj hlist
        simp [listed, FileError.errorClass]
      | node children => cases hlist
  | readFile path => exact iff_of_true (handled_iff.2 ⟨(readNode_listed _).1, trivial⟩) trivial
  | stat path =>
    refine iff_of_true (handled_iff.2 ⟨fun e he => ?_, trivial⟩) trivial
    have hstat : error? (statNode root path) = some e := he
    unfold statNode at hstat
    cases hfound : resolve root (normalizePath path) with
    | none =>
      rw [hfound] at hstat
      obtain rfl := Option.some.inj hstat
      simp [listed, FileError.errorClass]
    | some found =>
      rw [hfound] at hstat
      cases hstat
  | download path =>
    have hlisted := @readNode_listed root path _ fun content => [content]
    rw [handled_download_iff]
    exact (and_iff_right hlisted.1).trans (imp_congr hlisted.2 Iff.rfl)
  | upload upload =>
    rw [handled_upload_iff]
    exact forall_congr' fun fields => imp_congr Iff.rfl (writeFile_listed fields.2)
  | mkdir path recursive =>
    rw [handled_mkdir_iff]
    by_cases hpath : path.getD [] = []
    · refine iff_of_true (fun h => absurd hpath h) ?_
      have hnil : normalizePath [] = [] := by decide
      rw [Answers, hpath, hnil, List.dropLast_nil, ite_self]
      exact not_blocked_nil
    · exact (imp_iff_right hpath).trans (mkdir_listed recursive)
  | remove path recursive => exact (handled_remove_iff path recursive).trans (remove_listed recursive)

end InMemory

/-! ### The SQLite provider -/

namespace Sqlite

open FileRouter

variable {t : Table} {path : Str} {maxUploadBytes : Nat}

private theorem ensureParents_listed (t : Table) (path : Str) :
    ((ensureParents t path).2 = none ∧ ¬Blocked t.view (sqlParts path)) ∨
      ∃ c, (ensureParents t path).2 = some (.notADirectory c) ∧ Blocked t.view (sqlParts path) := by
  rcases ensureParents_cases t path with ⟨t', hrun, hmade⟩ | ⟨t', e, p, n, rest, content, hparts, hrun, -, hleaf⟩
  · exact .inl ⟨by rw [hrun], hmade.not_blocked⟩
  · have hfile : t.view (p ++ [n]) = some (.leaf content) := by
      rw [Table.view, key_of_ne_nil (by simp)]
      exact hleaf
    have herror : (ensureParents t path).2 = some e := by rw [hrun]
    have hclass := herror
    unfold ensureParents at hclass
    simp only at hclass
    split at hclass
    · cases hclass
    · obtain ⟨c, rfl⟩ := makeParents_error hclass
      refine .inr ⟨c, herror, p ++ [n], content, by simp, ?_, hfile⟩
      rw [hparts]
      exact ⟨rest, by simp⟩

private theorem parentsOf_nil : parentsOf [] = [] := List.length_eq_zero_iff.1 (Nat.le_zero.1 (sqlParts_key []).2)

private theorem writeFile_listed (content : Content) :
    (∀ e, (writeFile t path content).2 = some e → e.errorClass ∈ [.permission, .notFound, .isADirectory]) ↔
      ¬Blocked t.view (parentsOf (sqlParts path)) := by
  unfold writeFile writeAt normalizeSql
  generalize sqlParts path = d
  by_cases hd : d = []
  · subst hd
    rw [parentsOf_nil]
    exact iff_of_true (by simp [key_eq_slash_iff, FileError.errorClass]) not_blocked_nil
  · simp only [key_eq_slash_iff, if_neg hd, ensureParent_key t hd]
    rcases ensureParents_listed t (key d.dropLast) with ⟨hnone, hblocked⟩ | ⟨c, herror, hblocked⟩
    · refine iff_of_true (fun e he => ?_) hblocked
      cases hrun : ensureParents t (key d.dropLast) with
      | mk made error =>
        rw [hrun] at he hnone
        obtain rfl : error = none := hnone
        simp only at he
        unfold writeRow at he
        split at he
        · split at he
          · obtain rfl := Option.some.inj he
            simp [FileError.errorClass]
          · cases he
        · cases he
    · refine iff_of_false (fun h => ?_) (not_not_intro hblocked)
      cases hrun : ensureParents t (key d.dropLast) with
      | mk made error =>
        rw [hrun] at h herror
        obtain rfl : error = some (.notADirectory c) := herror
        have hmem := h _ rfl
        simp [FileError.errorClass] at hmem

private theorem readText_listed {α : Type} (f : Str → α) :
    (∀ e, error? (readText f t path) = some e → e.errorClass ∈ [.permission, .notFound, .isADirectory]) ∧
      (error? (readText f t path) = none ↔ ∃ text, t.view (sqlParts path) = some (.leaf text)) := by
  unfold readText normalizeSql
  have hview : t.view (sqlParts path) = (t.select (key (sqlParts path))).map Row.kind := rfl
  rw [hview]
  cases t.select (key (sqlParts path)) with
  | none => simp [error?, FileError.errorClass]
  | some row =>
    rw [Option.map_some]
    cases htype : row.type with
    | file => simp [error?, htype, Row.kind]
    | directory => simp [error?, FileError.errorClass, htype, Row.kind]

private theorem mkdir_listed (recursive : Bool) :
    (∀ e, (mkdir t path recursive).2 = some e → e.errorClass ∈ [.permission, .notFound, .exists_]) ↔
      if recursive = true then ¬Blocked t.view (sqlParts (normalizeSql path))
      else sqlParts path = [] ∨ ∀ v, t.view (sqlParts path).dropLast ≠ some (.leaf v) := by
  unfold mkdir mkdirAt normalizeSql
  generalize sqlParts path = d
  by_cases hd : d = []
  · subst hd
    refine iff_of_true (by simp [key_eq_slash_iff]) ?_
    have hroot : sqlParts (key []) = [] := parentsOf_nil
    rw [hroot]
    split
    · exact not_blocked_nil
    · exact .inl rfl
  simp only [key_eq_slash_iff, if_neg hd]
  cases recursive with
  | true =>
    simp only [if_true]
    rcases ensureParents_listed t (key d) with ⟨hnone, hblocked⟩ | ⟨c, herror, hblocked⟩
    · exact iff_of_true (by simp [hnone]) hblocked
    · refine iff_of_false (fun h => ?_) (not_not_intro hblocked)
      have hmem := h _ herror
      simp [FileError.errorClass] at hmem
  | false =>
    simp only [Bool.false_eq_true, if_false]
    rcases checkParent_cases t path hd with ⟨hparent, hcheck⟩ | ⟨v, hparent, hcheck⟩ | ⟨hparent, hcheck⟩
    · rw [hcheck]
      exact iff_of_true (by simp [FileError.errorClass]) (.inr fun v => by rw [hparent]; exact nofun)
    · rw [hcheck]
      refine iff_of_false (fun h => ?_) ?_
      · have hmem := h _ rfl
        simp [FileError.errorClass] at hmem
      · rintro (hnil | hno)
        · exact hd hnil
        · exact hno v hparent
    · rw [hcheck]
      refine iff_of_true (fun e he => ?_) (.inr fun v => by rw [hparent]; exact nofun)
      simp only at he
      unfold makeRow at he
      split at he
      · split at he
        · obtain rfl := Option.some.inj he
          simp [FileError.errorClass]
        · cases he
      · cases he

/-- The last statement of `remove` fails if `LIKE` refuses the path and there is a row of another one. -/
private theorem deleteTree_listed (L : Like) (t : Table) (norm : Str) :
    (∀ e : FileError, (deleteTree L t norm).2 = some e → e.errorClass ∈ [.permission, .notFound]) ↔
      L.refuses (below norm) = false ∨ ∀ row ∈ t.rows, row.path = norm := by
  unfold deleteTree
  split
  · next hrefused =>
    refine iff_of_false (fun h => ?_) ?_
    · have hmem := h _ rfl
      simp [FileError.errorClass] at hmem
    · obtain ⟨hlong, row, hrow, hne⟩ := hrefused
      rintro (hshort | hsame)
      · rw [hshort] at hlong
        cases hlong
      · exact hne (hsame row hrow)
  · next hdone =>
    refine iff_of_true (by simp) ?_
    by_contra hno
    push Not at hno
    exact hdone ⟨by simpa using hno.1, hno.2⟩

/-- A directory in which rows have their parent is not removed without `recursive`, and with it nothing whose path is
too long for `LIKE`. -/
private theorem remove_listed (recursive : Bool) :
    (∀ e, (remove .sqlite t path recursive).2 = some e → e.errorClass ∈ [.permission, .notFound]) ↔
      sqlParts path = [] ∨ t.view (sqlParts path) = none ∨
        if recursive = true then
          Like.sqlite.refuses (below (normalizeSql path)) = false ∨ ∀ row ∈ t.rows, row.path = normalizeSql path
        else t.view (sqlParts path) ≠ some .node ∨ ∀ row ∈ t.rows, row.parentPath ≠ some (normalizeSql path) := by
  unfold remove removeAt normalizeSql
  generalize sqlParts path = d
  by_cases hd : d = []
  · exact iff_of_true (by simp [key_eq_slash_iff, hd, FileError.errorClass]) (.inl hd)
  simp only [key_eq_slash_iff, if_neg hd]
  have hview : t.view d = (t.select (key d)).map Row.kind := rfl
  cases hselect : t.select (key d) with
  | none =>
    rw [hselect] at hview
    exact iff_of_true (by simp [FileError.errorClass]) (.inr (.inl hview))
  | some row =>
    rw [hselect, Option.map_some] at hview
    have hsome : t.view d ≠ none := by rw [hview]; exact Option.some_ne_none _
    have hnode : t.view d = some .node ↔ row.type = .directory := by rw [hview, Option.some_inj, Row.kind_eq_node_iff]
    rw [or_iff_right hd, or_iff_right hsome]
    cases recursive with
    | true =>
      simp only [Bool.true_eq_false, false_and, and_false, if_false, if_true]
      exact deleteTree_listed .sqlite t (key d)
    | false =>
      simp only [Bool.false_eq_true, true_and, if_false]
      split
      · next hrefused =>
        refine iff_of_false (fun h => ?_) ?_
        · have hmem := h _ rfl
          simp [FileError.errorClass] at hmem
        · obtain ⟨child, hchild, hparent⟩ := List.any_eq_true.1 hrefused.2
          rintro (h | h)
          · exact h (hnode.2 hrefused.1)
          · exact h child hchild (of_decide_eq_true hparent)
      · next hrefused =>
        refine iff_of_true (by simp) ?_
        by_contra hno
        push Not at hno
        obtain ⟨hdirectory, child, hchild, hparent⟩ := hno
        exact hrefused ⟨hnode.1 hdirectory, List.any_eq_true.2 ⟨child, hchild, decide_eq_true hparent⟩⟩

/-- The requests that are handled on the SQLite provider. -/
def Answers (t : Table) (maxUploadBytes : Nat) : FileRequest → Prop
  | .download path => (∃ text, t.view (sqlParts path) = some (.leaf text)) → IsLatin1 (downloadName path)
  | .upload upload => ∀ fields, readUpload maxUploadBytes upload = .ok fields →
    ¬Blocked t.view (parentsOf (sqlParts fields.1))
  | .mkdir path recursive =>
    if recursive = true then ¬Blocked t.view (sqlParts (normalizeSql (path.getD [])))
    else sqlParts (path.getD []) = [] ∨ ∀ v, t.view (sqlParts (path.getD [])).dropLast ≠ some (.leaf v)
  | .remove path recursive => sqlParts path = [] ∨ t.view (sqlParts path) = none ∨
    if recursive = true then
      Like.sqlite.refuses (below (normalizeSql path)) = false ∨ ∀ row ∈ t.rows, row.path = normalizeSql path
    else t.view (sqlParts path) ≠ some .node ∨ ∀ row ∈ t.rows, row.parentPath ≠ some (normalizeSql path)
  | _ => True

private theorem handled_iff_answers (request : FileRequest) :
    Handled provider maxUploadBytes t request ↔ Answers t maxUploadBytes request := by
  cases request with
  | list path =>
    refine iff_of_true (handled_iff.2 ⟨fun e he => ?_, trivial⟩) trivial
    have hlist : error? (list t path) = some e := he
    unfold list listAt at hlist
    split at hlist
    · obtain rfl := Option.some.inj hlist
      simp [listed, FileError.errorClass]
    · split at hlist
      · obtain rfl := Option.some.inj hlist
        simp [listed, FileError.errorClass]
      · cases hlist
  | readFile path => exact iff_of_true (handled_iff.2 ⟨(readText_listed _).1, trivial⟩) trivial
  | stat path =>
    refine iff_of_true (handled_iff.2 ⟨fun e he => ?_, trivial⟩) trivial
    have hstat : error? (stat t path) = some e := he
    unfold stat statAt at hstat
    split at hstat
    · obtain rfl := Option.some.inj hstat
      simp [listed, FileError.errorClass]
    · cases hstat
  | download path =>
    have hlisted := @readText_listed t path _ fun text => [Utf8.encode text]
    rw [handled_download_iff]
    exact (and_iff_right hlisted.1).trans (imp_congr hlisted.2 Iff.rfl)
  | upload upload =>
    rw [handled_upload_iff]
    exact forall_congr' fun fields => imp_congr Iff.rfl (writeFile_listed (.bytes fields.2))
  | mkdir path recursive =>
    rw [handled_mkdir_iff]
    by_cases hpath : path.getD [] = []
    · refine iff_of_true (fun h => absurd hpath h) ?_
      have hnil : sqlParts [] = [] := by decide
      have hroot : sqlParts (normalizeSql []) = [] := by
        rw [normalizeSql, hnil]
        exact parentsOf_nil
      rw [Answers, hpath, hroot, hnil]
      split
      · exact not_blocked_nil
      · exact .inl rfl
    · exact (imp_iff_right hpath).trans (mkdir_listed recursive)
  | remove path recursive => exact (handled_remove_iff path recursive).trans (remove_listed recursive)

end Sqlite

namespace FileRouter

/-- On either provider a request is handled exactly if no file is in the way of the directories it makes, an existing
file that it downloads has a name in Latin-1, and no directory that is not empty is removed without `recursive`, nor
the root of the in-memory provider, nor with `recursive` what is in SQLite under a path too long for `LIKE`. -/
theorem router_handles_iff (root : InMemory) (t : Table) (maxUploadBytes : Nat) (request : FileRequest) :
    (Handled InMemory.provider maxUploadBytes root request ↔ InMemory.Answers root maxUploadBytes request) ∧
      (Handled Sqlite.provider maxUploadBytes t request ↔ Sqlite.Answers t maxUploadBytes request) :=
  ⟨InMemory.handled_iff_answers request, Sqlite.handled_iff_answers request⟩

/-- A file is uploaded below a file. -/
theorem upload_escapes :
    ¬Handled InMemory.provider 100 (InMemory.provider.run [] (.writeFile "/a".toList (.text ['1']))).1
        (.upload ⟨none, 0, some [50], some "/a/b".toList⟩) ∧
      ¬Handled Sqlite.provider 100 (Sqlite.provider.run Sqlite.initial (.writeFile "/a".toList (.text ['1']))).1
        (.upload ⟨none, 0, some [50], some "/a/b".toList⟩) :=
  ⟨fun h => h, fun h => h⟩

end FileRouter

end CliServer
