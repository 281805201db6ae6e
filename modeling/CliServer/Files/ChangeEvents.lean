import CliServer.Files.Copies
import CliServer.Files.RoundTrip
import CliServer.Files.TreeStores
import CliServer.Lib.Notices

/-!
# The events of file changes

The provider that the server uses publishes an `fs:changed` event after every operation that has changed something, with
the paths it was called with.  A client that reads again what is above and below these paths is never left with
something old for good: what it has differs from the tree only where an event on its way or a path it has yet to read
says so (`changes_announced`).
-/

namespace CliServer

open NamedTree Transition Notices

/-- The `action` of an event. -/
inductive FsAction
  | upload
  | mkdir
  | delete
  | write
  | move
  | copy
  deriving DecidableEq

/-- The data of an `fs:changed` event. -/
structure FsChanged where
  action : FsAction
  path : Str
  newPath : Option Str := none
  deriving DecidableEq

/-- The call of `_changed` after an operation. -/
def FileOp.changed : FileOp → Option FsChanged
  | .writeFile path _ => some { action := .write, path := path }
  | .mkdir path _ => some { action := .mkdir, path := path }
  | .remove path _ => some { action := .delete, path := path }
  | .copy src dest => some { action := .copy, path := src, newPath := some dest }
  | .move src dest => some { action := .move, path := src, newPath := some dest }
  | .uploadFile path _ => some { action := .upload, path := path }
  | .list _ | .readFile _ | .stat _ | .exists_ _ | .getDownloadStream _ => none

/-- An operation of `EventPublishingFileStorageProvider`: the state, and the events it publishes; an operation that
raises publishes none. -/
def FileProvider.publishing {σ : Type} (provider : FileProvider σ) (s : σ) (op : FileOp) : σ × List FsChanged :=
  match provider.run s op with
  | (s', .raised _) => (s', [])
  | (s', _) => (s', op.changed.toList)

/-! ### What an operation changes -/

/-- Above or below. -/
def Near (p q : Path) : Prop := p <+: q ∨ q <+: p

/-- The path that is changed is near one of the event's. -/
def FsChanged.Concerns (event : FsChanged) (q : Path) : Prop :=
  Near (normalizePath event.path) q ∨ ∃ newPath, event.newPath = some newPath ∧ Near (normalizePath newPath) q

private theorem FsChanged.Concerns.of_path {action : FsAction} {path : Str} {newPath : Option Str} {q : Path}
    (h : Near (normalizePath path) q) : Concerns ⟨action, path, newPath⟩ q := .inl h

private theorem FsChanged.Concerns.of_newPath {action : FsAction} {path newPath : Str} {q : Path}
    (h : Near (normalizePath newPath) q) : Concerns ⟨action, path, some newPath⟩ q := .inr ⟨newPath, rfl, h⟩

/-- What raises changes nothing, and what does not changes nothing elsewhere. -/
structure ChangesNear {γ : Type*} (before after : FileView γ) (raised : Option FileError) (near : Path → Prop) :
    Prop where
  raises : raised ≠ none → after = before
  near : ∀ q, ¬near q → after q = before q

section Changes

variable {γ : Type} {len : γ → Nat} {before after : FileView γ} {near : Path → Prop} {raised : Option FileError}
  {d s q : Path}

theorem ChangesNear.of_unchanged (h : after = before) : ChangesNear before after raised near :=
  ⟨fun _ => h, fun q _ => congrFun h q⟩

private theorem ChangesNear.of_done (h : ∀ q, ¬near q → after q = before q) : ChangesNear before after none near :=
  ⟨fun hne => absurd rfl hne, h⟩

private theorem withParents_of_far (hq : ¬Near d q) : withParents before d.dropLast q = before q :=
  withParents_of_not_above fun h => hq (.inr (h.trans (List.dropLast_prefix d)))

private theorem withParents_self_of_far (hq : ¬Near d q) : withParents before d q = before q :=
  withParents_of_not_above fun h => hq (.inr h)

/-- What is put at a path, from anywhere. -/
private theorem put_near {source : Path → Option (Kind γ)}
    (hview : ∀ q, after q = if d <+: q then source q else withParents before d.dropLast q) (hq : ¬Near d q) :
    after q = before q := by
  rw [hview, if_neg fun h => hq (.inl h), withParents_of_far hq]

/-- The end of a write: the file is put into a directory that was made for it. -/
private theorem written_near {root made : FileTree len} {path : Str} (hd : d ≠ [])
    (hmade : ensureParents path root d.dropLast = (made, none)) (file : FileData len) :
    ChangesNear (node root).view
      (node (made.alter (fun children => children.assign (d.getLast hd) (leaf file)) d.dropLast)).view none (Near d) :=
  .of_done fun _ hq => put_near (view_written hd hmade file) hq

/-- The parents of a directory are there before they are made. -/
private theorem ensureParents_node_view {root made : FileTree len} {path : Str}
    (hmade : ensureParents path root d.dropLast = (made, none)) {children : FileTree len}
    (hnode : resolve made d = some (node children)) : (node made).view = (node root).view := by
  rcases ensureParents_error path root d.dropLast with ⟨tree, hrun, -⟩ | ⟨tree, hrun, -, hview⟩
  · rw [hmade] at hrun
    cases hrun
  · rw [hmade] at hrun
    obtain ⟨rfl, -⟩ := Prod.mk.inj hrun
    have hthere : (node made).view d = some .node := by
      have hfind : (node made).find d = some (node children) := hnode
      simp [NamedTree.view, hfind, kind]
    by_cases hd : d = []
    · rw [hview, hd, List.dropLast_nil, withParents_nil]
    · have hself : withParents (node root).view d.dropLast d = (node root).view d :=
        withParents_of_not_above (by simpa using not_prefix_dropLast hd [])
      rw [hview, hself] at hthere
      have hparent := (closed_tree root).dropLast hd (by rw [hthere]; exact Option.some_ne_none _)
      rw [hview, withParents_eq_self (closed_tree root) (by rw [hparent]; exact Option.some_ne_none _)]

private theorem writeNode_near (root : FileTree len) (d : Path) (path : Str) (file : FileData len) :
    ChangesNear (node root).view (node (writeNode root d path file).1).view (writeNode root d path file).2
      (Near d) := by
  unfold writeNode
  by_cases hd : d = []
  · simp only [dif_pos hd]
    exact .of_unchanged rfl
  simp only [dif_neg hd]
  rcases ensureParents_error path root d.dropLast with ⟨tree, hrun, -, hview⟩ | ⟨tree, hrun, -⟩
  · rw [hrun]
    exact .of_unchanged hview
  · simp only [hrun]
    split
    · next children hnode => exact .of_unchanged (ensureParents_node_view hrun hnode)
    · exact written_near hd hrun _

private theorem makeDirectory_near (root : FileTree len) (d : Path) (path : Str) (recursive : Bool) :
    ChangesNear (node root).view (node (makeDirectory root d path recursive).1).view
      (makeDirectory root d path recursive).2.1 (Near d) := by
  unfold makeDirectory
  by_cases hd : d = []
  · simp only [dif_pos hd]
    exact .of_unchanged rfl
  simp only [dif_neg hd]
  cases recursive with
  | true =>
    simp only [if_true]
    rcases ensureParents_error path root d with ⟨tree, hrun, -, hview⟩ | ⟨tree, hrun, -, hview⟩
    · rw [hrun]
      exact .of_unchanged hview
    · rw [hrun]
      refine .of_done fun q hq => ?_
      rw [hview, withParents_self_of_far hq]
  | false =>
    simp only [Bool.false_eq_true, if_false]
    rcases existingParents_cases path root d.dropLast with ⟨parent, hrun, hfound⟩ | ⟨hrun, -⟩ | ⟨hrun, -⟩
    · rw [hrun]
      cases hlookup : parent.lookup (d.getLast hd) with
      | none =>
        simp only [hlookup]
        refine .of_done fun q hq => ?_
        have hparent : (node root).view d.dropLast = some .node := by
          simp [NamedTree.view, hfound, kind]
        rw [view_put hd hparent, if_neg fun h => hq (.inl h)]
        intro cs hcs k
        obtain rfl : cs = parent := by
          rw [hfound, Option.some_inj] at hcs
          exact (node.inj hcs).symm
        exact Forest.lookup_append_new hlookup (node []) k
      | some found =>
        simp only [hlookup]
        cases found with
        | leaf file => exact .of_unchanged rfl
        | node children => exact .of_unchanged rfl
    · rw [hrun]
      exact .of_unchanged rfl
    · rw [hrun]
      exact .of_unchanged rfl

private theorem removeNode_near (root : FileTree len) (d : Path) (path : Str) (recursive : Bool) (hd : d ≠ []) :
    ChangesNear (node root).view (node (removeNode root d path recursive hd).1).view
      (removeNode root d path recursive hd).2 (Near d) := by
  have hdropped : ∀ q, ¬Near d q →
      (node (root.alter (fun children => children.discard (d.getLast hd)) d.dropLast)).view q = (node root).view q := by
    intro q hq
    rw [view_drop root hd, if_neg fun h => hq (.inl h)]
  unfold removeNode
  split
  · exact .of_unchanged rfl
  · split
    · exact .of_unchanged rfl
    · exact .of_done hdropped

end Changes

/-! ### The in-memory provider -/

namespace InMemory

variable (root : InMemory)

private theorem writeFile_near (path : Str) (raw : List UInt8) :
    ChangesNear (node root).view (node (writeFile root path raw).1).view (writeFile root path raw).2
      (Near (normalizePath path)) := writeNode_near root _ path _

private theorem remove_near (path : Str) (recursive : Bool) :
    ChangesNear (node root).view (node (remove root path recursive).1).view (remove root path recursive).2
      (Near (normalizePath path)) := by
  unfold remove
  split
  · exact .of_unchanged rfl
  · next hnorm => exact removeNode_near root _ path recursive hnorm

/-- A copy is refused before it has changed anything, or what is put is put at its destination. -/
private theorem copy_near (src dest : Str) :
    ChangesNear (node root).view (node (copy root src dest).1).view (copy root src dest).2
      (Near (normalizePath dest)) := by
  rcases copyAt_cases root (normalizePath src) (normalizePath dest) src dest with
    ⟨-, after, e, hcopy, hview⟩ | ⟨-, after, hcopy, hview⟩
  · rw [copy, hcopy]
    exact .of_unchanged hview
  · rw [copy, hcopy]
    exact .of_done fun q hq => put_near hview hq

/-- What raises changes nothing, apart from a move whose source is gone when it is to be deleted. -/
private theorem move_near (src dest : Str) (hfound : ∀ name, (move root src dest).2 ≠ some (.keyError name)) :
    ChangesNear (node root).view (node (move root src dest).1).view (move root src dest).2
      fun q => Near (normalizePath src) q ∨ Near (normalizePath dest) q := by
  rcases moveAt_cases Name.text root (normalizePath src) (normalizePath dest) src dest with
    ⟨-, tree, e, hmove, hview⟩ | ⟨-, tree, hsrc, hmove, hview⟩
  · rw [move, hmove]
    exact .of_unchanged hview
  · rw [move, hmove] at hfound ⊢
    rcases removeOld_cases Name.text tree hsrc with ⟨after, hrun, -, hafter⟩ | ⟨e, hrun, hparent, -⟩
    · rw [hrun]
      refine .of_done fun q hq => ?_
      rw [not_or] at hq
      rw [hafter, if_neg fun h => hq.1 (.inl h)]
      exact put_near hview hq.2
    · exfalso
      unfold removeOld at hrun hfound
      split at hrun
      · cases hrun
      · next hresolve =>
        simp only [hresolve] at hfound
        split at hfound
        · exact hfound _ rfl
        · next hkey =>
          simp only [if_neg hkey] at hrun
          exact Option.some_ne_none e (Prod.mk.inj hrun).2.symm

/-- A client, and the tree with its events. -/
abbrev Reader := Reading InMemory Path (Option (Kind (FileData (List.length : List UInt8 → Nat)))) FsChanged

def store : Store InMemory FileOp Path (Option (Kind (FileData (List.length : List UInt8 → Nat)))) FsChanged where
  apply := provider.publishing
  view root := (node root).view
  Concerns := FsChanged.Concerns

end InMemory

/-! ### The JSON provider -/

namespace JsonFile

variable (json : JsonFile)

private theorem writeFile_near (path : Str) (content : Content) :
    ChangesNear (node json.root).view (node (writeFile json path content).1.root).view (writeFile json path content).2
      (Near (normalizePath path)) := by
  unfold writeFile
  have hwritten := writeNode_near json.root (normalizePath path) path
    { content := content.decoded, size := utf8Length content.decoded, size_eq := rfl }
  simp only
  rcases hrun : writeNode json.root (normalizePath path) path _ with ⟨tree, raised⟩
  rw [hrun] at hwritten
  cases raised with
  | none => exact hwritten
  | some e => exact hwritten

private theorem mkdir_near (path : Str) (recursive : Bool) :
    ChangesNear (node json.root).view (node (mkdir json path recursive).1.root).view (mkdir json path recursive).2
      (Near (normalizePath path)) := by
  have hmade := makeDirectory_near json.root (normalizePath path) path recursive
  unfold mkdir
  simp only
  split
  · exact hmade
  · exact hmade

private theorem remove_near (path : Str) (recursive : Bool) :
    ChangesNear (node json.root).view (node (remove json path recursive).1.root).view (remove json path recursive).2
      (Near (normalizePath path)) := by
  unfold remove
  split
  · exact .of_unchanged rfl
  · next hnorm =>
    have hremoved := removeNode_near json.root (normalizePath path) path recursive hnorm
    rcases hrun : removeNode json.root (normalizePath path) path recursive hnorm with ⟨tree, raised⟩
    rw [hrun] at hremoved
    cases raised with
    | none => exact hremoved
    | some e => exact hremoved

private theorem copy_near (src dest : Str) :
    ChangesNear (node json.root).view (node (copy json src dest).1.root).view (copy json src dest).2
      (Near (normalizePath dest)) := by
  rcases copyAt_cases json (normalizePath src) (normalizePath dest) src dest with
    ⟨-, after, e, hcopy, hview⟩ | ⟨-, after, hcopy, hview⟩
  · rw [copy, hcopy]
    exact .of_unchanged hview
  · rw [copy, hcopy]
    exact .of_done fun q hq => put_near hview hq

private theorem move_near (src dest : Str) :
    ChangesNear (node json.root).view (node (move json src dest).1.root).view (move json src dest).2
      fun q => Near (normalizePath src) q ∨ Near (normalizePath dest) q := by
  rcases moveAt_cases json (normalizePath src) (normalizePath dest) src dest with
    ⟨-, after, e, hmove, hview⟩ | ⟨-, after, copied, hmove, -, hview⟩
  · rw [move, hmove]
    exact .of_unchanged hview
  · rw [move, hmove]
    refine .of_done fun q hq => ?_
    rw [not_or] at hq
    rw [hview, if_neg fun h => hq.1 (.inl h), if_neg fun h => hq.2 (.inl h), withParents_of_far hq.2]

abbrev Reader := Reading JsonFile Path (Option (Kind (FileData utf8Length))) FsChanged

def store : Store JsonFile FileOp Path (Option (Kind (FileData utf8Length))) FsChanged where
  apply := provider.publishing
  view json := (node json.root).view
  Concerns := FsChanged.Concerns

end JsonFile

/-! ### Every change is announced -/

section Announced

variable {σ : Type} {γ : Type*} {provider : FileProvider σ} (view : σ → FileView γ) {s s' : σ} {op : FileOp} {q : Path}

private theorem publishing_fst (provider : FileProvider σ) (s : σ) (op : FileOp) :
    (provider.publishing s op).1 = (provider.run s op).1 := by
  unfold FileProvider.publishing
  split
  · next hrun => rw [hrun]
  · next hrun => rw [hrun]

/-- Of an operation that changes only what is near its paths, and nothing if it raises, the event concerns what it
changes. -/
theorem announced {event : FsChanged} {raised : Option FileError} (hchanged : op.changed = some event)
    (hrun : provider.run s op = (s', .ofOption raised)) {near : Path → Prop}
    (hnear : ChangesNear (view s) (view s') raised near) (hconcerns : ∀ q, near q → event.Concerns q)
    (hq : view (provider.publishing s op).1 q ≠ view s q) :
    ∃ event ∈ (provider.publishing s op).2, event.Concerns q := by
  cases raised with
  | some e =>
    have hpublishing : provider.publishing s op = (s', []) := by
      simp only [FileProvider.publishing, hrun, FileOutcome.ofOption]
    rw [hpublishing, hnear.raises (Option.some_ne_none e)] at hq
    exact absurd rfl hq
  | none =>
    have hpublishing : provider.publishing s op = (s', [event]) := by
      simp only [FileProvider.publishing, hrun, FileOutcome.ofOption, hchanged, Option.toList_some]
    rw [hpublishing] at hq ⊢
    refine ⟨event, List.mem_singleton_self event, hconcerns q ?_⟩
    by_contra hfar
    exact hq (hnear.near q hfar)

end Announced

/-- Every change is told of, unless an operation raises a `KeyError`. -/
private theorem InMemory.tells : store.Tells fun root op => (provider.run root op).2 ≠ .raised .keyError := by
  intro root op q hkey hq
  let view (root : InMemory) := (node root).view
  have hread : (provider.run root op).1 = root → ∃ event ∈ (provider.publishing root op).2, event.Concerns q := by
    intro hsame
    have hview : (node (provider.publishing root op).1).view q = (node root).view q := by rw [publishing_fst, hsame]
    exact absurd hview hq
  cases op with
  | writeFile path content =>
    exact announced view rfl rfl (writeFile_near root path content.raw) (fun _ h => .of_path h) hq
  | uploadFile path content =>
    exact announced view rfl rfl (writeFile_near root path content) (fun _ h => .of_path h) hq
  | mkdir path recursive =>
    exact announced view rfl rfl (makeDirectory_near root _ path recursive) (fun _ h => .of_path h) hq
  | remove path recursive =>
    exact announced view rfl rfl (remove_near root path recursive) (fun _ h => .of_path h) hq
  | copy src dest => exact announced view rfl rfl (copy_near root src dest) (fun _ h => .of_newPath h) hq
  | move src dest =>
    have hfound : ∀ name, (move root src dest).2 ≠ some (.keyError name) := by
      intro name hname
      refine hkey ?_
      show FileOutcome.ofOption (move root src dest).2 = _
      rw [hname]
      rfl
    exact announced view rfl rfl (move_near root src dest hfound) (fun _ h => h.elim .of_path .of_newPath) hq
  | list _ | readFile _ | stat _ | exists_ _ | getDownloadStream _ => exact hread rfl

private theorem JsonFile.tells : store.Tells fun _ _ => True := by
  intro json op q _ hq
  let view (json : JsonFile) := (node json.root).view
  have hread : (provider.run json op).1 = json → ∃ event ∈ (provider.publishing json op).2, event.Concerns q := by
    intro hsame
    have hview : (node (provider.publishing json op).1.root).view q = (node json.root).view q := by
      rw [publishing_fst, hsame]
    exact absurd hview hq
  cases op with
  | writeFile path content =>
    exact announced view rfl rfl (writeFile_near json path content) (fun _ h => .of_path h) hq
  | uploadFile path content =>
    exact announced view rfl rfl (writeFile_near json path (.bytes content)) (fun _ h => .of_path h) hq
  | mkdir path recursive =>
    exact announced view rfl rfl (mkdir_near json path recursive) (fun _ h => .of_path h) hq
  | remove path recursive =>
    exact announced view rfl rfl (remove_near json path recursive) (fun _ h => .of_path h) hq
  | copy src dest => exact announced view rfl rfl (copy_near json src dest) (fun _ h => .of_newPath h) hq
  | move src dest =>
    exact announced view rfl rfl (move_near json src dest) (fun _ h => h.elim .of_path .of_newPath) hq
  | list _ | readFile _ | stat _ | exists_ _ | getDownloadStream _ => exact hread rfl

/-- Whatever is done with the files, and however far behind a client is with the events and with reading again what they
concern: what it has of a path is what stands there, unless it has that path still to read or an event on its way says
so.  With the in-memory provider no operation may raise a `KeyError`. -/
theorem changes_announced {root : InMemory} {json : JsonFile} {copy₁ : FileView (FileData List.length)}
    {copy₂ : FileView (FileData utf8Length)} {ms₁ : List (Move InMemory.Reader (ReadingAction FileOp Path))}
    {ms₂ : List (Move JsonFile.Reader (ReadingAction FileOp Path))} {r₁ : InMemory.Reader} {r₂ : JsonFile.Reader}
    (hmemory : GuardedRun (Reading.step InMemory.store)
      (Reading.Allowed fun root op => (InMemory.provider.run root op).2 ≠ .raised .keyError)
      (Reading.start root copy₁) ms₁ r₁)
    (hjson : GuardedRun (Reading.step JsonFile.store) (Reading.Allowed fun _ _ => True) (Reading.start json copy₂)
      ms₂ r₂) :
    (r₁.Fresh InMemory.store ∧ (r₁.queue = [] → (∀ q, ¬r₁.due q) → r₁.copy = (node r₁.store).view)) ∧
    (r₂.Fresh JsonFile.store ∧ (r₂.queue = [] → (∀ q, ¬r₂.due q) → r₂.copy = (node r₂.store.root).view)) := by
  have hfresh₁ := Reading.fresh_of_run InMemory.tells hmemory
  have hfresh₂ := Reading.fresh_of_run JsonFile.tells hjson
  exact ⟨⟨hfresh₁, hfresh₁.copy_eq⟩, hfresh₂, hfresh₂.copy_eq⟩

/-- Two files are written.  One client has read the first again, has the other yet to read, and no event of it; another
has not even that of the first. -/
theorem changes_announced_write :
    ∃ (r₁ : InMemory.Reader) (r₂ : JsonFile.Reader),
      (r₁.queue = [{ action := .write, path := ['b'] }] ∧ ¬r₁.due (normalizePath ['a']) ∧ r₁.due (normalizePath ['b']) ∧
        r₁.Fresh InMemory.store) ∧
      r₂.queue = [{ action := .write, path := ['a'] }] ∧ r₂.Fresh JsonFile.store := by
  let write (path : Str) : FileOp := .writeFile path (.bytes [1])
  let event (path : Str) : FsChanged := { action := .write, path := path }
  have hkey₁ : (InMemory.provider.run [] (write ['a'])).2 ≠ .raised .keyError := by decide +kernel
  have hkey₂ : (InMemory.provider.run (InMemory.store.apply [] (write ['a'])).1 (write ['b'])).2 ≠
      .raised .keyError := by decide +kernel
  have hevents₁ : (InMemory.store.apply [] (write ['a'])).2 = [event ['a']] := by decide +kernel
  have hevents₂ : (InMemory.store.apply (InMemory.store.apply [] (write ['a'])).1 (write ['b'])).2 =
      [event ['b']] := by decide +kernel
  generalize hroot : (InMemory.store.apply [] (write ['a'])).1 = root at hkey₂ hevents₂
  have hjson : (JsonFile.store.apply ⟨[], none⟩ (write ['a'])).2 = [event ['a']] := by decide +kernel
  have hother : normalizePath ['b'] ≠ normalizePath ['a'] := by decide +kernel
  have hwritten := Reading.run_change (G := fun root op => (InMemory.provider.run root op).2 ≠ .raised .keyError)
    (fun _ => none) hkey₁ (Prod.ext hroot hevents₁ : InMemory.store.apply [] (write ['a']) = (root, [event ['a']]))
  have hnoticed := hwritten.step (a := .notice) (by exact trivial) rfl
  have hread := hnoticed.step (a := .read (normalizePath ['a'])) (by exact trivial) rfl
  have hmemory := hread.step (a := .change (write ['b'])) (by exact hkey₂) rfl
  have hjson := Reading.run_change (G := fun _ _ => True) (fun _ => none) trivial
    (Prod.ext rfl hjson : JsonFile.store.apply ⟨[], none⟩ (write ['a']) =
      ((JsonFile.store.apply ⟨[], none⟩ (write ['a'])).1, [event ['a']]))
  have hfresh := changes_announced hmemory hjson
  refine ⟨_, _, ⟨?_, ?_, ?_, hfresh.1.1⟩, rfl, hfresh.2.1⟩
  · exact hevents₂
  · exact fun hdue => hdue.2 rfl
  · exact ⟨.inl trivial, hother⟩

end CliServer
