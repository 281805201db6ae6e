import CliServer.Files.S3

/-!
# Directories of the S3 provider

`list_objects_v2` answers with a page: at most 1000 keys or common prefixes of the listing.  `list` and `remove` read
one page and ask for no other, so they are complete for a directory whose listing fits on it
(`S3.directories_complete_iff`).  What the service answers is the parameter `client`, with what its documentation says
of it (`S3Documented`).
-/

namespace CliServer

open Process

/-- What is listed: an object, or what the keys of several objects have in common. -/
inductive S3Entry where
  | object (o : S3Object)
  | common (text : Str)
  deriving DecidableEq

def S3Entry.object? : S3Entry → Option S3Object
  | .object o => some o
  | .common _ => none

def S3Entry.common? : S3Entry → Option Str
  | .object _ => none
  | .common text => some text

/-- How a key is listed under a prefix: as an object, or, with the delimiter after the prefix, up to it. -/
def rollUp (keyPrefix : Str) (delimiter : Option Char) (key : Str) (size : Nat) : S3Entry :=
  let rest := key.drop keyPrefix.length
  match delimiter with
  | none => .object ⟨key, some size⟩
  | some c => if c ∈ rest then .common (keyPrefix ++ rest.takeWhile (· ≠ c) ++ [c]) else .object ⟨key, some size⟩

/-- The answer with the first entries of a listing. -/
def S3Listing.ofEntries (entries : List S3Entry) : S3Listing :=
  ⟨entries.filterMap S3Entry.object?, entries.filterMap S3Entry.common?⟩

section

variable {σ : Type}

/-- What the service documents: the listing of a prefix has each entry once; an answer has at most `pageSize` of them,
of which there are at most 1000; `head_object` says whether there is an object; and up to 1000 objects are deleted at
once, none of which is reported in `Errors` as one that could not be. -/
structure S3Documented (client : S3Client σ) (objects : σ → Str → Option (List UInt8))
    (listing : σ → Str → Option Char → List S3Entry) (pageSize : Nat) : Prop where
  pageSize_pos : 0 < pageSize
  pageSize_le : pageSize ≤ 1000
  nodup : ∀ s keyPrefix delimiter, (listing s keyPrefix delimiter).Nodup
  mem_listing : ∀ s keyPrefix delimiter e, e ∈ listing s keyPrefix delimiter ↔
    ∃ key body, objects s key = some body ∧ keyPrefix <+: key ∧ rollUp keyPrefix delimiter key body.length = e
  listed : ∀ s keyPrefix delimiter, client s (.listObjectsV2 keyPrefix delimiter none) =
    (.ok (.ofEntries ((listing s keyPrefix delimiter).take pageSize)), s)
  headed : ∀ s key, client s (.headObject key) =
    (match objects s key with
    | some body => .ok (some body.length)
    | none => .error "404".toList, s)
  deleted : ∀ s key, ∃ s', client s (.deleteObject key) = (.ok (), s') ∧
    ∀ k, objects s' k = if k = key then none else objects s k
  deletedAll : ∀ s keys, keys.length ≤ 1000 → ∃ s', client s (.deleteObjects keys) = (.ok (), s') ∧
    ∀ k, objects s' k = if k ∈ keys then none else objects s k

/-- A direct child of the directory with a prefix: a file of this name, or a directory with something in it. -/
def IsChild (objects : Str → Option (List UInt8)) (dir : Str) : Str × EntryType → Prop
  | (name, .file) => name ≠ [] ∧ '/' ∉ name ∧ objects (dir ++ name) ≠ none
  | (name, .directory) => name ≠ [] ∧ '/' ∉ name ∧ ∃ rest, objects (dir ++ name ++ '/' :: rest) ≠ none

/-- The name and the type of a child. -/
def FileEntry.child (entry : FileEntry) : Str × EntryType := (entry.name, entry.type)

namespace S3

/-- After a recursive `remove` that returns, nothing is below the path. -/
def RemovesAll (client : S3Client σ) (objects : σ → Str → Option (List UInt8)) (pre : Str) (s : σ) (path : Str) :
    Prop :=
  ∀ s', (remove pre path true).alone client s = (.ok (), s') →
    ∀ key, dirPrefix pre (normalize path) <+: key → objects s' key = none

/-- A `list` that returns has every direct child once. -/
def ListsAll (client : S3Client σ) (objects : σ → Str → Option (List UInt8)) (pre : Str) (s : σ) (path : Str) : Prop :=
  ∀ entries s', (list pre path).alone client s = (.ok entries, s') →
    (entries.map FileEntry.child).Nodup ∧
      ∀ child, child ∈ entries.map FileEntry.child ↔ IsChild (objects s) (dirPrefix pre (normalize path)) child

end S3

/-- The child that an entry of the listing of a directory stands for: none for the marker of the directory, and for a
slash after its prefix. -/
def S3Entry.child? (dir : Str) : S3Entry → Option (Str × EntryType)
  | .object o =>
    let name := o.key.drop dir.length
    if name = [] then none else some (name, .file)
  | .common text =>
    let name := (text.drop dir.length).dropLast
    if name = [] then none else some (name, .directory)

/-- An entry of the listing of a directory. -/
inductive S3Entry.Listed (dir : Str) : S3Entry → Prop
  | object (name : Str) (size : Option Nat) (h : '/' ∉ name) : Listed dir (.object ⟨dir ++ name, size⟩)
  | common (name : Str) (h : '/' ∉ name) : Listed dir (.common (dir ++ name ++ ['/']))

variable {dir name : Str} {e : S3Entry} {page : List S3Entry}

private theorem S3Entry.child?_object (size : Option Nat) :
    S3Entry.child? dir (.object ⟨dir ++ name, size⟩) = if name = [] then none else some (name, .file) := by
  simp [S3Entry.child?]

private theorem S3Entry.child?_common :
    S3Entry.child? dir (.common (dir ++ name ++ ['/'])) = if name = [] then none else some (name, .directory) := by
  simp [S3Entry.child?]

private theorem rollUp_file (h : '/' ∉ name) (size : Nat) :
    rollUp dir (some '/') (dir ++ name) size = .object ⟨dir ++ name, some size⟩ := by
  simp [rollUp, h]

private theorem rollUp_directory (h : '/' ∉ name) (rest : Str) (size : Nat) :
    rollUp dir (some '/') (dir ++ (name ++ '/' :: rest)) size = .common (dir ++ name ++ ['/']) := by
  have htake : (name ++ '/' :: rest).takeWhile (fun c => !decide (c = '/')) = name := by
    rw [List.takeWhile_append_of_pos]
    · simp
    · intro c hc
      have hne : c ≠ '/' := fun heq => h (heq ▸ hc)
      simpa using hne
  simp [rollUp, htake]

/-- What is listed below a prefix: a name, or what goes on after it with a slash. -/
private theorem rest_cases (rest : Str) : '/' ∉ rest ∨ ∃ name tail, rest = name ++ '/' :: tail ∧ '/' ∉ name := by
  by_cases hslash : '/' ∈ rest
  · obtain ⟨name, tail, hsplit, hname⟩ := List.eq_append_cons_of_mem hslash
    exact .inr ⟨name, tail, hsplit, hname⟩
  · exact .inl hslash

private theorem listed_rollUp (dir rest : Str) (size : Nat) :
    (rollUp dir (some '/') (dir ++ rest) size).Listed dir := by
  rcases rest_cases rest with hname | ⟨name, tail, rfl, hname⟩
  · rw [rollUp_file hname]
    exact .object rest _ hname
  · rw [rollUp_directory hname]
    exact .common name hname

/-! ### What a page becomes -/

private theorem directoryEntry_common (h : '/' ∉ name) : S3.directoryEntry dir (dir ++ name ++ ['/']) =
    if name = [] then none else some ⟨name, .directory, 0, some (permissionsOf .directory)⟩ := by
  have hdrop : (dir ++ name ++ ['/']).drop dir.length = name ++ ['/'] := by simp
  have hstripped : (name ++ ['/']).rdropWhile (· = '/') = name := by
    rw [List.rdropWhile_concat_pos _ _ _ (by simp), List.rdropWhile_eq_self_iff]
    intro hne
    have hlast : name.getLast hne ≠ '/' := fun heq => h (heq ▸ List.getLast_mem hne)
    simpa using hlast
  simp only [S3.directoryEntry, hdrop, hstripped]

private theorem fileEntry_object (size : Option Nat) (h : '/' ∉ name) : S3.fileEntry dir ⟨dir ++ name, size⟩ =
    if name = [] then none else some ⟨name, .file, size.getD 0, some (permissionsOf .file)⟩ := by
  have hdrop : (dir ++ name).drop dir.length = name := by simp
  have hlast : name.getLast? ≠ some '/' := fun heq => h (List.mem_of_getLast? heq)
  have hself : dir ++ name = dir ↔ name = [] := List.append_right_eq_self
  simp only [S3.fileEntry, hdrop, hself, hlast, or_false, or_self]

/-- The children of a page: the directories, and the files. -/
private theorem child_entries (h : ∀ e ∈ page, e.Listed dir) :
    ((page.filterMap S3Entry.common?).filterMap (S3.directoryEntry dir)).map FileEntry.child =
        (page.filterMap (S3Entry.child? dir)).filter (fun child => child.2 = .directory) ∧
      ((page.filterMap S3Entry.object?).filterMap (S3.fileEntry dir)).map FileEntry.child =
        (page.filterMap (S3Entry.child? dir)).filter (fun child => !decide (child.2 = .directory)) := by
  induction page with
  | nil => exact ⟨rfl, rfl⟩
  | cons e page ih =>
    obtain ⟨ihDirectories, ihFiles⟩ := ih fun e he => h e (List.mem_cons_of_mem _ he)
    cases h e List.mem_cons_self with
    | object name size hname =>
      simp only [List.filterMap_cons, S3Entry.common?, S3Entry.object?, fileEntry_object size hname,
        S3Entry.child?_object]
      by_cases hnil : name = []
      · simp only [if_pos hnil]
        exact ⟨ihDirectories, ihFiles⟩
      · simp only [if_neg hnil]
        exact ⟨by simpa using ihDirectories, by simpa [FileEntry.child] using ihFiles⟩
    | common name hname =>
      simp only [List.filterMap_cons, S3Entry.common?, S3Entry.object?, directoryEntry_common hname,
        S3Entry.child?_common]
      by_cases hnil : name = []
      · simp only [if_pos hnil]
        exact ⟨ihDirectories, ihFiles⟩
      · simp only [if_neg hnil]
        exact ⟨by simpa [FileEntry.child] using ihDirectories, by simpa using ihFiles⟩

/-- `list` has the children of its page, in the order of their names. -/
private theorem child_sortedEntries (h : ∀ e ∈ page, e.Listed dir) :
    ((sortedEntries ((S3Listing.ofEntries page).commonPrefixes.filterMap (S3.directoryEntry dir) ++
      (S3Listing.ofEntries page).contents.filterMap (S3.fileEntry dir))).map FileEntry.child).Perm
        (page.filterMap (S3Entry.child? dir)) := by
  obtain ⟨hdirectories, hfiles⟩ := child_entries h
  refine ((List.mergeSort_perm _ _).map FileEntry.child).trans ?_
  rw [List.map_append, S3Listing.ofEntries, hdirectories, hfiles]
  exact List.filter_append_perm _ _

/-! ### One page -/

section Documented

variable {client : S3Client σ} {objects : σ → Str → Option (List UInt8)}
  {listing : σ → Str → Option Char → List S3Entry} {pageSize : Nat} {s : σ} {pre path : Str}

/-- The entries that the first answer leaves out. -/
def leftOut (listing : σ → Str → Option Char → List S3Entry) (pageSize : Nat) (s : σ) (dir : Str)
    (delimiter : Option Char) : List S3Entry := (listing s dir delimiter).drop pageSize

private theorem S3Documented.listed_of_mem (h : S3Documented client objects listing pageSize)
    (he : e ∈ listing s dir (some '/')) : e.Listed dir := by
  obtain ⟨key, body, -, ⟨rest, rfl⟩, rfl⟩ := (h.mem_listing s dir (some '/') e).1 he
  exact listed_rollUp dir rest body.length

/-- The children of a directory are those its listing has entries for. -/
private theorem S3Documented.isChild_iff (h : S3Documented client objects listing pageSize) (child : Str × EntryType) :
    IsChild (objects s) dir child ↔ ∃ e ∈ listing s dir (some '/'), e.child? dir = some child := by
  obtain ⟨name, type⟩ := child
  constructor
  · intro hchild
    cases type with
    | file =>
      obtain ⟨hne, hslash, hthere⟩ := hchild
      obtain ⟨body, hbody⟩ := Option.ne_none_iff_exists'.1 hthere
      refine ⟨_, (h.mem_listing _ _ _ _).2 ⟨_, body, hbody, List.prefix_append dir name, rollUp_file hslash _⟩, ?_⟩
      rw [S3Entry.child?_object, if_neg hne]
    | directory =>
      obtain ⟨hne, hslash, rest, hthere⟩ := hchild
      obtain ⟨body, hbody⟩ := Option.ne_none_iff_exists'.1 hthere
      rw [List.append_assoc] at hbody
      refine ⟨_, (h.mem_listing _ _ _ _).2 ⟨_, body, hbody, List.prefix_append dir _, rollUp_directory hslash rest _⟩, ?_⟩
      rw [S3Entry.child?_common, if_neg hne]
  · rintro ⟨e, he, hchild⟩
    obtain ⟨key, body, hbody, ⟨rest, rfl⟩, rfl⟩ := (h.mem_listing s dir (some '/') e).1 he
    have hthere : objects s (dir ++ rest) ≠ none := by
      rw [hbody]
      exact Option.some_ne_none _
    rcases rest_cases rest with hname | ⟨name', tail, rfl, hname⟩
    · rw [rollUp_file hname, S3Entry.child?_object] at hchild
      split at hchild
      · cases hchild
      · next hne =>
        obtain ⟨rfl, rfl⟩ := Prod.mk.inj (Option.some.inj hchild)
        exact ⟨hne, hname, hthere⟩
    · rw [rollUp_directory hname, S3Entry.child?_common] at hchild
      split at hchild
      · cases hchild
      · next hne =>
        obtain ⟨rfl, rfl⟩ := Prod.mk.inj (Option.some.inj hchild)
        rw [← List.append_assoc] at hthere
        exact ⟨hne, hname, tail, hthere⟩

/-- Two entries of a listing stand for two children. -/
private theorem S3Documented.child?_inj (h : S3Documented client objects listing pageSize) {e' : S3Entry}
    {child : Str × EntryType} (he : e ∈ listing s dir (some '/')) (he' : e' ∈ listing s dir (some '/'))
    (hchild : e.child? dir = some child) (hchild' : e'.child? dir = some child) : e = e' := by
  obtain ⟨key, body, hbody, ⟨rest, rfl⟩, rfl⟩ := (h.mem_listing s dir (some '/') e).1 he
  obtain ⟨key', body', hbody', ⟨rest', rfl⟩, rfl⟩ := (h.mem_listing s dir (some '/') e').1 he'
  rcases rest_cases rest with hname | ⟨name, tail, rfl, hname⟩ <;>
    rcases rest_cases rest' with hname' | ⟨name', tail', rfl, hname'⟩ <;>
    simp only [rollUp_file hname, rollUp_file hname', rollUp_directory hname, rollUp_directory hname',
      S3Entry.child?_object, S3Entry.child?_common, Option.ite_none_left_eq_some,
      Option.some_inj] at hchild hchild' ⊢ <;>
    obtain ⟨-, rfl⟩ := hchild <;>
    obtain ⟨-, heq⟩ := hchild' <;>
    obtain ⟨rfl, htype⟩ := Prod.mk.inj heq
  · rw [hbody, Option.some_inj] at hbody'
    rw [hbody']
  · cases htype
  · cases htype
  · rfl

/-- A page has exactly the children that the listing has, when nothing that it leaves out stands for one. -/
private theorem S3Documented.page_children_iff (h : S3Documented client objects listing pageSize) (s : σ) (dir : Str) :
    (∀ child, child ∈ ((listing s dir (some '/')).take pageSize).filterMap (S3Entry.child? dir) ↔
        IsChild (objects s) dir child) ↔ ∀ e ∈ leftOut listing pageSize s dir (some '/'), e.child? dir = none := by
  have hsplit : ∀ e, e ∈ listing s dir (some '/') ↔
      e ∈ (listing s dir (some '/')).take pageSize ∨ e ∈ leftOut listing pageSize s dir (some '/') := by
    intro e
    rw [leftOut, ← List.mem_append, List.take_append_drop]
  constructor
  · intro hall e he
    by_contra hsome
    obtain ⟨child, hchild⟩ := Option.ne_none_iff_exists'.1 hsome
    have hmem : e ∈ listing s dir (some '/') := (hsplit e).2 (.inr he)
    have hpage := (hall child).2 ((h.isChild_iff child).2 ⟨e, hmem, hchild⟩)
    obtain ⟨e', he', hchild'⟩ := List.mem_filterMap.1 hpage
    -- the entry would be on the page too
    obtain rfl := h.child?_inj hmem ((hsplit e').2 (.inl he')) hchild hchild'
    exact List.disjoint_take_drop (h.nodup s dir (some '/')) le_rfl he' he
  · intro hnone child
    rw [h.isChild_iff, List.mem_filterMap]
    constructor
    · rintro ⟨e, he, hchild⟩
      exact ⟨e, (hsplit e).2 (.inl he), hchild⟩
    · rintro ⟨e, he, hchild⟩
      rcases (hsplit e).1 he with he | he
      · exact ⟨e, he, hchild⟩
      · rw [hnone e he] at hchild
        cases hchild

private theorem S3Documented.nodup_children (h : S3Documented client objects listing pageSize) (s : σ) (dir : Str) :
    (((listing s dir (some '/')).take pageSize).filterMap (S3Entry.child? dir)).Nodup := by
  have hpage : ((listing s dir (some '/')).take pageSize).Nodup :=
    (h.nodup s dir (some '/')).sublist (List.take_sublist _ _)
  refine List.pairwise_filterMap.2 (hpage.imp_of_mem fun he he' hne child hchild child' hchild' => ?_)
  rintro rfl
  exact hne (h.child?_inj (List.mem_of_mem_take he) (List.mem_of_mem_take he') hchild hchild')

namespace S3

private theorem ofEntries_eq_nil_iff {entries : List S3Entry} : ((S3Listing.ofEntries entries).contents = [] ∧
    (S3Listing.ofEntries entries).commonPrefixes = []) ↔ entries = [] := by
  cases entries with
  | nil => simp [S3Listing.ofEntries]
  | cons e entries => cases e <;> simp [S3Listing.ofEntries, S3Entry.object?, S3Entry.common?]

/-- The keys of the page of a directory. -/
private theorem mem_pageKeys {s : σ} {dir key : Str} :
    key ∈ (S3Listing.ofEntries ((listing s dir none).take pageSize)).contents.map S3Object.key ↔
      ∃ e ∈ (listing s dir none).take pageSize, ∃ size, e = .object ⟨key, size⟩ := by
  rw [List.mem_map]
  constructor
  · rintro ⟨o, ho, rfl⟩
    obtain ⟨e, he, hobject⟩ := List.mem_filterMap.1 ho
    cases e with
    | object o' =>
      obtain rfl := Option.some.inj hobject
      exact ⟨_, he, o'.size, rfl⟩
    | common text => cases hobject
  · rintro ⟨e, he, size, rfl⟩
    exact ⟨_, List.mem_filterMap.2 ⟨_, he, rfl⟩, rfl⟩

variable (h : S3Documented client objects listing pageSize)

include h

private theorem isFile_alone (key : Str) :
    (isFile pre key).alone client s = (.ok (objects s (toKey pre key)).isSome, s) := by
  have hheaded := h.headed s (toKey pre key)
  cases hthere : objects s (toKey pre key) with
  | none =>
    rw [hthere] at hheaded
    simp [isFile, hheaded]
  | some body =>
    rw [hthere] at hheaded
    simp [isFile, hheaded]

/-- How a `list` ends. -/
private theorem list_cases (s : σ) (pre path : Str) :
    let dir := dirPrefix pre (normalize path)
    let page := (listing s dir (some '/')).take pageSize
    (page = [] ∧ normalize path = [] ∧ (list pre path).alone client s = (.ok [], s)) ∨
    (page = [] ∧ normalize path ≠ [] ∧ ∃ e, (list pre path).alone client s = (.error e, s)) ∨
    (page ≠ [] ∧ (list pre path).alone client s =
      (.ok (sortedEntries ((S3Listing.ofEntries page).commonPrefixes.filterMap (directoryEntry dir) ++
        (S3Listing.ofEntries page).contents.filterMap (fileEntry dir))), s)) := by
  intro dir page
  have hlisted : client s (.listObjectsV2 dir (some '/') none) = (.ok (.ofEntries page), s) := h.listed s dir (some '/')
  have hfirst : (list pre path).alone client s =
      (if page = [] then
        if normalize path = [] then return []
        else do if ← isFile pre (normalize path) then notADirectory path else notFound path
      else return sortedEntries ((S3Listing.ofEntries page).commonPrefixes.filterMap (directoryEntry dir) ++
        (S3Listing.ofEntries page).contents.filterMap (fileEntry dir)) :
        S3Process (List FileEntry)).alone client s := by
    rw [list, call_bind, alone_await, hlisted]
    simp only [request, done_bind, pure_eq, ofEntries_eq_nil_iff]
    rfl
  rw [hfirst]
  by_cases hnil : page = []
  · rw [if_pos hnil]
    by_cases hroot : normalize path = []
    · exact .inl ⟨hnil, hroot, by rw [if_pos hroot]; rfl⟩
    · refine .inr (.inl ⟨hnil, hroot, ?_⟩)
      rw [if_neg hroot, alone_bind, isFile_alone h]
      cases objects s (toKey pre (normalize path)) with
      | none => exact ⟨_, rfl⟩
      | some body => exact ⟨_, rfl⟩
  · refine .inr (.inr ⟨hnil, ?_⟩)
    rw [if_neg hnil]
    rfl

/-- When a `list` that returns has every direct child once. -/
private theorem listsAll_iff (s : σ) (pre path : Str) : ListsAll client objects pre s path ↔
    ∀ e ∈ leftOut listing pageSize s (dirPrefix pre (normalize path)) (some '/'),
      e.child? (dirPrefix pre (normalize path)) = none := by
  have hcases := list_cases h s pre path
  have hpos := h.pageSize_pos
  unfold ListsAll
  generalize dirPrefix pre (normalize path) = dir at hcases ⊢
  dsimp only at hcases
  have hempty : (listing s dir (some '/')).take pageSize = [] → leftOut listing pageSize s dir (some '/') = [] := by
    intro hnil
    rw [List.take_eq_nil_iff] at hnil
    rw [leftOut, hnil.resolve_left (by omega), List.drop_nil]
  rcases hcases with ⟨hnil, -, hends⟩ | ⟨hnil, -, e, hends⟩ | ⟨-, hends⟩
  · rw [hends, hempty hnil]
    refine iff_of_true (fun entries s' heq => ?_) (by simp)
    obtain ⟨hentries, -⟩ := Prod.mk.inj heq
    obtain rfl := Except.ok.inj hentries
    have hnone := (h.page_children_iff s dir).2 (by rw [hempty hnil]; simp)
    rw [hnil] at hnone
    exact ⟨List.nodup_nil, hnone⟩
  · rw [hends, hempty hnil]
    refine iff_of_true (fun entries s' heq => ?_) (by simp)
    cases (Prod.mk.inj heq).1
  · rw [hends, ← h.page_children_iff s dir]
    have hperm := child_sortedEntries fun e (he : e ∈ (listing s dir (some '/')).take pageSize) =>
      h.listed_of_mem (List.mem_of_mem_take he)
    constructor
    · intro hall child
      rw [← hperm.mem_iff]
      exact (hall _ s rfl).2 child
    · intro hchildren entries s' heq
      obtain rfl := Except.ok.inj (Prod.mk.inj heq).1
      refine ⟨hperm.nodup_iff.2 (h.nodup_children s dir), fun child => ?_⟩
      rw [hperm.mem_iff]
      exact hchildren child

/-- Without a delimiter a listing has the objects. -/
private theorem mem_listing_objects (s : σ) (dir : Str) (e : S3Entry) : e ∈ listing s dir none ↔
    ∃ key body, objects s key = some body ∧ dir <+: key ∧ .object ⟨key, some body.length⟩ = e :=
      h.mem_listing s dir none e

/-- How a recursive `remove` ends. -/
private theorem remove_recursive_cases (s : σ) (pre path : Str) :
    let dir := dirPrefix pre (normalize path)
    let page := (listing s dir none).take pageSize
    (normalize path = [] ∧ ∃ e, (remove pre path true).alone client s = (.error e, s)) ∨
    (normalize path ≠ [] ∧ objects s (toKey pre (normalize path)) ≠ none ∧ ∃ s',
      (remove pre path true).alone client s = (.ok (), s') ∧
        ∀ k, objects s' k = if k = toKey pre (normalize path) then none else objects s k) ∨
    (normalize path ≠ [] ∧ objects s (toKey pre (normalize path)) = none ∧ page = [] ∧
      ∃ e, (remove pre path true).alone client s = (.error e, s)) ∨
    (normalize path ≠ [] ∧ objects s (toKey pre (normalize path)) = none ∧ page ≠ [] ∧ ∃ s',
      (remove pre path true).alone client s = (.ok (), s') ∧
        ∀ k, objects s' k = if k ∈ (S3Listing.ofEntries page).contents.map S3Object.key then none else objects s
        k) := by
  intro dir page
  by_cases hroot : normalize path = []
  · exact .inl ⟨hroot, _, by rw [remove, if_pos hroot]; rfl⟩
  right
  have hfirst : (remove pre path true).alone client s =
      (if (objects s (toKey pre (normalize path))).isSome = true then deleteObject (toKey pre (normalize path)) >>= request
        else removeDirectory pre path (normalize path) true).alone client s := by
    rw [remove, if_neg hroot, alone_bind, isFile_alone h]
  rw [hfirst]
  cases hfile : objects s (toKey pre (normalize path)) with
  | some body =>
    obtain ⟨s', hdeleted, hobjects⟩ := h.deleted s (toKey pre (normalize path))
    refine .inl ⟨hroot, Option.some_ne_none _, s', ?_, hobjects⟩
    rw [Option.isSome_some, if_pos rfl, call_bind, alone_await, hdeleted]
    rfl
  | none =>
    right
    have hlisted : client s (.listObjectsV2 dir none none) = (.ok (.ofEntries page), s) := h.listed s dir none
    have hnil : (S3Listing.ofEntries page).contents = [] ↔ page = [] := by
      rw [← ofEntries_eq_nil_iff, iff_self_and]
      intro _
      refine List.filterMap_eq_nil_iff.2 fun e he => ?_
      obtain ⟨key, body, -, -, rfl⟩ := (mem_listing_objects h s dir e).1 (List.mem_of_mem_take he)
      rfl
    rw [Option.isSome_none, if_neg Bool.false_ne_true, removeDirectory, call_bind, alone_await, hlisted]
    simp only [request, done_bind, pure_eq]
    cases hcontents : (S3Listing.ofEntries page).contents with
    | nil => exact .inl ⟨hroot, trivial, hnil.1 hcontents, _, rfl⟩
    | cons object objects' =>
      have hlength : (List.map S3Object.key (object :: objects')).length ≤ 1000 := by
        have htake : (S3Listing.ofEntries page).contents.length ≤ page.length := List.length_filterMap_le _ _
        have hpage : page.length ≤ pageSize := List.length_take_le _ _
        rw [List.length_map, ← hcontents]
        exact htake.trans (hpage.trans h.pageSize_le)
      obtain ⟨s', hdeleted, hobjects⟩ := h.deletedAll s _ hlength
      refine .inr ⟨hroot, trivial, fun hpage => ?_, s', ?_, hobjects⟩
      · rw [hnil.2 hpage] at hcontents
        cases hcontents
      · dsimp only
        rw [if_neg (by simp), if_neg (by simp), call_bind, alone_await, hdeleted]
        rfl

/-- When a recursive `remove` that returns leaves nothing below the path: it is the root, which is refused, or nothing
is below it, or it is not a file as well and the listing fits on a page. -/
private theorem removesAll_iff (s : σ) (pre path : Str) : RemovesAll client objects pre s path ↔
    normalize path = [] ∨ listing s (dirPrefix pre (normalize path)) none = [] ∨
      (objects s (toKey pre (normalize path)) = none ∧
        leftOut listing pageSize s (dirPrefix pre (normalize path)) none = []) := by
  have hcases := remove_recursive_cases h s pre path
  have hpos := h.pageSize_pos
  have hmem := mem_listing_objects h s (dirPrefix pre (normalize path))
  have hnotSelf : normalize path ≠ [] → ¬dirPrefix pre (normalize path) <+: toKey pre (normalize path) := by
    intro hne hbelow
    have hle := hbelow.length_le
    rw [dirPrefix, toKey, if_neg hne, if_neg hne] at hle
    simp at hle
  unfold RemovesAll
  generalize hdir : dirPrefix pre (normalize path) = dir at hcases hmem hnotSelf ⊢
  dsimp only at hcases
  rcases hcases with ⟨hroot, e, hends⟩ | ⟨hroot, hfile, s', hends, hobjects⟩ | ⟨hroot, hfile, hpage, e, hends⟩ |
    ⟨hroot, hfile, hpage, s', hends, hobjects⟩
  · refine iff_of_true (fun s' heq => ?_) (.inl hroot)
    rw [hends] at heq
    cases (Prod.mk.inj heq).1
  · -- only the file was deleted
    rw [hends]
    constructor
    · intro hall
      refine .inr (.inl (List.eq_nil_iff_forall_not_mem.2 fun e he => ?_))
      obtain ⟨key, body, hbody, hbelow, -⟩ := (hmem e).1 he
      have hgone := hall s' rfl key hbelow
      rw [hobjects, if_neg, hbody] at hgone
      · cases hgone
      · rintro rfl
        exact hnotSelf hroot hbelow
    · rintro (hnil | hnil | ⟨hnil, -⟩)
      · exact absurd hnil hroot
      · rintro s'' heq key hbelow
        obtain rfl := (Prod.mk.inj heq).2
        rw [hobjects]
        split
        · rfl
        · by_contra hthere
          obtain ⟨body, hbody⟩ := Option.ne_none_iff_exists'.1 hthere
          have hin := (hmem _).2 ⟨key, body, hbody, hbelow, rfl⟩
          rw [hnil] at hin
          exact List.not_mem_nil hin
      · exact absurd hnil hfile
  · refine iff_of_true (fun s' heq => ?_) (.inr (.inl ?_))
    · rw [hends] at heq
      cases (Prod.mk.inj heq).1
    · exact (List.take_eq_nil_iff.1 hpage).resolve_left (by omega)
  · rw [hends]
    constructor
    · intro hall
      refine .inr (.inr ⟨hfile, List.eq_nil_iff_forall_not_mem.2 fun e he => ?_⟩)
      obtain ⟨key, body, hbody, hbelow, rfl⟩ := (hmem e).1 (List.mem_of_mem_drop he)
      have hgone := hall s' rfl key hbelow
      rw [hobjects] at hgone
      split at hgone
      · next hkey =>
        -- the key would be on the page, and left out of it
        obtain ⟨e', he', size, rfl⟩ := mem_pageKeys.1 hkey
        obtain ⟨key', body', hbody', -, heq⟩ := (hmem _).1 (List.mem_of_mem_take he')
        obtain ⟨rfl, rfl⟩ := S3Object.mk.inj (S3Entry.object.inj heq)
        rw [hbody, Option.some_inj] at hbody'
        subst hbody'
        exact List.disjoint_take_drop (h.nodup s dir none) le_rfl he' he
      · rw [hbody] at hgone
        cases hgone
    · rintro (hnil | hnil | ⟨-, hnil⟩)
      · exact absurd hnil hroot
      · rw [hnil, List.take_nil] at hpage
        exact absurd rfl hpage
      · rintro s'' heq key hbelow
        obtain rfl := (Prod.mk.inj heq).2
        rw [hobjects]
        split
        · rfl
        · next hkey =>
          by_contra hthere
          obtain ⟨body, hbody⟩ := Option.ne_none_iff_exists'.1 hthere
          have hin := (hmem _).2 ⟨key, body, hbody, hbelow, rfl⟩
          rw [← List.take_append_drop pageSize (listing s dir none), show List.drop pageSize _ = [] from hnil,
            List.append_nil] at hin
          exact hkey (mem_pageKeys.2 ⟨_, hin, _, rfl⟩)

/-- When the provider is complete for a directory: `remove` takes away all that is below it, and `list` has all of its
children. -/
theorem directories_complete_iff (s : σ) (pre path : Str) :
    RemovesAll client objects pre s path ∧ ListsAll client objects pre s path ↔
      (normalize path = [] ∨ listing s (dirPrefix pre (normalize path)) none = [] ∨
        (objects s (toKey pre (normalize path)) = none ∧
          leftOut listing pageSize s (dirPrefix pre (normalize path)) none = [])) ∧
      ∀ e ∈ leftOut listing pageSize s (dirPrefix pre (normalize path)) (some '/'),
        e.child? (dirPrefix pre (normalize path)) = none :=
  and_congr (removesAll_iff h s pre path) (listsAll_iff h s pre path)

end S3

end Documented

end

/-! ### A bucket -/

/-- The objects of a bucket; the first of a key counts. -/
abbrev Bucket := List (Str × List UInt8)

namespace Bucket

def listing (b : Bucket) (keyPrefix : Str) (delimiter : Option Char) : List S3Entry :=
  (((b.map Prod.fst).filter fun key => keyPrefix.isPrefixOf key).map fun key =>
    rollUp keyPrefix delimiter key ((b.lookup key).getD []).length).dedup

def objects (b : Bucket) (key : Str) : Option (List UInt8) := b.lookup key

def discard (b : Bucket) (keys : List Str) : Bucket := b.filter fun object => object.1 ∉ keys

def put (b : Bucket) (key : Str) (body : List UInt8) : Bucket := (key, body) :: b.discard [key]

/-- A client whose answers have at most `pageSize` entries. -/
def client (pageSize : Nat) : S3Client Bucket
  | b, .listObjectsV2 keyPrefix delimiter maxKeys =>
    (.ok (.ofEntries ((b.listing keyPrefix delimiter).take (min (maxKeys.getD pageSize) pageSize))), b)
  | b, .getObject key =>
    (match b.lookup key with
    | some body => .ok body
    | none => .error "NoSuchKey".toList, b)
  | b, .putObject key body => (.ok (), b.put key body)
  | b, .headObject key =>
    (match b.lookup key with
    | some body => .ok (some body.length)
    | none => .error "404".toList, b)
  | b, .deleteObject key => (.ok (), b.discard [key])
  | b, .deleteObjects keys => (.ok (), b.discard keys)
  | b, .copyObject source key =>
    match b.lookup source with
    | some body => (.ok (), b.put key body)
    | none => (.error "NoSuchKey".toList, b)

private theorem lookup_ne_none_iff {b : Bucket} {key : Str} : b.lookup key ≠ none ↔ key ∈ b.map Prod.fst := by
  rw [Ne, List.lookup_eq_none_iff, List.mem_map]
  constructor
  · intro h
    push Not at h
    obtain ⟨object, hmem, hkey⟩ := h
    have heq : key = object.1 := by simpa using hkey
    exact ⟨object, hmem, heq.symm⟩
  · rintro ⟨object, hmem, rfl⟩ h
    simpa using h object hmem

theorem lookup_discard (b : Bucket) (keys : List Str) (key : Str) :
    (b.discard keys).lookup key = if key ∈ keys then none else b.lookup key := by
  induction b with
  | nil => simp [discard]
  | cons object b ih =>
    obtain ⟨k, body⟩ := object
    unfold discard at ih ⊢
    by_cases hk : k ∈ keys
    · rw [List.filter_cons_of_neg (by simpa using hk), ih]
      by_cases hkey : key ∈ keys
      · rw [if_pos hkey, if_pos hkey]
      · have hne : (key == k) = false := by
          rw [beq_eq_false_iff_ne]
          rintro rfl
          exact hkey hk
        rw [if_neg hkey, if_neg hkey, List.lookup_cons, hne]
    · rw [List.filter_cons_of_pos (by simpa using hk), List.lookup_cons, ih, List.lookup_cons]
      cases hkk : key == k with
      | false => rfl
      | true =>
        rw [beq_iff_eq] at hkk
        subst hkk
        exact (if_neg hk).symm

theorem mem_bucketListing {b : Bucket} {keyPrefix : Str} {delimiter : Option Char} {e : S3Entry} :
    e ∈ b.listing keyPrefix delimiter ↔
      ∃ key body, b.lookup key = some body ∧ keyPrefix <+: key ∧ rollUp keyPrefix delimiter key body.length = e := by
  rw [listing, List.mem_dedup, List.mem_map]
  constructor
  · rintro ⟨key, hkey, rfl⟩
    obtain ⟨hmem, hbelow⟩ := List.mem_filter.1 hkey
    obtain ⟨body, hbody⟩ := Option.ne_none_iff_exists'.1 (lookup_ne_none_iff.2 hmem)
    exact ⟨key, body, hbody, List.isPrefixOf_iff_prefix.1 hbelow, by rw [hbody]; rfl⟩
  · rintro ⟨key, body, hbody, hbelow, rfl⟩
    have hmem : key ∈ b.map Prod.fst := lookup_ne_none_iff.1 (by rw [hbody]; exact Option.some_ne_none _)
    exact ⟨key, List.mem_filter.2 ⟨hmem, List.isPrefixOf_iff_prefix.2 hbelow⟩, by rw [hbody]; rfl⟩

/-- The client does what the service documents. -/
theorem documented {pageSize : Nat} (hpos : 0 < pageSize) (hle : pageSize ≤ 1000) :
    S3Documented (client pageSize) objects listing pageSize where
  pageSize_pos := hpos
  pageSize_le := hle
  nodup _ _ _ := List.nodup_dedup _
  mem_listing _ _ _ _ := mem_bucketListing
  listed b keyPrefix delimiter := by simp [client]
  headed _ _ := rfl
  deleted b key := ⟨_, rfl, fun k => by simp [objects, lookup_discard]⟩
  deletedAll b keys _ := ⟨_, rfl, fun k => lookup_discard b keys k⟩

/-- Of a directory with a file and a directory. -/
theorem directories_complete_iff_bucket :
    S3.RemovesAll (client 1000) objects [] [("d/x".toList, [1]), ("d/y/z".toList, [])] "d".toList ∧
      S3.ListsAll (client 1000) objects [] [("d/x".toList, [1]), ("d/y/z".toList, [])] "d".toList :=
  (S3.directories_complete_iff (documented (by decide) le_rfl) _ _ _).2
    ⟨.inr (.inr ⟨by decide, by decide⟩), by decide⟩

/-- The `i`-th object of a directory. -/
def crowdedKey (i : Nat) : Str := "d/".toList ++ List.replicate (i + 1) 'a'

/-- A directory with `n` empty files. -/
def crowded (n : Nat) : Bucket := (List.range n).map fun i => (crowdedKey i, [])

private theorem crowdedKey_injective : Function.Injective crowdedKey := by
  intro i j h
  have hlength := congrArg List.length (List.append_cancel_left h)
  rw [List.length_replicate, List.length_replicate] at hlength
  omega

private theorem rollUp_crowdedKey {delimiter : Option Char} (h : delimiter ≠ some 'a') (i size : Nat) :
    rollUp "d/".toList delimiter (crowdedKey i) size = .object ⟨crowdedKey i, some size⟩ := by
  cases delimiter with
  | none => rfl
  | some c =>
    have hrest : c ∉ (crowdedKey i).drop "d/".toList.length := by
      rw [crowdedKey, List.drop_left]
      rintro hmem
      exact h (congrArg some (List.eq_of_mem_replicate hmem))
    exact if_neg hrest

private theorem crowded_listing {delimiter : Option Char} (h : delimiter ≠ some 'a') (n : Nat) :
    (crowded n).listing "d/".toList delimiter = (List.range n).map fun i => .object ⟨crowdedKey i, some 0⟩ := by
  have hkeys : (crowded n).map Prod.fst = (List.range n).map crowdedKey := by simp [crowded]
  have hbelow : ((List.range n).map crowdedKey).filter (fun key => "d/".toList.isPrefixOf key) =
      (List.range n).map crowdedKey := by
    refine List.filter_eq_self.2 fun key hkey => ?_
    obtain ⟨i, -, rfl⟩ := List.mem_map.1 hkey
    exact List.isPrefixOf_iff_prefix.2 (List.prefix_append _ _)
  have hempty : ∀ i, ((crowded n).lookup (crowdedKey i)).getD [] = [] := by
    intro i
    cases hbody : (crowded n).lookup (crowdedKey i) with
    | none => rfl
    | some body =>
      obtain ⟨before, after, hsplit, -⟩ := List.lookup_eq_some_iff.1 hbody
      have hmem : (crowdedKey i, body) ∈ crowded n := by simp [hsplit]
      obtain ⟨j, -, hj⟩ := List.mem_map.1 hmem
      exact (Prod.mk.inj hj).2.symm
  have hnodup : ((List.range n).map fun i => S3Entry.object ⟨crowdedKey i, some 0⟩).Nodup :=
    List.nodup_range.map fun i j hij => crowdedKey_injective (S3Object.mk.inj (S3Entry.object.inj hij)).1
  rw [listing, hkeys, hbelow, List.map_map, ← hnodup.dedup]
  congr 1
  refine List.map_congr_left fun i _ => ?_
  rw [Function.comp_apply, hempty i]
  exact rollUp_crowdedKey h i 0

/-- With 1001 files in a directory, a recursive `remove` leaves one, and `list` leaves one out. -/
theorem crowded_incomplete :
    ¬S3.RemovesAll (client 1000) objects [] (crowded 1001) "d".toList ∧
      ¬S3.ListsAll (client 1000) objects [] (crowded 1001) "d".toList := by
  have hdocumented := documented (by decide : 0 < 1000) le_rfl
  have hnorm : S3.normalize "d".toList = "d".toList := by decide
  have hdir : S3.dirPrefix [] (S3.normalize "d".toList) = "d/".toList := by decide
  have hleft : ∀ {delimiter}, delimiter ≠ some 'a' →
      leftOut listing 1000 (crowded 1001) "d/".toList delimiter = [.object ⟨crowdedKey 1000, some 0⟩] := by
    intro delimiter h
    rw [leftOut, crowded_listing h, List.range_succ, List.map_append, List.drop_left' (by simp)]
    rfl
  rw [S3.removesAll_iff hdocumented, S3.listsAll_iff hdocumented, hdir, hleft (by decide), hleft (by decide)]
  constructor
  · rintro (hroot | hempty | ⟨-, hfits⟩)
    · rw [hnorm] at hroot
      cases hroot
    · rw [crowded_listing (by decide), List.map_eq_nil_iff, List.range_eq_nil] at hempty
      omega
    · cases hfits
  · intro h
    have hchild := h _ (List.mem_singleton.2 rfl)
    rw [crowdedKey, S3Entry.child?_object, if_neg (by simp)] at hchild
    cases hchild

end Bucket

end CliServer
