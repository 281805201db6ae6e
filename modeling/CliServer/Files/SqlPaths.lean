import CliServer.Files.Paths

/-!
# Paths of the SQLite provider

The rows are keyed by the text of a path, with a slash before each name (`key`).  A row is below another when its key
goes on with a slash (`key_append_slash_prefix_iff`).  `_ensure_parents` normalises the key of the parent again, which
drops the white space at its end: what comes out is the parent up to its last name (`normalizeSql_key`).
-/

namespace CliServer

/-- The names of a path, each with its slash. -/
def joined (p : Path) : Str := p.flatMap fun name => '/' :: name.text

/-- `"/" + "/".join(parts) if parts else "/"`. -/
def key (parts : Path) : Str := if parts = [] then ['/'] else '/' :: ['/'].intercalate (parts.map Name.text)

/-- The segments that `_normalize_path` of the SQLite provider keeps. -/
def sqlParts (path : Str) : Path :=
  let path := strip path
  if path = [] ∨ path = ['.'] ∨ path = ['/'] then [] else (pieces path).foldl addPiece []

/-- `_normalize_path` of the SQLite provider. -/
def normalizeSql (path : Str) : Str := key (sqlParts path)

/-- `_parent_path`, of a text of any characters; `rfind` finds a slash at an index above 0 when there is something
before the last one. -/
def parentOf {α : Type*} [DecidableEq α] (slash : α) (path : List α) : Option (List α) :=
  if path = [slash] then none
  else
    let parent := (path.rdropWhile (· ≠ slash)).dropLast
    if parent = [] then some [slash] else some parent

/-- `_parent_path`. -/
def parentPath (path : Str) : Option Str := parentOf '/' path

/-- `path.rsplit("/", 1)[-1]`. -/
def baseName (path : Str) : Str := path.rtakeWhile (· ≠ '/')

variable {p q s x : Path} {n : Name}

@[simp] theorem joined_nil : joined [] = [] := rfl

@[simp] theorem joined_cons (n : Name) (p : Path) : joined (n :: p) = '/' :: (n.text ++ joined p) := rfl

@[simp] theorem joined_append (p q : Path) : joined (p ++ q) = joined p ++ joined q := by
  simp [joined, List.flatMap_append]

private theorem intercalate_cons (a : Str) (l : List Str) :
    ['/'].intercalate (a :: l) = a ++ l.flatMap fun t => '/' :: t := by
  induction l generalizing a with
  | nil => simp
  | cons b l ih =>
    rw [List.intercalate_cons_cons, ih]
    simp

theorem key_of_ne_nil (hp : p ≠ []) : key p = joined p := by
  obtain ⟨n, p, rfl⟩ := List.exists_cons_of_ne_nil hp
  rw [key, if_neg hp, List.map_cons, intercalate_cons, joined_cons]
  simp [joined, List.flatMap_map]

private theorem joined_eq_nil_iff : joined p = [] ↔ p = [] := by cases p <;> simp

/-- A slash begins, and no other character of a name is one: so the first name can be read off. -/
private theorem slash_text_inj {a b u v : Str} (ha : '/' ∉ a) (hb : '/' ∉ b) (hv : v = [] ∨ v.head? = some '/')
    (h : a ++ '/' :: u = b ++ v) : a = b ∧ '/' :: u = v := by
  have htake : ∀ (c w : Str), '/' ∉ c → (w = [] ∨ w.head? = some '/') → (c ++ w).takeWhile (· ≠ '/') = c := by
    intro c w hc hw
    rw [List.takeWhile_append_of_pos (by intro y hy; simp; rintro rfl; exact hc hy)]
    rcases hw with rfl | hw
    · simp
    · cases w with
      | nil => simp
      | cons y w =>
        rw [List.head?_cons, Option.some_inj] at hw
        simp [hw]
  have heq : a = b := by
    rw [← htake a ('/' :: u) ha (.inr rfl), h, htake b v hb hv]
  subst heq
  exact ⟨rfl, List.append_cancel_left h⟩

private theorem head_joined (p : Path) : joined p = [] ∨ (joined p).head? = some '/' := by
  cases p with
  | nil => exact .inl rfl
  | cons n p => exact .inr rfl

/-- A key that goes on with a slash is the key of a path further down. -/
private theorem joined_prefix_iff : joined s ++ ['/'] <+: joined p ↔ ∃ x, x ≠ [] ∧ p = s ++ x := by
  constructor
  · induction s generalizing p with
    | nil =>
      intro h
      refine ⟨p, ?_, rfl⟩
      rintro rfl
      simp at h
    | cons n s ih =>
      intro h
      cases p with
      | nil => simp at h
      | cons m p =>
        obtain ⟨u, hu⟩ := h
        simp only [joined_cons, List.cons_append, List.cons.injEq, true_and, List.append_assoc] at hu
        -- what follows the first name starts with a slash on both sides
        obtain ⟨w, hw⟩ : ∃ w, joined s ++ '/' :: u = '/' :: w := by
          cases s with
          | nil => exact ⟨u, rfl⟩
          | cons k s => exact ⟨_, rfl⟩
        have hsplit : n.text ++ '/' :: w = m.text ++ joined p := by
          rw [← hw]
          simpa using hu
        obtain ⟨htext, hrest⟩ := slash_text_inj n.no_slash m.no_slash (head_joined p) hsplit
        have hname : n = m := by
          cases n
          cases m
          cases htext
          rfl
        obtain ⟨x, hx, rfl⟩ := ih (p := p) ⟨u, by rw [← hrest, ← hw]; simp⟩
        exact ⟨x, hx, by rw [hname]; rfl⟩
  · rintro ⟨x, hx, rfl⟩
    obtain ⟨m, x, rfl⟩ := List.exists_cons_of_ne_nil hx
    refine ⟨m.text ++ joined x, ?_⟩
    simp

private theorem joined_injective : Function.Injective joined := by
  intro p q h
  induction p generalizing q with
  | nil => exact (joined_eq_nil_iff.1 h.symm).symm
  | cons n p ih =>
    cases q with
    | nil => simp at h
    | cons m q =>
      simp only [joined_cons, List.cons.injEq, true_and] at h
      have hname : n.text = m.text ∧ joined p = joined q := by
        rcases head_joined p with hp | hp
        · rw [hp, List.append_nil] at h
          cases q with
          | nil => simp_all
          | cons k q =>
            exact absurd (h ▸ n.no_slash) (by simp)
        · cases p with
          | nil => simp at hp
          | cons k p =>
            obtain ⟨htext, hrest⟩ := slash_text_inj n.no_slash m.no_slash (head_joined q) h
            exact ⟨htext, hrest⟩
      obtain ⟨htext, hrest⟩ := hname
      cases n
      cases m
      cases htext
      rw [ih hrest]

theorem key_injective : Function.Injective key := by
  have hroot : ∀ p : Path, p ≠ [] → key p ≠ ['/'] := by
    intro p hp h
    obtain ⟨n, p, rfl⟩ := List.exists_cons_of_ne_nil hp
    rw [key_of_ne_nil hp, joined_cons, List.cons.injEq, List.append_eq_nil_iff] at h
    exact n.ne_nil h.2.1
  intro p q h
  by_cases hp : p = []
  · by_cases hq : q = []
    · rw [hp, hq]
    · rw [hp, key, if_pos rfl] at h
      exact absurd h.symm (hroot q hq)
  · by_cases hq : q = []
    · rw [hq] at h
      exact absurd h (hroot p hp)
    · rw [key_of_ne_nil hp, key_of_ne_nil hq] at h
      exact joined_injective h

theorem key_eq_slash_iff : key p = ['/'] ↔ p = [] := by
  constructor
  · intro h
    exact key_injective (h.trans (if_pos rfl).symm)
  · rintro rfl
    rfl

theorem key_ne_nil (p : Path) : key p ≠ [] := by
  by_cases hp : p = []
  · simp [hp, key]
  · rw [key_of_ne_nil hp]
    exact mt joined_eq_nil_iff.1 hp

theorem key_append (hs : s ≠ []) (x : Path) : key (s ++ x) = key s ++ joined x := by
  rw [key_of_ne_nil hs, key_of_ne_nil (by simp [hs]), joined_append]

/-- A row is below another when its key goes on with a slash. -/
theorem key_prefix_iff (hs : s ≠ []) : key s ++ ['/'] <+: key p ↔ ∃ x, x ≠ [] ∧ p = s ++ x := by
  rw [key_of_ne_nil hs]
  by_cases hp : p = []
  · subst hp
    constructor
    · intro h
      have hlen := h.length_le
      have hpos : 0 < (joined s).length := List.length_pos_of_ne_nil (mt joined_eq_nil_iff.1 hs)
      have hroot : (key ([] : Path)).length = 1 := rfl
      rw [hroot, List.length_append, List.length_singleton] at hlen
      omega
    · rintro ⟨x, hx, h⟩
      exact absurd (List.append_eq_nil_iff.1 h.symm).1 hs
  · rw [key_of_ne_nil hp]
    exact joined_prefix_iff

/-- A path that is not the root has a last name. -/
theorem exists_last (hp : p ≠ []) : ∃ q n, p = q ++ [n] := (List.eq_nil_or_concat' p).resolve_left hp

theorem joined_concat (p : Path) (n : Name) : joined (p ++ [n]) = joined p ++ '/' :: n.text := by simp

private theorem joined_getLast?_ne (hp : p ≠ []) : (joined p).getLast? ≠ some '/' := by
  obtain ⟨q, n, rfl⟩ := exists_last hp
  rw [joined_concat, List.getLast?_append_cons, List.getLast?_cons_of_ne_nil n.ne_nil]
  exact fun h => n.no_slash (List.mem_of_getLast? h)

theorem key_eq_cons (p : Path) : key p = '/' :: SegmentPath.join '/' (p.map Name.text) := by
  unfold key
  split
  · next h => rw [h]; rfl
  · rfl

/-- The parent of a path is that of its names but the last. -/
theorem parentOf_join {α : Type*} [DecidableEq α] {slash : α} {names : List (List α)}
    (h : ∀ n ∈ names, n ≠ [] ∧ slash ∉ n) (hne : names ≠ []) :
    parentOf slash (slash :: SegmentPath.join slash names) = some (slash :: SegmentPath.join slash names.dropLast) := by
  obtain ⟨init, n, rfl⟩ := (List.eq_nil_or_concat' names).resolve_left hne
  obtain ⟨hn, hslash⟩ := h n (by simp)
  have hcons : ∀ names : List (List α), names ≠ [] →
      slash :: SegmentPath.join slash names = names.flatMap fun m => slash :: m := by
    intro names hnames
    obtain ⟨m, names, rfl⟩ := List.exists_cons_of_ne_nil hnames
    rw [SegmentPath.join_cons, List.flatMap_cons, List.cons_append]
  have hpath : slash :: SegmentPath.join slash (init ++ [n]) = (init.flatMap fun m => slash :: m) ++ slash :: n := by
    rw [hcons _ hne, List.flatMap_append, List.flatMap_singleton]
  have hdrop : ((init.flatMap fun m => slash :: m) ++ slash :: n).rdropWhile (· ≠ slash) =
      (init.flatMap fun m => slash :: m) ++ [slash] := by
    rw [List.rdropWhile, List.reverse_append, List.reverse_cons, List.append_assoc, List.dropWhile_append_of_pos]
    · simp
    · intro c hc
      rw [decide_eq_true_eq]
      rintro rfl
      exact hslash (List.mem_reverse.1 hc)
  have hroot : (init.flatMap fun m => slash :: m) ++ slash :: n ≠ [slash] := by
    intro heq
    have hlen := congrArg List.length heq
    have hpos : 0 < n.length := List.length_pos_of_ne_nil hn
    simp only [List.length_append, List.length_cons, List.length_nil] at hlen
    omega
  rw [hpath, parentOf, if_neg hroot, hdrop, List.dropLast_concat, List.dropLast_concat]
  by_cases hinit : init = []
  · rw [hinit]
    rfl
  · obtain ⟨m, rest, rfl⟩ := List.exists_cons_of_ne_nil hinit
    rw [hcons _ hinit]
    simp

theorem parentPath_key (hp : p ≠ []) : parentPath (key p) = some (key p.dropLast) := by
  have hnames : ∀ n ∈ p.map Name.text, n ≠ [] ∧ '/' ∉ n := by
    intro text htext
    obtain ⟨n, -, rfl⟩ := List.mem_map.1 htext
    exact ⟨n.ne_nil, n.no_slash⟩
  rw [parentPath, key_eq_cons, key_eq_cons, parentOf_join hnames (by simpa using hp), List.map_dropLast]

/-! ### Normalising a key again -/

private theorem stripSlashes_key (hp : p ≠ []) : stripSlashes (key p) = ['/'].intercalate (p.map Name.text) := by
  rw [stripSlashes, key_of_ne_nil hp]
  have hlast := joined_getLast?_ne hp
  obtain ⟨n, q, rfl⟩ := List.exists_cons_of_ne_nil hp
  have hjoin : ['/'].intercalate ((n :: q).map Name.text) = n.text ++ joined q := by
    rw [List.map_cons, intercalate_cons]
    simp [joined, List.flatMap_map]
  have hleft : (joined (n :: q)).dropWhile (· = '/') = n.text ++ joined q := by
    obtain ⟨c, t, htext⟩ := List.exists_cons_of_ne_nil n.ne_nil
    have hc : c ≠ '/' := by
      rintro rfl
      exact n.no_slash (by simp [htext])
    simp [htext, hc]
  rw [hleft, hjoin, List.rdropWhile_eq_self_iff]
  intro hne h
  apply hlast
  rw [joined_cons, List.getLast?_cons_of_ne_nil hne, List.getLast?_eq_some_getLast hne]
  simpa using h

/-- The loop of `_ensure_parents` goes through the names of the path. -/
theorem split_key (hp : p ≠ []) : (stripSlashes (key p)).splitOn '/' = p.map Name.text := by
  rw [stripSlashes_key hp, List.splitOn_intercalate]
  · intro t ht
    obtain ⟨n, _, rfl⟩ := List.mem_map.1 ht
    exact n.no_slash
  · simpa using hp

private theorem addPiece_name (parts : Path) (n : Name) : addPiece parts ⟨n.text, n.no_slash⟩ = parts ++ [n] := by
  rw [addPiece, dif_neg (by simp [n.ne_nil, n.ne_dot]), dif_neg n.ne_dots]

/-- A piece goes one name further, or none, or back. -/
private theorem addPiece_dropLast (parts : Path) (piece : Piece) :
    (addPiece parts piece).dropLast <+: parts ∧ (addPiece parts piece).length ≤ parts.length + 1 := by
  rw [addPiece]
  split
  · exact ⟨List.dropLast_prefix parts, Nat.le_succ _⟩
  · split
    · refine ⟨(List.dropLast_prefix _).trans (List.dropLast_prefix parts), ?_⟩
      rw [List.length_dropLast]
      omega
    · simp

private theorem foldl_addPiece_names (parts q : Path) :
    (q.map fun n => (⟨n.text, n.no_slash⟩ : Piece)).foldl addPiece parts = parts ++ q := by
  induction q generalizing parts with
  | nil => simp
  | cons n q ih =>
    rw [List.map_cons, List.foldl_cons, addPiece_name, ih]
    simp

private theorem pieces_of_splitOn {path : Str} {l : List Piece} (h : path.splitOn '/' = l.map Subtype.val) :
    pieces path = l := by
  have hval : (pieces path).map Subtype.val = path.splitOn '/' := by simp [pieces]
  exact List.map_injective_iff.2 Subtype.val_injective (hval.trans h)

private theorem rdropWhile_isSpace_append (t m : Str) :
    (t ++ '/' :: m).rdropWhile isSpace = t ++ '/' :: m.rdropWhile isSpace := by
  induction m using List.reverseRecOn with
  | nil =>
    rw [List.rdropWhile_eq_self_iff.2]
    · rfl
    · simp [isSpace]
  | append_singleton m c ih =>
    rw [← List.cons_append, ← List.append_assoc]
    by_cases hc : isSpace c = true
    · rw [List.rdropWhile_concat_pos _ _ _ hc, List.rdropWhile_concat_pos _ _ _ hc, ih]
    · rw [List.rdropWhile_concat_neg _ _ _ hc, List.rdropWhile_concat_neg _ _ _ hc]
      simp

/-- The pieces of a path that goes on with a last piece. -/
private theorem pieces_joined_append (q : Path) {m : Str} (hm : '/' ∉ m) : pieces (joined q ++ '/' :: m) =
    ⟨[], by simp⟩ :: ((q.map fun n => ⟨n.text, n.no_slash⟩) ++ [⟨m, hm⟩]) := by
  apply pieces_of_splitOn
  have hjoin : joined q ++ '/' :: m = ['/'].intercalate ([] :: (q.map Name.text ++ [m])) := by
    rw [intercalate_cons]
    simp [joined, List.flatMap_map]
  rw [hjoin, List.splitOn_intercalate _ _ (by simp)]
  · simp
  · intro t ht
    rcases List.mem_cons.1 ht with rfl | ht
    · simp
    · rcases List.mem_append.1 ht with ht | ht
      · obtain ⟨n, _, rfl⟩ := List.mem_map.1 ht
        exact n.no_slash
      · rw [List.mem_singleton.1 ht]
        exact hm

private theorem foldl_pieces_joined (q : Path) {m : Str} (hm : '/' ∉ m) :
    (pieces (joined q ++ '/' :: m)).foldl addPiece [] = addPiece q ⟨m, hm⟩ := by
  have hempty : addPiece [] ⟨[], by simp⟩ = [] := by simp [addPiece]
  rw [pieces_joined_append q hm, List.foldl_cons, hempty, List.foldl_append, foldl_addPiece_names, List.nil_append,
    List.foldl_cons, List.foldl_nil]

private theorem strip_joined (q : Path) (n : Name) :
    strip (joined q ++ '/' :: n.text) = joined q ++ '/' :: n.text.rdropWhile isSpace := by
  have hstart : (joined q ++ '/' :: n.text).dropWhile isSpace = joined q ++ '/' :: n.text := by
    cases q <;> simp [List.dropWhile_cons_of_neg, isSpace]
  rw [strip, hstart, rdropWhile_isSpace_append]

/-- To normalise the key of a path drops the white space at its end: only its last name can change. -/
theorem sqlParts_key (p : Path) :
    (sqlParts (key p)).dropLast <+: p.dropLast ∧ (sqlParts (key p)).length ≤ p.length := by
  by_cases hp : p = []
  · have hroot : sqlParts (key []) = [] := by simp [sqlParts, key, strip, isSpace, List.rdropWhile]
    rw [hp, hroot]
    exact ⟨List.nil_prefix, Nat.le_refl _⟩
  · obtain ⟨q, n, rfl⟩ := exists_last hp
    have hm : '/' ∉ n.text.rdropWhile isSpace := by
      intro h
      exact n.no_slash ((List.rdropWhile_prefix isSpace n.text).subset h)
    rw [key_of_ne_nil hp, joined_concat, sqlParts, strip_joined]
    simp only [foldl_pieces_joined q hm, List.dropLast_concat, List.length_append, List.length_singleton]
    split
    · simp
    · exact addPiece_dropLast q _

end CliServer
