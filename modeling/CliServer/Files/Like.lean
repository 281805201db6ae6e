import CliServer.Files.SqlPaths
import CliServer.Lib.Regex

/-!
# LIKE

A pattern of `LIKE` has the wildcards `%` and `_`, and the case of ASCII letters does not count (`like`).  SQLite reads
a text up to its first U+0000 and refuses a pattern of more than 50000 bytes (`Like.sqlite`).  The provider looks for
what is below a path with a pattern made of it (`below`), and what holds of every `Like` is all that is used of it.
-/

namespace CliServer

/-- A pattern, as it is documented. -/
def likeRegex : Str → Regex Char
  | [] => .eps
  | '%' :: p => .cat (.star (.set fun _ => true)) (likeRegex p)
  | '_' :: p => .cat (.set fun _ => true) (likeRegex p)
  | c :: p => .cat (.set fun x => x.toLower == c.toLower) (likeRegex p)

/-- `text LIKE pattern`, as it is documented. -/
def like (pattern text : Str) : Bool := (likeRegex pattern).accepts text

variable {p q u w text : Str}

theorem like_iff {pattern text : Str} : like pattern text = true ↔ text ∈ (likeRegex pattern).lang :=
  Regex.accepts_iff _ _

/-- A character of a pattern, whatever comes after it. -/
theorem likeRegex_cons (c : Char) : ∃ r, ∀ p, likeRegex (c :: p) = .cat r (likeRegex p) := by
  by_cases hpercent : c = '%'
  · exact ⟨.star (.set fun _ => true), fun p => by rw [hpercent]; rfl⟩
  · by_cases hunderscore : c = '_'
    · exact ⟨.set fun _ => true, fun p => by rw [hunderscore]; rfl⟩
    · refine ⟨.set fun x => x.toLower == c.toLower, fun p => ?_⟩
      rw [likeRegex]
      · exact fun h => hpercent h
      · exact fun h => hunderscore h

private theorem mem_lang_likeRegex_cons (c : Char) (p : Str) {w : Str} (h : w ∈ (likeRegex p).lang) :
    c :: w ∈ (likeRegex (c :: p)).lang := by
  unfold likeRegex
  split
  · next heq => cases heq
  · next q heq =>
    cases heq
    exact Regex.mem_lang_cat.2 ⟨['%'], Regex.mem_lang_star_set.2 (fun _ _ => rfl), w, h, rfl⟩
  · next q heq =>
    cases heq
    exact Regex.mem_lang_cat.2 ⟨['_'], Regex.mem_lang_set.2 ⟨'_', rfl, rfl⟩, w, h, rfl⟩
  · next q _ _ heq =>
    cases heq
    exact Regex.mem_lang_cat.2 ⟨[c], Regex.mem_lang_set.2 ⟨c, by simp, rfl⟩, w, h, rfl⟩

/-- A pattern in two parts. -/
theorem mem_lang_likeRegex_append {a b w : Str} : w ∈ (likeRegex (a ++ b)).lang ↔
    ∃ u ∈ (likeRegex a).lang, ∃ v ∈ (likeRegex b).lang, u ++ v = w := by
  induction a generalizing w with
  | nil =>
    constructor
    · intro h
      exact ⟨[], rfl, w, h, rfl⟩
    · rintro ⟨u, hu, v, hv, rfl⟩
      obtain rfl : u = [] := hu
      exact hv
  | cons c a ih =>
    obtain ⟨r, hr⟩ := likeRegex_cons c
    rw [List.cons_append, hr, hr]
    constructor
    · intro h
      obtain ⟨x, hx, y, hy, rfl⟩ := Regex.mem_lang_cat.1 h
      obtain ⟨u, hu, v, hv, rfl⟩ := ih.1 hy
      exact ⟨x ++ u, Regex.mem_lang_cat.2 ⟨x, hx, u, hu, rfl⟩, v, hv, List.append_assoc x u v⟩
    · rintro ⟨xu, hxu, v, hv, rfl⟩
      obtain ⟨x, hx, u, hu, rfl⟩ := Regex.mem_lang_cat.1 hxu
      exact Regex.mem_lang_cat.2 ⟨x, hx, u ++ v, ih.2 ⟨u, hu, v, hv, rfl⟩, (List.append_assoc x u v).symm⟩

/-- Every text is like itself. -/
private theorem like_self (p : Str) : like p p = true := by
  rw [like_iff]
  induction p with
  | nil => rfl
  | cons c p ih => exact mem_lang_likeRegex_cons c _ ih

/-- What is like the start of a pattern is, with anything after it, like the pattern with a `%`. -/
private theorem like_percent (h : like p u = true) (y : Str) : like (p ++ ['%']) (u ++ y) = true := by
  rw [like_iff, mem_lang_likeRegex_append]
  refine ⟨u, like_iff.1 h, y, ?_, rfl⟩
  exact Regex.mem_lang_cat.2 ⟨y, Regex.mem_lang_star_set.2 (fun _ _ => rfl), [], rfl, List.append_nil y⟩

/-- Every text is like itself, with anything after it. -/
theorem like_append (p y : Str) : like (p ++ ['%']) (p ++ y) = true := like_percent (like_self p) y

/-- `LIKE` finds everything below what it finds. -/
private theorem like_below (h : like (p ++ ['%']) text = true) (rest : Str) :
    like (p ++ ['%']) (text ++ rest) = true := by
  rw [like_iff, mem_lang_likeRegex_append] at h
  obtain ⟨u, hu, v, -, rfl⟩ := h
  rw [List.append_assoc]
  exact like_percent (like_iff.2 hu) (v ++ rest)

theorem toLower_eq_slash {y : Char} (h : y.toLower = '/') : y = '/' := by
  unfold Char.toLower at h
  split at h
  · next hrange =>
    exfalso
    have hlower : 65 ≤ y.val.toNat := UInt32.le_iff_toNat_le.1 hrange.1
    have hupper : y.val.toNat ≤ 90 := UInt32.le_iff_toNat_le.1 hrange.2
    have hsum : (y.val + (97 - 65)).toNat = 47 := congrArg (fun c => c.val.toNat) h
    have h32 : ((97 : UInt32) - 65).toNat = 32 := rfl
    rw [UInt32.toNat_add] at hsum
    omega
  · exact h

/-- A slash of a pattern is like a slash only. -/
private theorem like_slash_cons (h : like ('/' :: p) text = true) : ∃ w, like p w = true ∧ text = '/' :: w := by
  obtain ⟨a, ha, w, hw, rfl⟩ := Regex.mem_lang_cat.1 (like_iff.1 h)
  obtain ⟨c, hc, rfl⟩ := Regex.mem_lang_set.1 ha
  have hslash : c = '/' := toLower_eq_slash (by simpa using hc)
  exact ⟨w, like_iff.2 hw, by rw [hslash]; rfl⟩

/-- A pattern of two slashes or more is not like the root. -/
theorem not_like_root (p : Str) : like ('/' :: (p ++ ['/', '%'])) ['/'] = false := by
  rw [Bool.eq_false_iff]
  intro h
  obtain ⟨w, hw, heq⟩ := like_slash_cons h
  obtain rfl : w = [] := (List.cons.inj heq).2.symm
  rw [like_iff, mem_lang_likeRegex_append] at hw
  obtain ⟨u, -, v, hv, hnil⟩ := hw
  obtain ⟨v', -, rfl⟩ := like_slash_cons (like_iff.2 hv)
  exact List.cons_ne_nil _ _ (List.append_eq_nil_iff.1 hnil).2

/-! ### The `LIKE` of a database -/

/-- Which texts a pattern finds, and which patterns are refused. -/
structure Like where
  finds : Str → Str → Bool
  refuses : Str → Bool
  /-- A text with a `%` finds the text with anything after it. -/
  finds_append : ∀ p y, finds (p ++ ['%']) (p ++ y) = true
  /-- Two slashes and a `%` are no pattern of a path. -/
  finds_root : ∀ p : Path, finds ['/', '/', '%'] (key p) = false
  refuses_root : refuses ['/', '/', '%'] = false

/-- The first name of a path begins with another character than a slash. -/
private theorem key_second {p : Path} {w : Str} (h : key p = '/' :: '/' :: w) : False := by
  by_cases hp : p = []
  · rw [hp] at h
    cases h
  · obtain ⟨n, q, rfl⟩ := List.exists_cons_of_ne_nil hp
    obtain ⟨c, t, htext⟩ := List.exists_cons_of_ne_nil n.ne_nil
    rw [key_of_ne_nil hp, joined_cons, htext] at h
    refine n.no_slash ?_
    rw [htext, (List.cons.inj (List.cons.inj h).2).1]
    exact List.mem_cons_self

namespace Like

/-- `LIKE` as it is documented. -/
def documented : Like where
  finds := like
  refuses _ := false
  finds_append := like_append
  finds_root p := by
    rw [Bool.eq_false_iff]
    intro h
    obtain ⟨u, hu, heq⟩ := like_slash_cons h
    obtain ⟨w, -, rfl⟩ := like_slash_cons hu
    exact key_second heq
  refuses_root := rfl

/-- What SQLite reads of a text: it ends at U+0000, and U+FFFE and U+FFFF are read as U+FFFD. -/
def reading (text : Str) : Str :=
  (text.takeWhile (· ≠ '\x00')).map fun c => if c = '\uFFFE' ∨ c = '\uFFFF' then '\uFFFD' else c

private theorem reading_cons (c : Char) (p : Str) : reading (c :: p) =
    if c = '\x00' then [] else (if c = '\uFFFE' ∨ c = '\uFFFF' then '\uFFFD' else c) :: reading p := by
  by_cases hc : c = '\x00' <;> simp [reading, hc]

private theorem reading_append (p q : Str) :
    reading (p ++ q) = if '\x00' ∈ p then reading p else reading p ++ reading q := by
  induction p with
  | nil => simp [reading]
  | cons c p ih =>
    rw [List.cons_append, reading_cons, reading_cons, ih]
    by_cases hc : c = '\x00'
    · simp [hc]
    · by_cases hp : '\x00' ∈ p <;> simp [hc, Ne.symm hc, hp]

private theorem reading_slash (p : Str) : reading ('/' :: p) = '/' :: reading p := by simp [reading_cons]

/-- What is read as a slash is one. -/
private theorem slash_of_reading (h : reading p = '/' :: w) : ∃ q, p = '/' :: q ∧ reading q = w := by
  cases p with
  | nil => cases h
  | cons c p =>
    rw [reading_cons] at h
    split at h
    · cases h
    · obtain ⟨hc, rfl⟩ := List.cons.inj h
      split at hc
      · exact absurd hc (by decide)
      · exact ⟨p, by rw [hc], rfl⟩

/-- The `LIKE` of SQLite. -/
def sqlite : Like where
  finds pattern text := like (reading pattern) (reading text)
  refuses pattern := 50000 < utf8Length pattern
  finds_append p y := by
    rw [reading_append, reading_append]
    split
    · exact like_self _
    · exact like_append _ _
  finds_root p := by
    rw [Bool.eq_false_iff]
    intro h
    rw [reading_slash, reading_slash] at h
    obtain ⟨u, hu, hkey⟩ := like_slash_cons h
    obtain ⟨w, -, rfl⟩ := like_slash_cons hu
    obtain ⟨rest, hrest, hread⟩ := slash_of_reading hkey
    obtain ⟨x, rfl, -⟩ := slash_of_reading hread
    exact key_second hrest
  refuses_root := by decide

end Like

/-- The pattern of what is below a path. -/
def below (norm : Str) : Str := norm ++ ['/', '%']

variable (L : Like)

/-- Everything below a path is found by its pattern. -/
theorem Like.finds_below (norm y : Str) : L.finds (below norm) (norm ++ '/' :: y) = true := by
  have h := L.finds_append (norm ++ ['/']) y
  simpa [below] using h

/-- SQLite finds everything below what it finds, when the pattern has no U+0000. -/
theorem Like.sqlite_finds_below {norm : Str} (hnorm : '\x00' ∉ norm) (h : sqlite.finds (below norm) text = true)
    (rest : Str) : sqlite.finds (below norm) (text ++ rest) = true := by
  have hpattern : reading (below norm) = reading norm ++ ['/'] ++ ['%'] := by
    rw [below, reading_append, if_neg hnorm, List.append_assoc]
    rfl
  have hfound : like (reading norm ++ ['/'] ++ ['%']) (reading text) = true := by
    rw [← hpattern]
    exact h
  show like (reading (below norm)) (reading (text ++ rest)) = true
  rw [hpattern, reading_append]
  split
  · exact hfound
  · exact like_below hfound _

/-- It does not find the root then. -/
theorem Like.sqlite_not_root {norm : Str} (hnorm : '\x00' ∉ norm) (hslash : norm.head? = some '/') :
    sqlite.finds (below norm) ['/'] = false := by
  obtain ⟨p, rfl⟩ : ∃ p, norm = '/' :: p := by
    cases norm with
    | nil => cases hslash
    | cons c p => exact ⟨p, by rw [Option.some.inj hslash]⟩
  show like (reading (below ('/' :: p))) (reading ['/']) = false
  rw [below, reading_append, if_neg hnorm, reading_slash]
  exact not_like_root _

end CliServer
