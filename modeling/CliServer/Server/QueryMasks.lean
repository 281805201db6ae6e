import CliServer.Server.JsonSecrets
import CliServer.Server.QueryStrings

/-!
# Masks in query strings

What the patterns make of a query string in which a ticket or a bearer token stands: `ticket_masked` and
`token_masked` say where it is masked whole, in any line.
-/

namespace CliServer

open Json (CodePoint Text ofChar ofChars val_ofChar)
open Substitution QueryStrings

namespace Redaction

/-- Texts of one shape differ in letters and digits only. -/
def shape (s : Text) : List (Option CodePoint) := s.map fun c => if isAlnum c.val then none else some c

/-- The only text of its shape. -/
def Fixed (s : Text) : Prop := ∀ c ∈ s, isAlnum c.val = false

instance (s : Text) : Decidable (Fixed s) := decidable_of_iff ((s.all fun c => !isAlnum c.val) = true) (by simp [Fixed])

/-! ### Shapes -/

section Shapes

variable {r s : Text} {c d : CodePoint} {p : CodePoint → Bool}

theorem shape_cons_iff : shape (c :: r) = shape (d :: s) ↔
    (isAlnum c.val = true ∧ isAlnum d.val = true ∨ isAlnum d.val = false ∧ c = d) ∧ shape r = shape s := by
  simp only [shape, List.map_cons, List.cons.injEq]
  cases hc : isAlnum c.val <;> cases hd : isAlnum d.val
  · simp
  · simp only [Bool.false_eq_true, if_false, if_true, reduceCtorEq, false_and, or_self]
  · simp only [Bool.false_eq_true, if_false, if_true, reduceCtorEq, and_false, false_or, true_and, false_and, false_iff,
      not_and]
    rintro rfl
    rw [hc] at hd
    cases hd
  · simp

theorem length_of_shape (h : shape r = shape s) : r.length = s.length := by
  have hlength := congrArg List.length h
  rwa [shape, shape, List.length_map, List.length_map] at hlength

theorem eq_of_shape (h : shape r = shape s) (hs : Fixed s) : r = s := by
  induction r generalizing s with
  | nil => exact (List.length_eq_zero_iff.1 (length_of_shape h).symm).symm
  | cons c r ih =>
    cases s with
    | nil => exact absurd (length_of_shape h) (Nat.succ_ne_zero _)
    | cons d s =>
      obtain ⟨hhead, htail⟩ := shape_cons_iff.1 h
      obtain ⟨hd, hrest⟩ := List.forall_mem_cons.1 hs
      rcases hhead with ⟨-, halnum⟩ | ⟨-, rfl⟩
      · rw [halnum] at hd
        cases hd
      · rw [ih htail hrest]

/-- Where `p` has all letters and digits, the shape says how long `p+` is. -/
theorem shape_split (hp : ∀ c : CodePoint, isAlnum c.val = true → p c = true) (h : shape r = shape s) :
    shape (r.takeWhile p) = shape (s.takeWhile p) ∧ shape (r.dropWhile p) = shape (s.dropWhile p) := by
  induction r generalizing s with
  | nil =>
    obtain rfl : s = [] := List.length_eq_zero_iff.1 (length_of_shape h).symm
    exact ⟨rfl, rfl⟩
  | cons c r ih =>
    cases s with
    | nil => exact absurd (length_of_shape h) (Nat.succ_ne_zero _)
    | cons d s =>
      obtain ⟨hhead, htail⟩ := shape_cons_iff.1 h
      have hsame : p c = p d := by
        rcases hhead with ⟨hc, hd⟩ | ⟨-, rfl⟩
        · rw [hp c hc, hp d hd]
        · rfl
      cases hd : p d with
      | false =>
        rw [hd] at hsame
        rw [List.takeWhile_cons_of_neg (by simp [hsame]), List.takeWhile_cons_of_neg (by simp [hd]),
          List.dropWhile_cons_of_neg (by simp [hsame]), List.dropWhile_cons_of_neg (by simp [hd])]
        exact ⟨rfl, h⟩
      | true =>
        rw [hd] at hsame
        rw [List.takeWhile_cons_of_pos hsame, List.takeWhile_cons_of_pos hd, List.dropWhile_cons_of_pos hsame,
          List.dropWhile_cons_of_pos hd]
        exact ⟨shape_cons_iff.2 ⟨hhead, (ih htail).1⟩, (ih htail).2⟩

/-- What `p+` leaves of the shape is one text, if it is `Fixed`. -/
theorem dropWhile_of_shape (hp : ∀ c : CodePoint, isAlnum c.val = true → p c = true) (h : shape r = shape s)
    (hs : Fixed (s.dropWhile p)) : r.dropWhile p = s.dropWhile p :=
  eq_of_shape (shape_split hp h).2 hs

theorem takeWhile_ne_nil (h : shape r = shape s) (hp : ∀ c : CodePoint, isAlnum c.val = true → p c = true)
    (hne : s.takeWhile p ≠ []) : r.takeWhile p ≠ [] := by
  have hlength := length_of_shape (shape_split hp h).1
  intro hnil
  rw [hnil, List.length_nil] at hlength
  exact hne (List.length_eq_zero_iff.1 hlength.symm)

end Shapes

/-! ### The characters of the patterns -/

section Characters

variable {c x : CodePoint}

/-- The ASCII characters of a letter of a pattern. -/
theorem letter_cases {a : Char} (ha : 0x61 ≤ a.toNat ∧ a.toNat ≤ 0x7A) (h : letter a x = true) (hx : x.val < 0x80) :
    x.val = a.toNat ∨ x.val + 0x20 = a.toNat := by
  rw [letter, decide_eq_true_eq] at h
  unfold foldCase at h
  grind

/-- No character beyond ASCII is taken for a letter but `i`, `k` and `s`. -/
private theorem ascii_of_letter {a : Char}
    (ha : 0x61 ≤ a.toNat ∧ a.toNat ≤ 0x7A ∧ a.toNat ≠ 0x69 ∧ a.toNat ≠ 0x6B ∧ a.toNat ≠ 0x73)
    (h : letter a x = true) : x.val < 0x80 := by
  rw [letter, decide_eq_true_eq] at h
  unfold foldCase at h
  grind

theorem isAlnum_of_letter {a : Char} (ha : 0x61 ≤ a.toNat ∧ a.toNat ≤ 0x7A) (h : letter a x = true)
    (hx : x.val < 0x80) :
    isAlnum x.val = true := by
  have hcases := letter_cases ha h hx
  simp only [isAlnum, Bool.or_eq_true, Bool.and_eq_true, decide_eq_true_eq]
  omega

theorem tokenChar_of_alnum (h : isAlnum c.val = true) : tokenChar c = true := by
  have hfold : isAlnum (foldCase c.val) = true := by
    simp only [isAlnum, Bool.or_eq_true, Bool.and_eq_true, decide_eq_true_eq] at h ⊢
    unfold foldCase
    grind
  rw [tokenChar, hfold, Bool.true_or]

theorem toNat_ofNat_val (h : c.val < 0xD800) : (Char.ofNat c.val).toNat = c.val := by
  rw [Char.ofNat, dif_pos (.inl h)]
  rfl

private theorem space_iff (h : c.val < 0x80) :
    space c = true ↔ 9 ≤ c.val ∧ c.val ≤ 13 ∨ 0x1c ≤ c.val ∧ c.val ≤ 0x20 := by
  simp only [space, isSpace, toNat_ofNat_val (show c.val < 0xD800 by omega), Bool.or_eq_true, Bool.and_eq_true,
    decide_eq_true_eq, beq_iff_eq]
  omega

theorem queryChar_of_alnum (h : isAlnum c.val = true) : queryChar c = true := by
  have hmarks : c ∉ ofChars ['&', '"', '\''] := by
    intro hmem
    obtain ⟨d, hd, rfl⟩ := List.mem_map.1 hmem
    have hall : (['&', '"', '\''].any fun d => isAlnum d.toNat) = false := rfl
    rw [val_ofChar] at h
    exact List.any_eq_false.1 hall d hd h
  have hspace : space c = false := by
    simp only [isAlnum, Bool.or_eq_true, Bool.and_eq_true, decide_eq_true_eq] at h
    rw [Bool.eq_false_iff, Ne, space_iff (by omega)]
    omega
  rw [queryChar, hspace, Bool.or_false, decide_eq_false hmarks]
  rfl

end Characters

/-! ### Masked tickets -/

/-- An ASCII character that no query value goes on with. -/
def stops (c : CodePoint) : Bool := !queryChar c && c.val < 0x80

/-- The text does not go on with a query value. -/
def Ended (z : Text) : Prop := ∀ c ∈ z.head?, stops c = true

section Stops

variable {c : CodePoint} {other : CodePoint → Bool} {z : Text} {prev prev' : Option CodePoint}

theorem stops_eq_false_of_letter {a : Char} (ha : 0x61 ≤ a.toNat ∧ a.toNat ≤ 0x7A) (h : letter a c = true) :
    stops c = false := by
  by_contra hstops
  rw [Bool.not_eq_false, stops, Bool.and_eq_true, Bool.not_eq_true', decide_eq_true_eq] at hstops
  rw [queryChar_of_alnum (isAlnum_of_letter ha h hstops.2)] at hstops
  exact absurd hstops.1 Bool.noConfusion

theorem stops_eq_false_of_wordChar (h : wordChar other c = true) : stops c = false := by
  by_contra hstops
  rw [Bool.not_eq_false, stops, Bool.and_eq_true, Bool.not_eq_true', decide_eq_true_eq] at hstops
  obtain ⟨hquery, hascii⟩ := hstops
  rw [wordChar, if_pos hascii, Bool.or_eq_true, decide_eq_true_eq] at h
  rcases h with h | h
  · rw [queryChar_of_alnum h] at hquery
    cases hquery
  · have hunderscore : queryChar ⟨0x5F, by decide⟩ = true := by decide
    have hc : c = ⟨0x5F, by decide⟩ := Fin.ext h
    rw [hc, hunderscore] at hquery
    cases hquery

theorem starts_lit {p : CodePoint → Prop} {a : Char} {s : List Char} (ha : ∀ c, letter a c = true → p c) :
    Starts p (lit (a :: s)) := ⟨ha, .inl fun _ _ => trivial⟩

theorem bearer_starts {p : CodePoint → Prop} (hp : ∀ c, letter 'b' c = true → p c) : Starts p bearer.opening :=
  ⟨trivial, .inr ⟨⟨starts_lit hp, .inl (.inl fun _ _ => trivial)⟩, .inl (.inl (.inl fun _ _ => trivial))⟩⟩

theorem bearer_nonempty : Needs (fun _ => True) bearer.opening := .inr (.inl (.inl (.inl fun _ _ => trivial)))

theorem queryValue_starts : Starts (stops · = false) (queryValue other).opening := by
  have hlit : ∀ (a : Char) (s : List Char), 0x61 ≤ a.toNat ∧ a.toNat ≤ 0x7A → Starts (stops · = false) (lit (a :: s)) :=
    fun a s ha => starts_lit fun _ h => stops_eq_false_of_letter ha h
  have hword : Needs (fun _ : CodePoint => True) (queryValue other).group := (queryValue_queryRule other).nonempty
  exact ⟨trivial, .inr ⟨⟨⟨fun _ h => stops_eq_false_of_wordChar h, .inr ⟨hlit _ _ (by decide), hlit _ _ (by decide),
    hlit _ _ (by decide), hlit _ _ (by decide)⟩⟩, hlit _ _ (by decide)⟩, .inl hword⟩⟩

theorem queryValue_nonempty : Needs (fun _ => True) (queryValue other).opening :=
  .inr (.inl (queryValue_queryRule other).nonempty)

/-- No match begins at a character that ends a value. -/
theorem subFrom_ended {r : Rule CodePoint} (hstarts : Starts (stops · = false) r.opening)
    (hneeds : Needs (fun _ => True) r.opening) (hz : Ended z) (prev prev' : Option CodePoint) :
    r.subFrom 0 prev z = r.subFrom 0 prev' z ∧ Ended (r.subFrom 0 prev z) := by
  have hstart := Rule.subFrom_start hstarts hneeds (fun c hc => by rw [hz c hc]; exact Bool.noConfusion) prev prev'
  exact ⟨hstart.1, fun c hc => hz c (hstart.2 ▸ hc)⟩

theorem bearer_starts_stops : Starts (stops · = false) bearer.opening :=
  bearer_starts fun _ h => stops_eq_false_of_letter (by decide) h

end Stops

/-- The word `bearer`, in any case. -/
def Bearer (β : Text) : Prop := Consumes (lit ['b', 'e', 'a', 'r', 'e', 'r']) none β []

/-- The text ends in `bearer`. -/
def EndsBearer (y : Text) : Prop := ∃ u β, y = u ++ β ∧ Bearer β

/-- Blanks, and then a character of a token. -/
def blankToken (z : Text) : Bool := z.takeWhile space ≠ [] && (z.dropWhile space).head?.any tokenChar

section Tickets

variable {c : CodePoint} {other : CodePoint → Bool} {y y' z : Text} {prev : Option CodePoint}

private theorem space_eq_false_of_queryChar (h : queryChar c = true) : space c = false := by
  rw [queryChar, Bool.not_eq_true', Bool.or_eq_false_iff] at h
  exact h.2

theorem space_eq_false_of_tokenChar (h : tokenChar c = true) : space c = false := by
  rw [tokenChar, Bool.or_eq_true, decide_eq_true_eq] at h
  rcases h with h | h
  · have hval : (0x30 ≤ c.val ∧ c.val ≤ 0x39 ∨ 0x41 ≤ c.val ∧ c.val ≤ 0x5A ∨ 0x61 ≤ c.val ∧ c.val ≤ 0x7A) ∨
        c.val = 0x130 ∨ c.val = 0x131 ∨ c.val = 0x17F ∨ c.val = 0x212A := by
      simp only [isAlnum, Bool.or_eq_true, Bool.and_eq_true, decide_eq_true_eq] at h
      unfold foldCase at h
      split_ifs at h <;> omega
    rw [Bool.eq_false_iff]
    intro hspace
    simp only [space, isSpace, toNat_ofNat_val (show c.val < 0xD800 by omega), Bool.or_eq_true, Bool.and_eq_true,
      decide_eq_true_eq, beq_iff_eq] at hspace
    omega
  · have hall : (['.', '_', '~', '+', '/', '=', '%', '-'].any fun d => space (ofChar d)) = false := by decide
    obtain ⟨d, hd, rfl⟩ := List.mem_map.1 h
    exact Bool.eq_false_iff.2 (List.any_eq_false.1 hall d hd)

private theorem space_nameChars (h : space c = true) (hascii : c.val < 0x80) : ∀ a ∈ nameChars, letter a c = false := by
  have hval := (space_iff hascii).1 h
  have hall : (nameChars.any fun a => foldCase a.toNat < 0x21) = false := by decide
  intro a ha
  have hname := List.any_eq_false.1 hall a ha
  rw [decide_eq_true_eq] at hname
  have hfold : foldCase c.val = c.val := by
    unfold foldCase
    split_ifs <;> omega
  rw [letter, hfold]
  exact decide_eq_false (by omega)

private theorem stops_cases (h : stops c = true) : c ∈ ofChars ['&', '"', '\''] ∨ space c = true := by
  rw [stops, Bool.and_eq_true, Bool.not_eq_true', queryChar, Bool.not_eq_false', Bool.or_eq_true,
    decide_eq_true_eq] at h
  exact h.1

private theorem marks_bearer (h : c ∈ ofChars ['&', '"', '\'']) : Avoids c bearer.pattern := by
  have hall : ∀ d : Char, d ∈ ['&', '"', '\''] → Mark (ofChar d) ∧ tokenChar (ofChar d) = false := by
    intro d hd
    simp only [List.mem_cons, List.not_mem_nil, or_false] at hd
    rcases hd with rfl | rfl | rfl
    · exact ⟨mark (by decide) (by decide) (by decide) (by decide), by decide⟩
    · exact ⟨quote_mark, by decide⟩
    · exact ⟨mark (by decide) (by decide) (by decide) (by decide), by decide⟩
  obtain ⟨d, hd, rfl⟩ := List.mem_map.1 h
  obtain ⟨hmark, htoken⟩ := hall d hd
  exact ⟨trivial, ⟨hmark.lit (by decide), ⟨hmark.space, hmark.space⟩, hmark.lit (by decide)⟩, trivial, htoken, htoken⟩

/-- A blank that the word `bearer` stands before is read as its blank only where a token follows. -/
private theorem bearer_blank {k : Nat → Nat → Option (Nat × Nat × Nat)} {n : Nat} (hz : blankToken (c :: z) = false)
    (hc : space c = true) :
    run (.alt (.plus space) (lit ['%', '2', '0']))
      (fun j => run (.seq .empty (.plus tokenChar)) (fun n _ _ => k j n) j) n prev (c :: z) = none := by
  by_contra hsome
  obtain ⟨m, hm⟩ := Option.ne_none_iff_exists'.1 hsome
  obtain ⟨x, w, hx, hread, hm⟩ := run_eq_some hm
  obtain ⟨t, w', rfl, ⟨_, t', rfl, rfl, _, t'', rfl, ⟨e, he, rfl⟩, -⟩, -⟩ := run_eq_some hm
  have hblanks : x ≠ [] ∧ ∀ d ∈ x, space d = true := by
    rcases hread with ⟨_, x, rfl, ⟨d, hd, rfl⟩, hx⟩ | hlit
    · exact ⟨List.cons_ne_nil _ _, List.forall_mem_cons.2 ⟨hd, hx⟩⟩
    · obtain ⟨_, x, rfl, ⟨d, hd, rfl⟩, -⟩ := hlit
      obtain rfl : c = d := (List.cons.inj hx).1
      rw [eq_of_letter (by decide) hd] at hc
      exact absurd hc (by decide)
  have hend := space_eq_false_of_tokenChar he
  simp only [List.nil_append, List.cons_append] at hx
  rw [blankToken, hx, List.takeWhile_append_of_pos hblanks.2, List.dropWhile_append_of_pos hblanks.2,
    List.takeWhile_cons_of_neg (by simp [hend]), List.dropWhile_cons_of_neg (by simp [hend]), List.append_nil,
    decide_eq_true hblanks.1, List.head?_cons, Option.any_some, he] at hz
  cases hz

private theorem bearer_matchAt (s : Text) : bearer.matchAt prev s = run (lit ['b', 'e', 'a', 'r', 'e', 'r'])
    (run (.alt (.plus space) (lit ['%', '2', '0']))
      (fun j => run (.seq .empty (.plus tokenChar)) (fun n _ _ => some (0, j, n)) j)) 0 prev s := rfl

/-- Behind a ticket, the bearer pattern goes on as before it, unless the ticket ends in `bearer` and a token follows. -/
private theorem bearer_append (hy : ∀ c ∈ y, queryChar c = true) (hz : Ended z)
    (hbroken : ¬(EndsBearer y ∧ blankToken z = true)) :
    bearer.subFrom 0 prev (y ++ z) = bearer.subFrom 0 prev y ++ bearer.subFrom 0 (after prev y) z := by
  cases z with
  | nil => rw [List.append_nil, Rule.subFrom, List.append_nil]
  | cons d z =>
    rcases stops_cases (hz d rfl) with hd | hd
    · exact Rule.subFrom_append (marks_bearer hd) (Nat.zero_le _) z
    · refine Rule.subFrom_append_of (fun u c v hv prev => ?_) (Nat.zero_le _)
      have hname : ∀ c ∈ nameChars, letter c d = false := space_nameChars hd (by
        have hstops := hz d rfl
        rw [stops, Bool.and_eq_true, decide_eq_true_eq] at hstops
        exact hstops.2)
      have hletters : Avoids d (lit ['b', 'e', 'a', 'r', 'e', 'r']) := avoids_lit hname (by decide)
      have hpercent : Avoids d (lit ['%', '2', '0']) := avoids_lit hname (by decide)
      have htoken : tokenChar d = false := by
        by_contra htoken
        rw [space_eq_false_of_tokenChar (Bool.eq_true_of_not_eq_false htoken)] at hd
        cases hd
      rw [bearer_matchAt, bearer_matchAt, run_cut hletters]
      refine run_rel rfl (fun h h' => by rw [h, h']) fun u' w hw hread => ?_
      cases w with
      | nil =>
        rw [List.nil_append]
        have hends : EndsBearer y := ⟨u, u', by rw [hv, hw, List.append_nil], hread.of_free (free_lit _)⟩
        exact bearer_blank (Bool.eq_false_iff.2 fun h => hbroken ⟨hends, h⟩) hd
      | cons e w =>
        have he : space e = false := by
          refine space_eq_false_of_queryChar (hy e ?_)
          rw [hv, hw]
          exact List.mem_append_right _ (List.mem_append_right _ List.mem_cons_self)
        have hplus : ∀ {k : Nat → Option CodePoint → Text → Option (Nat × Nat × Nat)} {n prev s},
            run (.plus space) k n prev (e :: s) = none := by
          intro k n prev s
          rw [Pattern.plus, run, run]
          exact if_neg (by rw [he]; exact Bool.false_ne_true)
        rw [List.cons_append, run, run, hplus, hplus, Option.none_or, Option.none_or, ← List.cons_append,
          run_cut hpercent]
        congr 1
        funext j prev w
        have htail : Avoids d (.seq .empty (.plus tokenChar)) := ⟨trivial, htoken, htoken⟩
        exact run_cut (k := fun n _ _ => some (0, j, n)) htail z

/-- A ticket under its plain name. -/
def ticketField (y z : Text) : Text := ofChars ticketName ++ ofChar '=' :: (y ++ z)

private theorem takeWhile_ended (hy : ∀ c ∈ y, queryChar c = true) (hz : Ended z) :
    (y ++ z).takeWhile queryChar = y := by
  rw [List.takeWhile_append_of_pos hy]
  cases z with
  | nil => rw [List.takeWhile_nil, List.append_nil]
  | cons d z =>
    have hd := hz d rfl
    rw [stops, Bool.and_eq_true, Bool.not_eq_true'] at hd
    rw [List.takeWhile_cons_of_neg (by simp [hd.1]), List.append_nil]

theorem queryValue_avoids_equals : Avoids (ofChar '=') (queryValue other).group := by
  have hnames : (['t', 'o', 'k', 'e', 'n', 'i', 'c', 'p', 'a', 's', 'w', 'r', 'd', 'm'].any
      fun a => letter a (ofChar '=')) = false := by decide
  have hletter := fun a ha => Bool.eq_false_iff.2 (List.any_eq_false.1 hnames a ha)
  have hword : wordChar other (ofChar '=') = false := by
    rw [wordChar, if_pos (by decide)]
    rfl
  exact ⟨⟨hword, avoids_lit hletter (by decide), avoids_lit hletter (by decide), avoids_lit hletter (by decide),
    avoids_lit hletter (by decide)⟩, avoids_lit hletter (by decide)⟩

/-- The whole ticket is the value of a match. -/
private theorem ticket_matchAt {sep : CodePoint} (hsep : wordChar other sep = false) (hne : y ≠ [])
    (hy : ∀ c ∈ y, queryChar c = true) (hz : Ended z) :
    (queryValue other).matchAt (some sep) (ticketField y z) = some (0, 6, 7 + y.length) := by
  have hmid : ∀ {prev z}, Consumes (lit ['=']) prev [ofChar '='] z := lit_consumes
  have hwhole : Consumes (queryValue other).pattern (some sep) (ofChars ticketName ++ ofChar '=' :: y) z := by
    obtain ⟨e, y', rfl⟩ := List.exists_cons_of_ne_nil hne
    obtain ⟨he, hy'⟩ := List.forall_mem_cons.1 hy
    have hfirst : wordChar other (ofChar 't') = true := by
      rw [wordChar, if_pos (by decide)]
      rfl
    refine ⟨[], _, rfl, ⟨rfl, ?_⟩, ofChars ticketName, ofChar '=' :: e :: y', rfl,
      .inl ⟨[], _, rfl, ?_, .inr (.inl ?_)⟩,
      [ofChar '='], e :: y', rfl, hmid, [e], y', rfl, ⟨e, he, rfl⟩, hy'⟩
    · change wordChar other sep ≠ wordChar other (ofChar 't')
      rw [hsep, hfirst]
      exact Bool.false_ne_true
    · exact fun c hc => absurd hc List.not_mem_nil
    · exact consumes_lit _ _ _
  have hsome := Rule.matchAt_isSome hwhole
  rw [List.append_assoc, List.cons_append] at hsome
  obtain ⟨m, hm⟩ := Option.isSome_iff_exists.1 hsome
  obtain ⟨u, g, o, w, hs, hlead, hgroup, hmid, -, hparts⟩ := Rule.matchAt_eq_some_of_plus rfl hm
  obtain rfl : u = [] := hlead.1
  obtain rfl := eq_of_lit (by decide) hmid
  have hname : ofChar '=' ∉ ofChars ticketName := by decide
  obtain ⟨rfl, rfl⟩ := append_cons_inj hs.symm (hgroup.not_mem queryValue_avoids_equals) hname
  have htoken : List.takeWhile queryChar (y ++ z) = y := takeWhile_ended hy hz
  rw [ticketField, hm, hparts, htoken]
  simp only [ticketName, ofChars, List.length_nil, List.length_map, List.length_cons]
  congr 3
  omega

theorem ticket_subFrom {sep : CodePoint} (hsep : wordChar other sep = false) (hne : y ≠ [])
    (hy : ∀ c ∈ y, queryChar c = true) (hz : Ended z) :
    (queryValue other).subFrom 0 (some sep) (ticketField y z) =
      ofChars ticketName ++ ofChar '=' :: (redacted ++ (queryValue other).subFrom 0 none z) := by
  have hm := ticket_matchAt hsep hne hy hz
  have hsplit : ticketField y z = (ofChars ticketName ++ ofChar '=' :: y) ++ z := by
    rw [ticketField, List.append_assoc, List.cons_append]
  rw [hsplit] at hm ⊢
  have hlength : 7 + y.length = (ofChars ticketName ++ ofChar '=' :: y).length := by
    simp only [ticketName, ofChars, List.length_append, List.length_map, List.length_cons, List.length_nil]
    omega
  have htake : ((ofChars ticketName ++ ofChar '=' :: y) ++ z).take 6 = ofChars ticketName := by
    rw [List.append_assoc, List.take_left' (by decide)]
  have hrest : ∀ prev, (queryValue other).subFrom 0 prev z = (queryValue other).subFrom 0 none z :=
    fun prev => (subFrom_ended queryValue_starts queryValue_nonempty hz prev none).1
  rw [Rule.subFrom_some hm (List.append_ne_nil_of_left_ne_nil (by decide) _) hlength, hrest, Rule.replaced]
  dsimp only
  rw [htake]
  simp [queryValue]

/-- What a field of a query string stands behind. -/
theorem separator {sep : CodePoint} (h : sep = ofChar '?' ∨ sep = ofChar '&') :
    Mark sep ∧ Avoids sep bearer.pattern := by
  have hsep : Mark sep ∧ tokenChar sep = false := by
    rcases h with rfl | rfl
    · exact ⟨mark (by decide) (by decide) (by decide) (by decide), by decide⟩
    · exact ⟨mark (by decide) (by decide) (by decide) (by decide), by decide⟩
  obtain ⟨hmark, htoken⟩ := hsep
  exact ⟨hmark, trivial, ⟨hmark.lit (by decide), ⟨hmark.space, hmark.space⟩, hmark.lit (by decide)⟩, trivial, htoken, htoken⟩

/-- The pattern of query values does not see which ticket it masks, wherever it stands. -/
private theorem ticket_congr {x : Text} {sep : CodePoint} (hsep : sep = ofChar '?' ∨ sep = ofChar '&') (hne : y ≠ [])
    (hy : ∀ c ∈ y, queryChar c = true) (hne' : y' ≠ []) (hy' : ∀ c ∈ y', queryChar c = true) (hz : Ended z) :
    (queryValue other).sub (x ++ sep :: ticketField y z) = (queryValue other).sub (x ++ sep :: ticketField y' z) := by
  have hmark := (separator hsep).1
  have hvalue := queryValue_queryRule other
  obtain ⟨c, hneeds, -⟩ := hvalue.needs
  have hfield : ∀ y : Text, sep :: ticketField y z = (sep :: (ofChars ticketName ++ ofChar '=' :: y)) ++ z := by
    intro y
    rw [ticketField]
    simp
  -- a match that runs into the field takes it to its end, or ends at `&`
  have hcover : ∀ y : Text, (∀ c ∈ y, queryChar c = true) →
      ((sep :: ticketField y z).takeWhile queryChar).length =
        if queryChar sep then (sep :: (ofChars ticketName ++ ofChar '=' :: y)).length else 0 := by
    intro y hy
    split
    · next hquery =>
      have hall : ∀ c ∈ sep :: (ofChars ticketName ++ ofChar '=' :: y), queryChar c = true := by
        have hname : (ofChars ticketName).all queryChar = true := by decide
        refine List.forall_mem_cons.2 ⟨hquery, fun c hc => ?_⟩
        rcases List.mem_append.1 hc with hc | hc
        · exact List.all_eq_true.1 hname c hc
        · exact (List.mem_cons.1 hc).elim (fun heq => heq ▸ by decide) (hy c)
      rw [hfield, takeWhile_ended hall hz]
    · next hquery => rw [List.takeWhile_cons_of_neg hquery, List.length_nil]
  have hrest : ∀ prev prev', (queryValue other).subFrom 0 prev z = (queryValue other).subFrom 0 prev' z :=
    fun prev prev' => (subFrom_ended queryValue_starts queryValue_nonempty hz prev prev').1
  rw [Rule.sub, Rule.sub, hfield, hfield]
  refine Rule.subFrom_congr (fun prev c v => ?_) ?_ (fun prev => hrest _ _) (Nat.zero_le _)
  · have hwithin := Rule.matchAt_within (hvalue.avoids hmark) rfl prev (c :: v) (ticketField y z) (ticketField y' z)
    rw [hcover y hy, hcover y' hy'] at hwithin
    rw [← hfield, ← hfield]
    split at hwithin
    · exact hwithin
    · exact Rule.SameWithin.of_zero hwithin
  · rw [← hfield, ← hfield, Rule.subFrom_cons (hvalue.avoids hmark) hneeds,
      Rule.subFrom_cons (hvalue.avoids hmark) hneeds,
      ticket_subFrom (hmark.word other) hne hy hz, ticket_subFrom (hmark.word other) hne' hy' hz]

/-- The bearer pattern acts on the ticket, and on what is around it. -/
private theorem bearer_ticket {x : Text} {sep : CodePoint} (hsep : sep = ofChar '?' ∨ sep = ofChar '&')
    (hy : ∀ c ∈ y, queryChar c = true) (hz : Ended z) (hbroken : ¬(EndsBearer y ∧ blankToken z = true)) :
    bearer.sub (x ++ sep :: ticketField y z) =
      bearer.sub x ++ sep :: ticketField (bearer.subFrom 0 (some (ofChar '=')) y) (bearer.subFrom 0 none z) := by
  obtain ⟨hmark, havoids⟩ := separator hsep
  obtain ⟨c, hneeds, -⟩ := bearer_valueRule.needs
  have hname : ((ofChars ticketName ++ [ofChar '=']).any (letter 'b')) = false := by decide
  have hclear : ¬bearer.BeginsIn (some sep) (ofChars ticketName ++ [ofChar '=']) (y ++ z) :=
    Rule.not_beginsIn_of_starts (bearer_starts fun _ h => h) bearer_nonempty (List.any_eq_false.1 hname)
  have hrest : ∀ prev, bearer.subFrom 0 prev z = bearer.subFrom 0 none z :=
    fun prev => (subFrom_ended bearer_starts_stops bearer_nonempty hz prev none).1
  have hfield : ∀ y z : Text, ticketField y z = (ofChars ticketName ++ [ofChar '=']) ++ (y ++ z) := by
    intro y z
    rw [ticketField]
    simp
  rw [Rule.sub, Rule.subFrom_append havoids (Nat.zero_le _), Rule.subFrom_cons (bearer_valueRule.avoids hmark) hneeds, hfield,
    Rule.subFrom_clear hclear, bearer_append hy hz hbroken, hrest, hfield]
  rfl

/-- A ticket under its plain name is masked, whatever stands around it. -/
theorem ticket_masked {x : Text} {sep : CodePoint} (hsep : sep = ofChar '?' ∨ sep = ofChar '&') (hne : y ≠ [])
    (hy : ∀ c ∈ y, queryChar c = true) (hne' : y' ≠ []) (hy' : ∀ c ∈ y', queryChar c = true) (hz : Ended z)
    (hbroken : ¬(EndsBearer y ∧ blankToken z = true)) (hbroken' : ¬(EndsBearer y' ∧ blankToken z = true)) :
    redact other (x ++ sep :: ticketField y z) = redact other (x ++ sep :: ticketField y' z) := by
  have hmasked : ∀ y : Text, y ≠ [] → (∀ c ∈ y, queryChar c = true) →
      bearer.subFrom 0 (some (ofChar '=')) y ≠ [] ∧
      ∀ c ∈ bearer.subFrom 0 (some (ofChar '=')) y, queryChar c = true := by
    intro y hne hy
    have hredacted : redacted.all queryChar = true := by decide
    refine ⟨Rule.subFrom_ne_nil hne (by decide), fun c hc => ?_⟩
    rcases Rule.mem_of_mem_subFrom hc with hc | hc | hc
    · exact hy c hc
    · exact absurd hc List.not_mem_nil
    · exact List.all_eq_true.1 hredacted c hc
  obtain ⟨hone, hall⟩ := hmasked y hne hy
  obtain ⟨hone', hall'⟩ := hmasked y' hne' hy'
  have hended := (subFrom_ended bearer_starts_stops bearer_nonempty hz none none).2
  rw [redact, redact, bearer_ticket hsep hy hz hbroken, bearer_ticket hsep hy' hz hbroken',
    ticket_congr hsep hone hall hone' hall' hended]

end Tickets

/-! ### Masked bearer tokens -/

section Tokens

variable {c : CodePoint} {y y' z β : Text} {prev : Option CodePoint}

theorem length_of_lit {s : List Char} (h : Consumes (lit s) prev y z) : y.length = s.length := by
  induction s generalizing prev y with
  | nil =>
    obtain rfl : y = [] := h
    rfl
  | cons a s ih =>
    obtain ⟨_, y, rfl, ⟨d, -, rfl⟩, hy⟩ := h
    rw [List.length_append, List.length_singleton, List.length_cons, ih hy, Nat.add_comm]

/-- The whole token is in the match. -/
private theorem token_matchAt (hβ : Bearer β) (hne : y ≠ []) (hy : ∀ c ∈ y, tokenChar c = true)
    (hz : ∀ c ∈ z.head?, tokenChar c = false) :
    bearer.matchAt prev (β ++ (blank20 ++ (y ++ z))) = some (0, 9, 9 + y.length) := by
  have hsix := length_of_lit hβ
  have hwhole : Consumes bearer.pattern prev (β ++ (blank20 ++ y)) z := by
    obtain ⟨e, y', rfl⟩ := List.exists_cons_of_ne_nil hne
    obtain ⟨he, hy'⟩ := List.forall_mem_cons.1 hy
    exact ⟨[], _, rfl, rfl, β ++ blank20, e :: y', (List.append_assoc β blank20 _).symm,
      ⟨β, blank20, rfl, hβ.of_free (free_lit _),
      .inr (consumes_lit _ _ _)⟩, [], e :: y', rfl, rfl, [e], y', rfl, ⟨e, he, rfl⟩, hy'⟩
  have hsome := Rule.matchAt_isSome hwhole
  rw [List.append_assoc, List.append_assoc] at hsome
  obtain ⟨m, hm⟩ := Option.isSome_iff_exists.1 hsome
  obtain ⟨u, g, o, w, hs, hlead, ⟨g, g', rfl, hword, hblank⟩, hmid, -, hparts⟩ := Rule.matchAt_eq_some_of_plus rfl hm
  obtain rfl : u = [] := hlead
  obtain rfl : o = [] := hmid
  rw [List.nil_append, List.nil_append, List.append_assoc] at hs
  obtain ⟨rfl, hbehind⟩ := List.append_inj hs (hsix.trans (length_of_lit hword).symm)
  have hthree : g' = blank20 ∧ w = y ++ z := by
    rcases hblank with ⟨_, g', rfl, ⟨d, hd, rfl⟩, -⟩ | hlit
    · obtain rfl : ofChar '%' = d := (List.cons.inj hbehind).1
      exact absurd hd (by decide)
    · obtain ⟨h, h'⟩ := List.append_inj hbehind.symm (length_of_lit hlit)
      exact ⟨h, h'⟩
  obtain ⟨rfl, rfl⟩ := hthree
  have htoken : List.takeWhile tokenChar (y ++ z) = y := by
    rw [List.takeWhile_append_of_pos hy]
    cases z with
    | nil => rw [List.takeWhile_nil, List.append_nil]
    | cons d z => rw [List.takeWhile_cons_of_neg (by simp [hz d rfl]), List.append_nil]
  have hsix' : β.length = 6 := hsix
  have hthree : blank20.length = 3 := rfl
  rw [hm, hparts, htoken]
  simp only [List.length_nil, List.length_append, hsix', hthree]
  congr 3
  omega

theorem tokenChar_of_letter {a : Char} (ha : 0x61 ≤ a.toNat ∧ a.toNat ≤ 0x7A) (h : letter a c = true) :
    tokenChar c = true := by
  have hfold : foldCase a.toNat = a.toNat := by
    unfold foldCase
    split_ifs <;> omega
  rw [letter, decide_eq_true_eq, hfold] at h
  have halnum : isAlnum a.toNat = true := by
    simp only [isAlnum, Bool.or_eq_true, Bool.and_eq_true, decide_eq_true_eq]
    omega
  rw [tokenChar, h, halnum, Bool.true_or]

theorem tokenChar_of_stops (h : stops c = true) : tokenChar c = false := by
  rcases stops_cases h with hmark | hspace
  · exact (marks_bearer hmark).2.2.2.1
  · by_contra htoken
    rw [space_eq_false_of_tokenChar (Bool.eq_true_of_not_eq_false htoken)] at hspace
    cases hspace

theorem token_subFrom (hβ : Bearer β) (hne : y ≠ []) (hy : ∀ c ∈ y, tokenChar c = true)
    (hz : ∀ c ∈ z.head?, tokenChar c = false) :
    bearer.subFrom 0 prev (β ++ (blank20 ++ (y ++ z))) = β ++ (blank20 ++ (redacted ++ bearer.subFrom 0 none z)) := by
  have hm : bearer.matchAt prev (β ++ (blank20 ++ (y ++ z))) = some (0, 9, 9 + y.length) := token_matchAt hβ hne hy hz
  have hsix : β.length = 6 := length_of_lit hβ
  have hsplit : β ++ (blank20 ++ (y ++ z)) = ((β ++ blank20) ++ y) ++ z := by simp
  have hlength : 9 + y.length = ((β ++ blank20) ++ y).length := by
    rw [List.length_append, List.length_append, hsix]
    rfl
  have htake : (((β ++ blank20) ++ y) ++ z).take 9 = β ++ blank20 := by
    rw [List.append_assoc, List.take_left' (by rw [List.length_append, hsix]; rfl)]
  have hrest : ∀ prev, bearer.subFrom 0 prev z = bearer.subFrom 0 none z := by
    refine fun prev => (Rule.subFrom_start (bearer_starts fun _ h => h) bearer_nonempty (fun d hd hb => ?_) prev none).1
    have htoken := hz d hd
    rw [tokenChar_of_letter (by decide) hb] at htoken
    cases htoken
  rw [hsplit] at hm ⊢
  rw [Rule.subFrom_some hm (List.append_ne_nil_of_right_ne_nil _ hne) hlength, hrest, Rule.replaced]
  dsimp only
  rw [htake]
  simp [bearer]

/-- A letter behind `f` stands for itself, quoted or not. -/
theorem plain_of_letter {a : Char} (ha : 0x67 ≤ a.toNat ∧ a.toNat ≤ 0x7A) (h : letter a c = true)
    (hascii : c.val < 0x80) :
    Plain c ∧ isSpace (plainChar c) = false ∧
      ((plainChar c).toNat = a.toNat ∨ (plainChar c).toNat + 0x20 = a.toNat) := by
  have hall : ∀ n < 0x80, 0x47 ≤ n ∧ n ≤ 0x5A ∨ 0x67 ≤ n → PercentEncoding.hexValue? (UInt8.ofNat n) = none ∧
      UInt8.ofNat n ≠ PercentEncoding.percent ∧ (UInt8.ofNat n).toNat = n ∧
      (n ≤ 0x7A → isSpace (Char.ofNat n) = false) := by decide
  have hcases := letter_cases ⟨by omega, ha.2⟩ h hascii
  obtain ⟨hdigit, hpercent, htoNat, hspace⟩ := hall c.val hascii (by omega)
  have hplus : plusByte c = UInt8.ofNat c.val := by
    rw [plusByte, if_neg]
    rintro rfl
    rw [val_ofChar] at hcases
    exact absurd hcases (by simp; omega)
  have hchar : plainChar c = Char.ofNat c.val := by rw [plainChar, hplus, htoNat]
  refine ⟨⟨by rw [hplus, hdigit], by rwa [hplus], by rw [hplus, htoNat]; exact hascii⟩, ?_, ?_⟩
  · rw [hchar]
    exact hspace (by omega)
  · rw [hchar, toNat_ofNat_val (show c.val < 0xD800 by omega)]
    exact hcases

theorem equals_plain : Plain (ofChar '=') := ⟨by decide, by decide, by decide⟩

theorem equals_notMem_name {name : Text} {n : Str} (hname : unquotePlus name = n) (hn : plainChar (ofChar '=') ∉ n) :
    ofChar '=' ∉ name := fun hmem => hn (hname ▸ mem_unquotePlus equals_plain hmem)

/-- In the name of the field and up to its scheme, the blank behind an `r` can only be that of the scheme. -/
theorem blank_at_end {t : CaseTable} {name e u v rest w : Text} {ρ : CodePoint} (hname : unquotePlus name = headerName)
    (hreads : ReadsBearer t e) (hρ : letter 'r' ρ = true) (hsplit : name ++ ofChar '=' :: e = u ++ ρ :: v)
    (hrest : v ++ rest = blank20 ++ w) : v = [] := by
  obtain ⟨hplain, hspace, -⟩ := plain_of_letter (by decide) hρ (ascii_of_letter (by decide) hρ)
  have hequals := equals_notMem_name hname (by decide)
  by_cases hu : ofChar '=' ∈ u
  · -- in the value
    obtain ⟨u, u', rfl, hu'⟩ := List.eq_append_cons_of_mem hu
    rw [List.append_assoc, List.cons_append] at hsplit
    obtain ⟨rfl, rfl⟩ := append_cons_inj hsplit hequals hu'
    match v, hrest with
    | [], _ => rfl
    | [c], hrest =>
      obtain rfl : c = ofChar '%' := (List.cons.inj hrest).1
      have hlast : u' ++ [ρ, ofChar '%'] = (u' ++ [ρ]) ++ [ofChar '%'] := by simp
      exact absurd (hlast ▸ hreads) ReadsBearer.no_percent.1
    | [c, d], hrest =>
      obtain ⟨rfl, hd⟩ : c = ofChar '%' ∧ _ := List.cons.inj hrest
      obtain rfl : d = ofChar '2' := (List.cons.inj hd).1
      have hlast : u' ++ [ρ, ofChar '%', ofChar '2'] = (u' ++ [ρ]) ++ [ofChar '%', ofChar '2'] := by simp
      exact absurd (hlast ▸ hreads) ReadsBearer.no_percent.2
    | c :: d :: f :: v, hrest =>
      obtain ⟨rfl, hd⟩ : c = ofChar '%' ∧ _ := List.cons.inj hrest
      obtain ⟨rfl, hf⟩ : d = ofChar '2' ∧ _ := List.cons.inj hd
      obtain rfl : f = ofChar '0' := (List.cons.inj hf).1
      exact (ReadsBearer.no_blank (v := v) hreads hplain hspace).elim
  · -- in the name
    have hρequals : ofChar '=' ∉ u ++ [ρ] := by
      intro hmem
      rcases List.mem_append.1 hmem with hmem | hmem
      · exact hu hmem
      · rw [← List.mem_singleton.1 hmem] at hρ
        exact absurd hρ (by decide)
    have hbefore : (u ++ [ρ]) ++ v = name ++ ofChar '=' :: e := by rw [hsplit]; simp
    obtain ⟨v', rfl, rfl⟩ := eq_append_of_not_mem hbefore hρequals
    have hblank : blank20 ++ w = v' ++ ofChar '=' :: (e ++ rest) := by rw [← hrest]; simp
    obtain ⟨v'', rfl, -⟩ := eq_append_of_not_mem hblank (by decide)
    have hname' := unquotePlus_blank20 (u ++ [ρ]) v''
    rw [hname] at hname'
    have hmem : ' ' ∈ headerName := hname' ▸ List.mem_append_right _ List.mem_cons_self
    exact absurd hmem (by decide)

private theorem eq_of_marks {s : List Char} (hs : ∀ a ∈ s, a.toNat < 0x41) (h : Consumes (lit s) prev y z) :
    y = ofChars s := by
  induction s generalizing prev y with
  | nil => exact h
  | cons a s ih =>
    obtain ⟨_, y, rfl, ⟨d, hd, rfl⟩, hy⟩ := h
    obtain ⟨ha, hs⟩ := List.forall_mem_cons.1 hs
    rw [eq_of_letter ha hd, ih hs hy]
    rfl

/-- A match of the bearer pattern has the word, then an encoded blank or blanks, and then a token. -/
theorem bearer_begins {x w : Text} (h : bearer.BeginsIn prev x w) : ∃ u v β s w', x = u ++ v ∧ v ≠ [] ∧
    v ++ w = β ++ (s ++ w') ∧ Bearer β ∧ (s = blank20 ∨ s ≠ [] ∧ ∀ c ∈ s, space c = true) ∧
    w'.takeWhile tokenChar ≠ [] := by
  obtain ⟨u, v, rfl, hv, hm⟩ := h
  obtain ⟨m, hm⟩ := Option.isSome_iff_exists.1 hm
  obtain ⟨_, g, o, w', hs, hlead, ⟨β, s, rfl, hβ, hblank⟩, hmid, htoken, -⟩ := Rule.matchAt_eq_some_of_plus rfl hm
  obtain rfl := hlead
  obtain rfl := hmid
  refine ⟨u, v, β, s, w', rfl, hv, by rw [hs]; simp, hβ.of_free (free_lit _), ?_, htoken⟩
  rcases hblank with ⟨_, s, rfl, ⟨d, hd, rfl⟩, hs⟩ | hlit
  · exact .inr ⟨List.cons_ne_nil _ _, List.forall_mem_cons.2 ⟨hd, hs⟩⟩
  · have hmarks : (['%', '2', '0'].all fun a => a.toNat < 0x41) = true := rfl
    exact .inl (eq_of_marks (fun a ha => of_decide_eq_true (List.all_eq_true.1 hmarks a ha)) hlit)

theorem exists_letter {s : List Char} (h : Consumes (lit s) prev y z) : ∀ c ∈ y, ∃ a ∈ s, letter a c = true := by
  induction s generalizing prev y with
  | nil =>
    obtain rfl : y = [] := h
    exact fun c hc => absurd hc List.not_mem_nil
  | cons a s ih =>
    obtain ⟨_, y, rfl, ⟨d, hd, rfl⟩, hy⟩ := h
    refine List.forall_mem_cons.2 ⟨⟨a, List.mem_cons_self, hd⟩, fun c hc => ?_⟩
    obtain ⟨b, hb, hc⟩ := ih hy c hc
    exact ⟨b, List.mem_cons_of_mem a hb, hc⟩

theorem Bearer.alnum (h : Bearer y) : ∀ c ∈ y, isAlnum c.val = true := by
  have hletters : (['b', 'e', 'a', 'r', 'e', 'r'].all fun a => decide (0x61 ≤ a.toNat ∧ a.toNat ≤ 0x7A ∧ a.toNat ≠ 0x69 ∧
      a.toNat ≠ 0x6B ∧ a.toNat ≠ 0x73)) = true := rfl
  intro c hc
  obtain ⟨a, ha, hletter⟩ := exists_letter h c hc
  have hascii := of_decide_eq_true (List.all_eq_true.1 hletters a ha)
  exact isAlnum_of_letter ⟨hascii.1, hascii.2.1⟩ hletter (ascii_of_letter hascii hletter)

/-- The last character of a text of a pattern. -/
theorem lit_last {a : Char} {s : List Char} (h : Consumes (lit (s ++ [a])) prev y z) :
    ∃ y' ρ, y = y' ++ [ρ] ∧ letter a ρ = true := by
  induction s generalizing prev y with
  | nil =>
    obtain ⟨_, _, rfl, ⟨ρ, hρ, rfl⟩, hlast⟩ := h
    obtain rfl := hlast
    exact ⟨[], ρ, rfl, hρ⟩
  | cons b s ih =>
    obtain ⟨x, _, rfl, -, hy⟩ := h
    obtain ⟨y', ρ, rfl, hρ⟩ := ih hy
    exact ⟨x ++ y', ρ, (List.append_assoc x y' [ρ]).symm, hρ⟩

/-- The last letter of the word. -/
theorem Bearer.split (h : Bearer β) : ∃ β' ρ, β = β' ++ [ρ] ∧ letter 'r' ρ = true :=
  lit_last (s := ['b', 'e', 'a', 'r', 'e']) h

theorem space_of_urlChar (h : urlChar c = true) : space c = false := by
  rw [urlChar, Bool.and_eq_true, decide_eq_true_eq, decide_eq_true_eq] at h
  rw [Bool.eq_false_iff, Ne, space_iff (by omega)]
  omega

theorem stops_of_urlChar (hc : urlChar c = true) (hquery : queryChar c = false) : stops c = true := by
  rw [urlChar, Bool.and_eq_true, decide_eq_true_eq, decide_eq_true_eq] at hc
  rw [stops, hquery, Bool.not_false, Bool.true_and]
  exact decide_eq_true (by omega)

/-- Visible ASCII characters, as a URL has them. -/
def Visible (s : Text) : Prop := ∀ c ∈ s, urlChar c = true

instance (s : Text) : Decidable (Visible s) := decidable_of_iff (s.all urlChar = true) List.all_eq_true

/-- In a field that is read as a bearer token, the bearer pattern has no match before the word. -/
theorem header_clear {t : CaseTable} {name e : Text} (hname : unquotePlus name = headerName)
    (hvisible : Visible (name ++ ofChar '=' :: (e ++ β))) (hreads : ReadsBearer t (e ++ β)) (hβ : Bearer β) (y : Text) :
    ¬bearer.BeginsIn prev (name ++ ofChar '=' :: e) (β ++ (blank20 ++ y)) := by
  intro hbegins
  obtain ⟨u, v, β₁, s, w, hx, hv, hmatch, hβ₁, hblank, -⟩ := bearer_begins hbegins
  have hlength := length_of_lit hβ
  have hlength₁ := length_of_lit hβ₁
  obtain ⟨β', ρ, rfl, hρ⟩ := hβ₁.split
  have hpos : 0 < v.length := List.length_pos_of_ne_nil hv
  -- the word is before the end of the one that is read
  have hinside : ∃ v', v ++ β = β' ++ ρ :: v' ∧ v' ++ (blank20 ++ y) = s ++ w ∧ v' ≠ [] := by
    have heq : (v ++ β) ++ (blank20 ++ y) = (β' ++ [ρ]) ++ (s ++ w) := by rw [List.append_assoc]; exact hmatch
    rcases List.append_eq_append_iff.1 heq with ⟨a, ha, -⟩ | ⟨a, ha, hrest⟩
    · have hlong := congrArg List.length ha
      rw [hlength₁] at hlong
      simp only [List.length_append, hlength, List.length_cons, List.length_nil] at hlong
      omega
    · refine ⟨a, by rw [ha]; simp, hrest.symm, ?_⟩
      rintro rfl
      have hlong := congrArg List.length ha
      rw [List.append_nil, hlength₁, List.length_append, hlength] at hlong
      omega
  obtain ⟨v', hv', hrest, hne⟩ := hinside
  have hfield : name ++ ofChar '=' :: (e ++ β) = (u ++ β') ++ ρ :: v' := by
    rw [← List.cons_append, ← List.append_assoc, hx, List.append_assoc, hv']
    simp
  rcases hblank with rfl | ⟨hs, hspaces⟩
  · exact hne (blank_at_end hname hreads hρ hfield hrest)
  · obtain ⟨c, v', rfl⟩ := List.exists_cons_of_ne_nil hne
    obtain ⟨d, s, rfl⟩ := List.exists_cons_of_ne_nil hs
    obtain rfl : c = d := (List.cons.inj hrest).1
    have hurl := hvisible c (by rw [hfield]; simp)
    have hspace := hspaces c List.mem_cons_self
    rw [space_of_urlChar hurl] at hspace
    cases hspace

/-- A bearer token behind a plain `Bearer%20` is masked, whatever stands around its field. -/
theorem token_masked {other : CodePoint → Bool} {t : CaseTable} {x name e : Text} {sep : CodePoint}
    (hsep : sep = ofChar '?' ∨ sep = ofChar '&') (hname : unquotePlus name = headerName)
    (hvisible : Visible (name ++ ofChar '=' :: (e ++ β))) (hreads : ReadsBearer t (e ++ β)) (hβ : Bearer β)
      (hne : y ≠ [])
    (hy : ∀ c ∈ y, tokenChar c = true) (hne' : y' ≠ []) (hy' : ∀ c ∈ y', tokenChar c = true)
    (hz : ∀ c ∈ z.head?, tokenChar c = false) :
    redact other (x ++ sep :: (name ++ ofChar '=' :: ((e ++ β) ++ (blank20 ++ (y ++ z))))) =
      redact other (x ++ sep :: (name ++ ofChar '=' :: ((e ++ β) ++ (blank20 ++ (y' ++ z))))) := by
  obtain ⟨hmark, havoids⟩ := separator hsep
  obtain ⟨c, hneeds, -⟩ := bearer_valueRule.needs
  have hbearer : ∀ y : Text, y ≠ [] → (∀ c ∈ y, tokenChar c = true) →
      bearer.sub (x ++ sep :: (name ++ ofChar '=' :: ((e ++ β) ++ (blank20 ++ (y ++ z))))) =
        bearer.sub x ++ sep :: ((name ++ ofChar '=' :: e) ++ (β ++ (blank20 ++ (redacted ++ bearer.subFrom 0 none z)))) := by
    intro y hne hy
    have hfield : name ++ ofChar '=' :: ((e ++ β) ++ (blank20 ++ (y ++ z))) =
        (name ++ ofChar '=' :: e) ++ (β ++ (blank20 ++ (y ++ z))) := by simp
    rw [Rule.sub, Rule.subFrom_append havoids (Nat.zero_le _), Rule.subFrom_cons (bearer_valueRule.avoids hmark) hneeds, hfield,
      Rule.subFrom_clear (header_clear hname hvisible hreads hβ _), token_subFrom hβ hne hy hz]
    rfl
  rw [redact, redact, hbearer y hne hy, hbearer y' hne' hy']

end Tokens

end Redaction

end CliServer
