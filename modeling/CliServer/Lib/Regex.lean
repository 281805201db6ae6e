import Mathlib

/-!
# Regular expressions

Regular expressions over an alphabet with predicates as character classes, the language they denote and a matcher by
derivatives (`accepts`, correct by `accepts_iff`).  The derivatives are built by constructors that drop the empty
language and the empty word, so that the derivatives of a concrete expression by a concrete prefix compute to a small
expression (`accepts_append`).

`acceptsLine` is a match anchored by `^` and `$`: a `$` also matches before a newline at the end.  `comap` is the
expression for texts of another alphabet.
-/

/-- A regular expression; `set p` is a character class. -/
inductive Regex (α : Type*) where
  | empty
  | eps
  | set (p : α → Bool)
  | alt (r s : Regex α)
  | cat (r s : Regex α)
  | star (r : Regex α)

namespace Regex

open scoped Computability

variable {α : Type*}

/-- The language of an expression. -/
def lang : Regex α → Language α
  | empty => 0
  | eps => 1
  | set p => { w | ∃ c, p c = true ∧ w = [c] }
  | alt r s => r.lang + s.lang
  | cat r s => r.lang * s.lang
  | star r => r.lang∗

/-! ### Derived forms -/

/-- One character. -/
def char [DecidableEq α] (a : α) : Regex α := set (· = a)

/-- A text. -/
def lit [DecidableEq α] : List α → Regex α
  | [] => eps
  | a :: w => cat (char a) (lit w)

def opt (r : Regex α) : Regex α := alt eps r

def plus (r : Regex α) : Regex α := cat r (star r)

/-- At most `n` times. -/
def upTo (r : Regex α) : Nat → Regex α
  | 0 => eps
  | n + 1 => opt (cat r (upTo r n))

/-- From `m` to `m + n` times. -/
def times (r : Regex α) (n : Nat) : Nat → Regex α
  | 0 => upTo r n
  | m + 1 => cat r (times r n m)

/-! ### The matcher -/

def nullable : Regex α → Bool
  | empty => false
  | eps => true
  | set _ => false
  | alt r s => r.nullable || s.nullable
  | cat r s => r.nullable && s.nullable
  | star _ => true

/-- `alt`, without an empty side. -/
def mkAlt : Regex α → Regex α → Regex α
  | empty, s => s
  | r, empty => r
  | r, s => alt r s

/-- `cat`, without an empty side or the empty word. -/
def mkCat : Regex α → Regex α → Regex α
  | empty, _ => empty
  | eps, s => s
  | r, s => cat r s

/-- What may follow the character `c`. -/
def deriv (c : α) : Regex α → Regex α
  | empty => empty
  | eps => empty
  | set p => if p c then eps else empty
  | alt r s => mkAlt (r.deriv c) (s.deriv c)
  | cat r s => if r.nullable then mkAlt (mkCat (r.deriv c) s) (s.deriv c) else mkCat (r.deriv c) s
  | star r => mkCat (r.deriv c) (star r)

/-- What may follow the text `w`. -/
def derivs (r : Regex α) (w : List α) : Regex α := w.foldl (fun r c => r.deriv c) r

/-- Whether the expression matches the whole text. -/
def accepts (r : Regex α) (w : List α) : Bool := (r.derivs w).nullable

private theorem accepts_append (r : Regex α) (u w : List α) : r.accepts (u ++ w) = (r.derivs u).accepts w := by
  simp [accepts, derivs]

private theorem accepts_nil (r : Regex α) : r.accepts [] = r.nullable := rfl

private theorem accepts_cons (r : Regex α) (c : α) (w : List α) : r.accepts (c :: w) = (r.deriv c).accepts w := rfl

/-! ### Correctness -/

variable {r s : Regex α} {w : List α}

@[simp] theorem notMem_lang_empty : w ∉ (empty : Regex α).lang := Language.notMem_zero w

@[simp] theorem mem_lang_eps : w ∈ (eps : Regex α).lang ↔ w = [] := Language.mem_one w

@[simp] theorem mem_lang_set {p : α → Bool} : w ∈ (set p).lang ↔ ∃ c, p c = true ∧ w = [c] := Iff.rfl

@[simp] theorem mem_lang_alt : w ∈ (alt r s).lang ↔ w ∈ r.lang ∨ w ∈ s.lang := Iff.rfl

@[simp] theorem mem_lang_cat : w ∈ (cat r s).lang ↔ ∃ u ∈ r.lang, ∃ v ∈ s.lang, u ++ v = w := Language.mem_mul

theorem mem_lang_star : w ∈ (star r).lang ↔ ∃ us : List (List α), w = us.flatten ∧ ∀ u ∈ us, u ∈ r.lang :=
  Language.mem_kstar

@[simp] theorem mem_lang_mkAlt : w ∈ (mkAlt r s).lang ↔ w ∈ r.lang ∨ w ∈ s.lang := by
  cases r <;> cases s <;> simp [mkAlt]

@[simp] theorem mem_lang_mkCat : w ∈ (mkCat r s).lang ↔ ∃ u ∈ r.lang, ∃ v ∈ s.lang, u ++ v = w := by
  cases r <;> simp [mkCat]

private theorem nullable_iff (r : Regex α) : r.nullable = true ↔ [] ∈ r.lang := by
  induction r with
  | empty => simp [nullable]
  | eps => simp [nullable]
  | set p => simp [nullable]
  | alt r s ihr ihs => simp [nullable, ihr, ihs]
  | cat r s ihr ihs => simp [nullable, ihr, ihs]
  | star r _ => exact iff_of_true rfl (mem_lang_star.2 ⟨[], rfl, by simp⟩)

/-- A nonempty text in a star starts with a nonempty text of the expression. -/
private theorem cons_mem_lang_star {c : α} :
    c :: w ∈ (star r).lang ↔ ∃ u v, c :: u ∈ r.lang ∧ v ∈ (star r).lang ∧ u ++ v = w := by
  constructor
  · intro h
    obtain ⟨us, hus, hmem⟩ := Language.mem_kstar_iff_exists_nonempty.1 h
    cases us with
    | nil => simp at hus
    | cons y us =>
      obtain ⟨hy, hne⟩ := hmem y List.mem_cons_self
      cases y with
      | nil => exact absurd rfl hne
      | cons d u =>
        obtain ⟨rfl, rfl⟩ : c = d ∧ w = u ++ us.flatten := by simpa using hus
        refine ⟨u, us.flatten, hy, mem_lang_star.2 ⟨us, rfl, fun v hv => ?_⟩, rfl⟩
        exact (hmem v (List.mem_cons_of_mem _ hv)).1
  · rintro ⟨u, v, hu, hv, rfl⟩
    obtain ⟨us, rfl, hmem⟩ := mem_lang_star.1 hv
    refine mem_lang_star.2 ⟨(c :: u) :: us, rfl, fun y hy => ?_⟩
    rcases List.mem_cons.1 hy with rfl | hy
    · exact hu
    · exact hmem y hy

private theorem mem_lang_deriv (r : Regex α) (c : α) (w : List α) : w ∈ (r.deriv c).lang ↔ c :: w ∈ r.lang := by
  induction r generalizing w with
  | empty => simp [deriv]
  | eps => simp [deriv]
  | set p =>
    by_cases hc : p c = true
    · simp [deriv, hc]
    · simp [deriv, hc]
  | alt r s ihr ihs => simp [deriv, ihr, ihs]
  | cat r s ihr ihs =>
    -- The first character is of `r`, or `r` takes nothing and it is of `s`.
    have hsplit : c :: w ∈ (cat r s).lang ↔
        (∃ u ∈ (r.deriv c).lang, ∃ v ∈ s.lang, u ++ v = w) ∨ ([] ∈ r.lang ∧ c :: w ∈ s.lang) := by
      rw [mem_lang_cat]
      constructor
      · rintro ⟨u, hu, v, hv, huv⟩
        cases u with
        | nil => exact .inr ⟨hu, by rwa [← huv]⟩
        | cons d u =>
          obtain ⟨rfl, rfl⟩ := List.cons.inj huv
          exact .inl ⟨u, (ihr u).2 hu, v, hv, rfl⟩
      · rintro (⟨u, hu, v, hv, rfl⟩ | ⟨hr, hs⟩)
        · exact ⟨c :: u, (ihr u).1 hu, v, hv, rfl⟩
        · exact ⟨[], hr, c :: w, hs, rfl⟩
    rw [hsplit, ← nullable_iff]
    by_cases hn : r.nullable = true
    · simp [deriv, hn, ihs]
    · simp [deriv, hn]
  | star r ih =>
    rw [cons_mem_lang_star, deriv, mem_lang_mkCat]
    constructor
    · rintro ⟨u, hu, v, hv, huv⟩
      exact ⟨u, v, (ih u).1 hu, hv, huv⟩
    · rintro ⟨u, v, hu, hv, huv⟩
      exact ⟨u, (ih u).2 hu, v, hv, huv⟩

/-- The matcher accepts the language of the expression. -/
theorem accepts_iff (r : Regex α) (w : List α) : r.accepts w = true ↔ w ∈ r.lang := by
  induction w generalizing r with
  | nil => rw [accepts_nil, nullable_iff]
  | cons c w ih => rw [accepts_cons, ih, mem_lang_deriv]

theorem mem_lang_lit [DecidableEq α] {u : List α} : w ∈ (lit u).lang ↔ w = u := by
  induction u generalizing w with
  | nil => exact mem_lang_eps
  | cons a u ih =>
    rw [lit, mem_lang_cat]
    constructor
    · rintro ⟨x, ⟨c, hc, rfl⟩, v, hv, rfl⟩
      rw [ih.1 hv, of_decide_eq_true hc]
      rfl
    · rintro rfl
      exact ⟨[a], ⟨a, decide_eq_true rfl, rfl⟩, u, ih.2 rfl, rfl⟩

theorem mem_lang_star_set {p : α → Bool} : w ∈ (star (set p)).lang ↔ ∀ c ∈ w, p c = true := by
  induction w with
  | nil => exact iff_of_true (mem_lang_star.2 ⟨[], rfl, by simp⟩) (by simp)
  | cons c w ih =>
    rw [cons_mem_lang_star, List.forall_mem_cons]
    constructor
    · rintro ⟨u, v, ⟨d, hd, hu⟩, hv, rfl⟩
      obtain ⟨rfl, rfl⟩ := List.cons.inj hu
      exact ⟨hd, ih.1 hv⟩
    · rintro ⟨hc, hw⟩
      exact ⟨[], w, ⟨c, hc, rfl⟩, ih.2 hw, rfl⟩

theorem mem_lang_plus_set {p : α → Bool} : w ∈ (plus (set p)).lang ↔ w ≠ [] ∧ ∀ c ∈ w, p c = true := by
  rw [plus, mem_lang_cat]
  constructor
  · rintro ⟨u, ⟨c, hc, rfl⟩, v, hv, rfl⟩
    refine ⟨List.cons_ne_nil _ _, List.forall_mem_cons.2 ⟨hc, mem_lang_star_set.1 hv⟩⟩
  · rintro ⟨hne, hw⟩
    cases w with
    | nil => exact absurd rfl hne
    | cons c w =>
      obtain ⟨hc, hw⟩ := List.forall_mem_cons.1 hw
      exact ⟨[c], ⟨c, hc, rfl⟩, w, mem_lang_star_set.2 hw, rfl⟩

private theorem mem_lang_upTo_set {p : α → Bool} {n : Nat} :
    w ∈ (upTo (set p) n).lang ↔ w.length ≤ n ∧ ∀ c ∈ w, p c = true := by
  induction n generalizing w with
  | zero =>
    rw [upTo, mem_lang_eps, Nat.le_zero, List.length_eq_zero_iff]
    constructor
    · rintro rfl
      exact ⟨rfl, fun c hc => absurd hc List.not_mem_nil⟩
    · exact And.left
  | succ n ih =>
    rw [upTo, opt, mem_lang_alt, mem_lang_eps, mem_lang_cat]
    constructor
    · rintro (rfl | ⟨u, ⟨c, hc, rfl⟩, v, hv, rfl⟩)
      · simp
      · obtain ⟨hlen, hall⟩ := ih.1 hv
        exact ⟨Nat.succ_le_succ hlen, List.forall_mem_cons.2 ⟨hc, hall⟩⟩
    · rintro ⟨hlen, hall⟩
      cases w with
      | nil => exact .inl rfl
      | cons c v =>
        obtain ⟨hc, hall⟩ := List.forall_mem_cons.1 hall
        exact .inr ⟨[c], ⟨c, hc, rfl⟩, v, ih.2 ⟨Nat.le_of_succ_le_succ hlen, hall⟩, rfl⟩

/-- From `m` to `m + n` characters of a class. -/
theorem mem_lang_times_set {p : α → Bool} {n m : Nat} :
    w ∈ (times (set p) n m).lang ↔ m ≤ w.length ∧ w.length ≤ m + n ∧ ∀ c ∈ w, p c = true := by
  induction m generalizing w with
  | zero => simp [times, mem_lang_upTo_set]
  | succ m ih =>
    rw [times, mem_lang_cat]
    constructor
    · rintro ⟨u, ⟨c, hc, rfl⟩, v, hv, rfl⟩
      obtain ⟨hmin, hmax, hall⟩ := ih.1 hv
      refine ⟨Nat.succ_le_succ hmin, ?_, List.forall_mem_cons.2 ⟨hc, hall⟩⟩
      rw [List.length_append, List.length_singleton]
      omega
    · rintro ⟨hmin, hmax, hall⟩
      cases w with
      | nil => exact absurd hmin (Nat.not_succ_le_zero m)
      | cons c v =>
        rw [List.length_cons] at hmin hmax
        obtain ⟨hc, hall⟩ := List.forall_mem_cons.1 hall
        exact ⟨[c], ⟨c, hc, rfl⟩, v, ih.2 ⟨by omega, by omega, hall⟩, rfl⟩

/-! ### The characters of a match -/

/-- The character classes of an expression keep to `p`. -/
def Within (p : α → Prop) : Regex α → Prop
  | empty => True
  | eps => True
  | set q => ∀ c, q c = true → p c
  | alt r s => Within p r ∧ Within p s
  | cat r s => Within p r ∧ Within p s
  | star r => Within p r

theorem within_upTo {p : α → Prop} (h : Within p r) (n : Nat) : Within p (upTo r n) := by
  induction n with
  | zero => exact trivial
  | succ n ih => exact ⟨trivial, h, ih⟩

theorem within_times {p : α → Prop} (h : Within p r) (n m : Nat) : Within p (times r n m) := by
  induction m with
  | zero => exact within_upTo h n
  | succ m ih => exact ⟨h, ih⟩

theorem within_lit [DecidableEq α] {p : α → Prop} {u : List α} (h : ∀ c ∈ u, p c) : Within p (lit u) := by
  induction u with
  | nil => exact trivial
  | cons a u ih =>
    refine ⟨fun c hc => ?_, ih fun c hc => h c (List.mem_cons_of_mem _ hc)⟩
    exact of_decide_eq_true hc ▸ h a List.mem_cons_self

/-- The characters of a match are of the classes of the expression. -/
private theorem forall_mem_of_lang {p : α → Prop} (h : Within p r) (hw : w ∈ r.lang) : ∀ c ∈ w, p c := by
  induction r generalizing w with
  | empty => exact absurd hw notMem_lang_empty
  | eps =>
    rw [mem_lang_eps.1 hw]
    exact fun c hc => absurd hc List.not_mem_nil
  | set q =>
    obtain ⟨a, ha, rfl⟩ := hw
    intro c hc
    exact List.mem_singleton.1 hc ▸ h a ha
  | alt r s ihr ihs =>
    rcases mem_lang_alt.1 hw with hw | hw
    · exact ihr h.1 hw
    · exact ihs h.2 hw
  | cat r s ihr ihs =>
    obtain ⟨u, hu, v, hv, rfl⟩ := mem_lang_cat.1 hw
    intro c hc
    rcases List.mem_append.1 hc with hc | hc
    · exact ihr h.1 hu c hc
    · exact ihs h.2 hv c hc
  | star r ih =>
    obtain ⟨us, rfl, hus⟩ := mem_lang_star.1 hw
    intro c hc
    obtain ⟨u, hu, hc⟩ := List.mem_flatten.1 hc
    exact ih h (hus u hu) c hc

theorem forall_mem_of_accepts {p : α → Prop} (h : Within p r) (hw : r.accepts w = true) : ∀ c ∈ w, p c :=
  forall_mem_of_lang h ((accepts_iff r w).1 hw)

/-! ### Matches of a line -/

/-- A match anchored by `^` and `$`; `nl` is the newline. -/
def acceptsLine [DecidableEq α] (nl : α) (r : Regex α) (w : List α) : Bool :=
  r.accepts w || (w.getLast? = some nl && r.accepts w.dropLast)

/-- A `$` leaves a newline over at the end. -/
theorem acceptsLine_iff [DecidableEq α] {nl : α} :
    acceptsLine nl r w = true ↔ w ∈ r.lang ∨ ∃ v ∈ r.lang, w = v ++ [nl] := by
  rw [acceptsLine, Bool.or_eq_true, Bool.and_eq_true, accepts_iff, accepts_iff, decide_eq_true_eq]
  refine or_congr_right ?_
  constructor
  · rintro ⟨hlast, hv⟩
    obtain ⟨v, rfl⟩ := List.getLast?_eq_some_iff.1 hlast
    rw [List.dropLast_concat] at hv
    exact ⟨v, hv, rfl⟩
  · rintro ⟨v, hv, rfl⟩
    rw [List.dropLast_concat]
    exact ⟨List.getLast?_concat, hv⟩

theorem acceptsLine_of_getLast_ne [DecidableEq α] {nl : α} (r : Regex α) (h : w.getLast? ≠ some nl) :
    acceptsLine nl r w = r.accepts w := by
  simp [acceptsLine, h]

theorem acceptsLine_append [DecidableEq α] {nl : α} (r : Regex α) (u : List α) (hw : w ≠ []) :
    acceptsLine nl r (u ++ w) = acceptsLine nl (r.derivs u) w := by
  have hlast : (u ++ w).getLast? = w.getLast? := by simp [List.getLast?_append_of_ne_nil u hw]
  rw [acceptsLine, hlast, List.dropLast_append_of_ne_nil hw, accepts_append, accepts_append, acceptsLine]

@[simp] theorem acceptsLine_empty [DecidableEq α] {nl : α} : acceptsLine nl (empty : Regex α) w = false := by
  have hno : ∀ v, (empty : Regex α).accepts v = false := by
    intro v
    rw [Bool.eq_false_iff, ne_eq, accepts_iff]
    exact notMem_lang_empty
  simp [acceptsLine, hno]

/-- `.*` matches a line with no newline but the last character. -/
theorem acceptsLine_star_ne [DecidableEq α] {nl : α} (hw : w ≠ []) :
    acceptsLine nl (star (set (· ≠ nl))) w = true ↔ nl ∉ w.dropLast := by
  have hacc : ∀ v, (star (set fun c => decide (c ≠ nl))).accepts v = true ↔ nl ∉ v := by
    intro v
    rw [accepts_iff, mem_lang_star_set]
    simp only [decide_eq_true_eq]
    constructor
    · intro h hmem
      exact h nl hmem rfl
    · intro h c hc heq
      exact h (heq ▸ hc)
  obtain ⟨v, c, rfl⟩ : ∃ v c, w = v ++ [c] := ⟨_, _, (List.dropLast_append_getLast hw).symm⟩
  rw [acceptsLine, Bool.or_eq_true, Bool.and_eq_true, hacc, hacc, List.dropLast_concat]
  by_cases hc : c = nl
  · simp [hc]
  · simp [Ne.symm hc]

/-- The text without a newline at its end. -/
def chomp [DecidableEq α] (nl : α) (w : List α) : List α := if w.getLast? = some nl then w.dropLast else w

theorem acceptsLine_eq_chomp [DecidableEq α] {nl : α} (h : ∀ v ∈ r.lang, v.getLast? ≠ some nl) :
    acceptsLine nl r w = r.accepts (chomp nl w) := by
  by_cases hlast : w.getLast? = some nl
  · have hno : r.accepts w = false := Bool.eq_false_iff.2 fun hw => h w ((accepts_iff r w).1 hw) hlast
    simp [acceptsLine, chomp, hlast, hno]
  · simp [acceptsLine, chomp, hlast]

/-! ### A text, and a run of characters, before the rest -/

private theorem accepts_cat_lit [DecidableEq α] (s : List α) (r : Regex α) (w : List α) :
    (cat (lit s) r).accepts (s ++ w) = r.accepts w := by
  rw [Bool.eq_iff_iff, accepts_iff, accepts_iff]
  constructor
  · intro h
    obtain ⟨u, hu, v, hv, heq⟩ := mem_lang_cat.1 h
    rw [mem_lang_lit.1 hu] at heq
    rw [← List.append_cancel_left heq]
    exact hv
  · intro h
    exact mem_lang_cat.2 ⟨s, mem_lang_lit.2 rfl, w, h, rfl⟩

/-- A text before the rest of a line that is not empty. -/
theorem acceptsLine_cat_lit [DecidableEq α] {nl : α} (s : List α) (r : Regex α) (hw : w ≠ []) :
    acceptsLine nl (cat (lit s) r) (s ++ w) = acceptsLine nl r w := by
  have hlast : (s ++ w).getLast? = w.getLast? := by simp [List.getLast?_append_of_ne_nil s hw]
  rw [acceptsLine, hlast, List.dropLast_append_of_ne_nil hw, accepts_cat_lit, accepts_cat_lit, acceptsLine]

/-- The word is empty or starts with a character that is not in the class. -/
def Leaves (p : α → Bool) (w : List α) : Prop := ∀ c ∈ w.head?, p c = false

theorem Leaves.dropLast {p : α → Bool} (h : Leaves p w) : Leaves p w.dropLast := by
  intro c hc
  apply h c
  cases w with
  | nil => cases hc
  | cons a w =>
    cases w with
    | nil => cases hc
    | cons b w => exact hc

/-- A run of characters of a class ends where the class is left. -/
theorem takeWhile_append_of_leaves {p : α → Bool} {u v : List α} (hu : ∀ c ∈ u, p c = true) (hv : Leaves p v) :
    (u ++ v).takeWhile p = u := by
  rw [List.takeWhile_append_of_pos hu]
  cases v with
  | nil => simp
  | cons c v => simp [hv c rfl]

private theorem append_eq_of_leaves {p : α → Bool} {u u' v v' : List α} (hu : ∀ c ∈ u, p c = true)
    (hu' : ∀ c ∈ u', p c = true)
    (hv : Leaves p v) (hv' : Leaves p v') (h : u ++ v = u' ++ v') : u = u' ∧ v = v' := by
  have heq : u = u' := by rw [← takeWhile_append_of_leaves hu hv, h, takeWhile_append_of_leaves hu' hv']
  subst heq
  exact ⟨rfl, List.append_cancel_left h⟩

section Plus

variable {p : α → Bool} {u v : List α} (hr : ∀ w ∈ r.lang, Leaves p w) (hu : ∀ c ∈ u, p c = true) (hne : u ≠ [])
  (hv : Leaves p v)
include hr hu hne hv

private theorem accepts_cat_plus : (cat (plus (set p)) r).accepts (u ++ v) = r.accepts v := by
  rw [Bool.eq_iff_iff, accepts_iff, accepts_iff]
  constructor
  · intro h
    obtain ⟨u', hu', w, hw, heq⟩ := mem_lang_cat.1 h
    obtain ⟨-, rfl⟩ := append_eq_of_leaves hu (mem_lang_plus_set.1 hu').2 hv (hr w hw) heq.symm
    exact hw
  · intro h
    exact mem_lang_cat.2 ⟨u, mem_lang_plus_set.2 ⟨hne, hu⟩, v, h, rfl⟩

/-- A run of characters of a class, the last of which may be a newline, before the rest of a line. -/
theorem acceptsLine_cat_plus [DecidableEq α] {nl : α} :
    acceptsLine nl (cat (plus (set p)) r) (u ++ v) = acceptsLine nl r v := by
  by_cases hvne : v = []
  · subst hvne
    have hwhole := accepts_cat_plus hr hu hne hv
    have hshort : (cat (plus (set p)) r).accepts u.dropLast = true → r.accepts [] = true := by
      intro h
      by_cases hempty : u.dropLast = []
      · rw [hempty, accepts_iff] at h
        obtain ⟨u', hu', w, -, heq⟩ := mem_lang_cat.1 h
        exact absurd (List.append_eq_nil_iff.1 heq).1 (mem_lang_plus_set.1 hu').1
      · have hrun := accepts_cat_plus hr (fun c hc => hu c (List.mem_of_mem_dropLast hc)) hempty hv
        rw [List.append_nil] at hrun
        rw [← hrun]
        exact h
    rw [List.append_nil] at hwhole ⊢
    rw [acceptsLine, hwhole, acceptsLine]
    simp only [List.getLast?_nil, List.dropLast_nil]
    rw [Bool.eq_iff_iff]
    simp only [Bool.or_eq_true, Bool.and_eq_true]
    constructor
    · rintro (h | ⟨-, h⟩)
      · exact .inl h
      · exact .inl (hshort h)
    · rintro (h | ⟨h, -⟩)
      · exact .inl h
      · simp at h
  · have hlast : (u ++ v).getLast? = v.getLast? := by simp [List.getLast?_append_of_ne_nil u hvne]
    rw [acceptsLine, hlast, List.dropLast_append_of_ne_nil hvne, accepts_cat_plus hr hu hne hv,
      accepts_cat_plus hr hu hne hv.dropLast, acceptsLine]

end Plus

/-! ### Other alphabets -/

section Comap

variable {β : Type*} {f : β → Option α} {b : β} {c : α} {u : List β}

/-- The expression for texts of another alphabet, whose characters stand for one of this alphabet or for none. -/
def comap (f : β → Option α) : Regex α → Regex β
  | empty => empty
  | eps => eps
  | set p => set fun b => (f b).any p
  | alt r s => alt (comap f r) (comap f s)
  | cat r s => cat (comap f r) (comap f s)
  | star r => star (comap f r)

private theorem comap_upTo (f : β → Option α) (r : Regex α) (n : Nat) : comap f (upTo r n) = upTo (comap f r) n := by
  induction n with
  | zero => rfl
  | succ n ih => rw [upTo, opt, comap, comap, comap, ih, upTo, opt]

theorem comap_times (f : β → Option α) (r : Regex α) (n m : Nat) :
    comap f (times r n m) = times (comap f r) n m := by
  induction m with
  | zero => exact comap_upTo f r n
  | succ m ih => rw [times, comap, ih, times]

private theorem nullable_comap (f : β → Option α) (r : Regex α) : (comap f r).nullable = r.nullable := by
  induction r with
  | empty | eps | set p | star r _ => rfl
  | alt r s ihr ihs | cat r s ihr ihs => rw [comap, nullable, ihr, ihs, nullable]

private theorem comap_mkAlt (f : β → Option α) (r s : Regex α) :
    comap f (mkAlt r s) = mkAlt (comap f r) (comap f s) := by
  cases r <;> cases s <;> rfl

private theorem comap_mkCat (f : β → Option α) (r s : Regex α) :
    comap f (mkCat r s) = mkCat (comap f r) (comap f s) := by
  cases r <;> rfl

private theorem deriv_comap (hb : f b = some c) (r : Regex α) : (comap f r).deriv b = comap f (r.deriv c) := by
  induction r with
  | empty => rfl
  | eps => rfl
  | set p =>
    rw [comap, deriv, hb, deriv, Option.any_some]
    split <;> rfl
  | alt r s ihr ihs => rw [comap, deriv, ihr, ihs, deriv, comap_mkAlt]
  | cat r s ihr ihs =>
    rw [comap, deriv, nullable_comap, ihr, ihs, deriv]
    split
    · rw [comap_mkAlt, comap_mkCat]
    · rw [comap_mkCat]
  | star r ih => rw [comap, deriv, ih, deriv, comap_mkCat, comap]

/-- The characters of a match stand for some of the other alphabet. -/
private theorem within_comap (f : β → Option α) (r : Regex α) : Within (fun b => (f b).isSome) (comap f r) := by
  induction r with
  | empty => exact trivial
  | eps => exact trivial
  | set p =>
    intro b hb
    obtain ⟨c, hc, -⟩ := (Option.any_eq_true _ _).1 hb
    exact hc ▸ rfl
  | alt r s ihr ihs => exact ⟨ihr, ihs⟩
  | cat r s ihr ihs => exact ⟨ihr, ihs⟩
  | star r ih => exact ih

/-- A text that stands for one of the other alphabet is matched as that one. -/
theorem accepts_comap_of_map {v : List α} (h : u.map f = v.map some) : (comap f r).accepts u = r.accepts v := by
  induction v generalizing u r with
  | nil =>
    rw [List.map_eq_nil_iff.1 h]
    exact nullable_comap f r
  | cons c v ih =>
    obtain ⟨b, u, rfl, hb, hu⟩ := List.map_eq_cons_iff.1 h
    rw [accepts_cons, accepts_cons, deriv_comap hb, ih hu]

theorem accepts_comap :
    (comap f r).accepts u = true ↔ ∃ v : List α, u.map f = v.map some ∧ r.accepts v = true := by
  constructor
  · intro h
    have hsome : u.map f ∈ Set.range (List.map (some : α → Option α)) := by
      rw [Set.range_list_map]
      intro o ho
      obtain ⟨b, hb, rfl⟩ := List.mem_map.1 ho
      obtain ⟨c, hc⟩ := Option.isSome_iff_exists.1 (forall_mem_of_accepts (within_comap f r) h b hb)
      exact ⟨c, hc.symm⟩
    obtain ⟨v, hv⟩ := hsome
    exact ⟨v, hv.symm, accepts_comap_of_map hv.symm ▸ h⟩
  · rintro ⟨v, hv, h⟩
    rw [accepts_comap_of_map hv, h]

/-- A line of the other alphabet; only its newline stands for the newline. -/
theorem acceptsLine_comap_of_map [DecidableEq α] [DecidableEq β] {nl : α} {nl' : β} {v : List α}
    (hnl : ∀ b, f b = some nl ↔ b = nl') (h : u.map f = v.map some) :
    acceptsLine nl' (comap f r) u = acceptsLine nl r v := by
  have hlast : u.getLast? = some nl' ↔ v.getLast? = some nl := by
    have hmap : u.getLast?.map f = v.getLast?.map some := by rw [← List.getLast?_map, h, List.getLast?_map]
    cases hu : u.getLast? with
    | none =>
      rw [hu, Option.map_none] at hmap
      rw [Option.map_eq_none_iff.1 hmap.symm]
      exact iff_of_false (Option.some_ne_none nl').symm (Option.some_ne_none nl).symm
    | some b =>
      rw [hu, Option.map_some] at hmap
      obtain ⟨c, hc, hbc⟩ := Option.map_eq_some_iff.1 hmap.symm
      rw [hc, Option.some_inj, Option.some_inj, ← hnl, ← hbc, Option.some_inj]
  have hinit : u.dropLast.map f = v.dropLast.map some := by rw [List.map_dropLast, h, List.map_dropLast]
  rw [acceptsLine, accepts_comap_of_map h, accepts_comap_of_map hinit, decide_eq_decide.2 hlast, acceptsLine]

end Comap

end Regex
