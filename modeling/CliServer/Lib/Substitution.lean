import CliServer.Lib.Backtracking

/-!
# Substitution

A `Rule` replaces every match of a pattern, from the left, by a text around one of its groups.  Where no character
that the pattern reads is a `q`, it acts on what stands between the `q`s separately (`subFrom_append`); a text in
which no match begins is left as it is (`subFrom_clear`); and what a rule has changed has a match in it, if each of
its replacements is one (`subFrom_rematches`).
-/

namespace Substitution

open Pattern

variable {α β : Type*}

/-- Replaces a match of the four patterns, one after the other, by the text that the second one read between `left` and
`right`; `lead`, `group` and `mid` are the beginning of a match. -/
structure Rule (α : Type*) where
  lead : Pattern α
  group : Pattern α
  mid : Pattern α
  tail : Pattern α
  left : List α
  right : List α

namespace Rule

variable (r : Rule α)

/-- The match from here on, where there is one: where its group begins and ends, and where it ends itself. -/
def matchAt (prev : Option α) (s : List α) : Option (Nat × Nat × Nat) :=
  run r.lead (fun i => run r.group (fun j => run (.seq r.mid r.tail) (fun n _ _ => some (i, j, n)) j) i) 0 prev s

/-- What a match is replaced by. -/
def replaced (s : List α) (m : Nat × Nat × Nat) : List α := r.left ++ ((s.take m.2.1).drop m.1 ++ r.right)

/-- `sub`, from a place after `prev`; `skip` characters from there on are in a match. -/
def subFrom : Nat → Option α → List α → List α
  | _, _, [] => []
  | skip + 1, _, c :: s => subFrom skip (some c) s
  | 0, prev, c :: s =>
    match r.matchAt prev (c :: s) with
    | some m => r.replaced (c :: s) m ++ subFrom (m.2.2 - 1) (some c) s
    | none => c :: subFrom 0 (some c) s

/-- `re.sub`, of a pattern that does not match the empty text. -/
def sub (s : List α) : List α := r.subFrom 0 none s

/-- The beginning of a match. -/
def opening : Pattern α := .seq r.lead (.seq r.group r.mid)

/-- The whole pattern. -/
def pattern : Pattern α := .seq r.lead (.seq r.group (.seq r.mid r.tail))

/-- A match begins somewhere in `x`, where `w` follows. -/
def BeginsIn (prev : Option α) (x w : List α) : Prop :=
  ∃ u v, x = u ++ v ∧ v ≠ [] ∧ (r.matchAt (after prev u) (v ++ w)).isSome

variable {r} {prev : Option α} {s x y y' : List α} {q : α} {m : Nat × Nat × Nat}

/-- The parts of a match. -/
theorem matchAt_eq_some (h : r.matchAt prev s = some m) : ∃ u g o t z, s = u ++ (g ++ (o ++ (t ++ z))) ∧
    Consumes r.lead prev u (g ++ (o ++ (t ++ z))) ∧ Consumes r.group (after prev u) g (o ++ (t ++ z)) ∧
    Consumes r.mid (after (after prev u) g) o (t ++ z) ∧ Consumes r.tail (after (after (after prev u) g) o) t z ∧
    m = (u.length, u.length + g.length, u.length + g.length + (o.length + t.length)) := by
  obtain ⟨u, s', rfl, hu, h⟩ := run_eq_some h
  obtain ⟨g, s', rfl, hg, h⟩ := run_eq_some h
  obtain ⟨w, z, rfl, ⟨o, t, rfl, ho, ht⟩, h⟩ := run_eq_some h
  refine ⟨u, g, o, t, z, by rw [List.append_assoc], ?_, ?_, ho, ht, ?_⟩
  · rw [List.append_assoc] at hu
    exact hu
  · rw [List.append_assoc] at hg
    exact hg
  · rw [Nat.zero_add, List.length_append] at h
    exact (Option.some.inj h).symm

/-- The text of a match. -/
theorem matchAt_whole (h : r.matchAt prev s = some m) :
    ∃ x z, s = x ++ z ∧ Consumes r.pattern prev x z ∧ m.2.2 = x.length := by
  obtain ⟨u, g, o, t, z, rfl, hu, hg, ho, ht, rfl⟩ := matchAt_eq_some h
  refine ⟨u ++ (g ++ (o ++ t)), z, by simp, ⟨u, g ++ (o ++ t), rfl, ?_, g, o ++ t, rfl, ?_, o, t, rfl, ho, ht⟩, ?_⟩
  · rw [List.append_assoc, List.append_assoc]
    exact hu
  · rw [List.append_assoc]
    exact hg
  · simp only [List.length_append]
    omega

theorem matchAt_isSome (h : Consumes r.pattern prev x y) : (r.matchAt prev (x ++ y)).isSome := by
  obtain ⟨u, u', rfl, hu, g, g', rfl, hg, hrest⟩ := h
  rw [List.append_assoc, matchAt]
  refine run_isSome hu ?_
  rw [List.append_assoc]
  refine run_isSome ?_ (run_isSome hrest rfl)
  exact hg

/-- A match begins where there is one. -/
theorem opening_of_matchAt (h : r.matchAt prev s = some m) :
    ∃ x z, s = x ++ z ∧ x.length ≤ m.2.2 ∧ Consumes r.opening prev x z := by
  obtain ⟨u, g, o, t, z, rfl, hu, hg, ho, -, rfl⟩ := matchAt_eq_some h
  refine ⟨u ++ (g ++ o), t ++ z, by simp, ?_, u, g ++ o, rfl, ?_, g, o, rfl, hg, ho⟩
  · simp only [List.length_append]
    omega
  · rw [List.append_assoc]
    exact hu

/-- What is left of the text behind a match, and what it is replaced by. -/
private theorem matchAt_parts (h : r.matchAt prev s = some m) : ∃ u g t z, s = u ++ (g ++ (t ++ z)) ∧
    Consumes r.group (after prev u) g (t ++ z) ∧ r.replaced s m = r.left ++ (g ++ r.right) ∧
    m.2.2 = (u ++ (g ++ t)).length ∧ Consumes r.lead prev u (g ++ (t ++ z)) := by
  obtain ⟨u, g, o, t, z, rfl, hu, hg, -, -, rfl⟩ := matchAt_eq_some h
  refine ⟨u, g, o ++ t, z, by simp, ?_, ?_, ?_, ?_⟩
  · rw [List.append_assoc]
    exact hg
  · rw [replaced]
    dsimp only
    rw [List.take_append, List.drop_append]
    simp
  · simp only [List.length_append]
    omega
  · rw [List.append_assoc]
    exact hu

/-! ### Where a rule acts -/

private theorem subFrom_skip (k : Nat) (x y : List α) :
    r.subFrom (x.length + k) prev (x ++ y) = r.subFrom k (after prev x) y := by
  induction x generalizing prev with
  | nil => rw [List.length_nil, Nat.zero_add, List.nil_append, after_nil]
  | cons c x ih =>
    rw [List.length_cons, Nat.add_right_comm]
    exact ih

private theorem subFrom_none {c : α} (h : r.matchAt prev (c :: s) = none) :
    r.subFrom 0 prev (c :: s) = c :: r.subFrom 0 (some c) s := by
  rw [subFrom, h]

/-- A match is replaced, and the search goes on behind it. -/
theorem subFrom_some (h : r.matchAt prev (x ++ y) = some m) (hx : x ≠ []) (hlength : m.2.2 = x.length) :
    r.subFrom 0 prev (x ++ y) = r.replaced (x ++ y) m ++ r.subFrom 0 (after prev x) y := by
  obtain ⟨c, x, rfl⟩ := List.exists_cons_of_ne_nil hx
  rw [List.cons_append] at h ⊢
  rw [subFrom, h]
  dsimp only
  rw [hlength, List.length_cons, Nat.add_sub_cancel, after_cons]
  exact congrArg _ (subFrom_skip 0 x y)

@[simp] theorem not_beginsIn_nil {w : List α} : ¬r.BeginsIn prev [] w := by
  rintro ⟨u, v, huv, hv, -⟩
  exact hv (List.append_eq_nil_iff.1 huv.symm).2

theorem BeginsIn.cons {c : α} {w : List α} (h : r.BeginsIn (some c) x w) : r.BeginsIn prev (c :: x) w := by
  obtain ⟨u, v, rfl, hv, hm⟩ := h
  exact ⟨c :: u, v, rfl, hv, hm⟩

private theorem beginsIn_cons_iff {c : α} {w : List α} :
    r.BeginsIn prev (c :: x) w ↔ (r.matchAt prev (c :: x ++ w)).isSome = true ∨ r.BeginsIn (some c) x w := by
  constructor
  · rintro ⟨u, v, hx, hv, hm⟩
    cases u with
    | nil =>
      obtain rfl : c :: x = v := hx
      exact .inl hm
    | cons d u =>
      obtain ⟨rfl, hrest⟩ := List.cons.inj hx
      exact .inr ⟨u, v, hrest, hv, hm⟩
  · rintro (hm | hrest)
    · exact ⟨[], c :: x, rfl, List.cons_ne_nil _ _, hm⟩
    · exact hrest.cons

instance BeginsIn.decidable (w : List α) : (prev : Option α) → (x : List α) → Decidable (r.BeginsIn prev x w)
  | _, [] => isFalse not_beginsIn_nil
  | _, c :: x =>
    have := BeginsIn.decidable w (some c) x
    decidable_of_iff _ beginsIn_cons_iff.symm

private theorem matchAt_of_not_beginsIn {c : α} {w : List α} (h : ¬r.BeginsIn prev (c :: x) w) :
    r.matchAt prev (c :: x ++ w) = none := by
  rw [beginsIn_cons_iff, not_or, Option.not_isSome_iff_eq_none] at h
  exact h.1

/-- A text in which no match begins is left as it is. -/
theorem subFrom_clear {w : List α} (h : ¬r.BeginsIn prev x w) :
    r.subFrom 0 prev (x ++ w) = x ++ r.subFrom 0 (after prev x) w := by
  induction x generalizing prev with
  | nil => rfl
  | cons c x ih =>
    have hnone := matchAt_of_not_beginsIn h
    rw [List.cons_append] at hnone ⊢
    rw [subFrom_none hnone, ih fun hrest => h hrest.cons, after_cons, List.cons_append]

theorem subFrom_eq_self (h : ¬r.BeginsIn prev s []) : r.subFrom 0 prev s = s := by
  have hclear := subFrom_clear h
  rwa [subFrom, List.append_nil] at hclear

/-- In a match, or behind one, a text in which no match begins is dropped up to its end. -/
theorem subFrom_eq_drop {skip : Nat} (h : ¬r.BeginsIn prev s []) : r.subFrom skip prev s = s.drop skip := by
  induction s generalizing skip prev with
  | nil => cases skip <;> rfl
  | cons c s ih =>
    cases skip with
    | zero => exact subFrom_eq_self h
    | succ skip => exact ih fun hrest => h hrest.cons

/-- No match begins in a text without the characters that it needs. -/
theorem not_beginsIn {p : α → Prop} (hq : Avoids q r.opening) (hneeds : Needs p r.opening) (hx : ∀ c ∈ x, ¬p c)
    (y : List α) :
    ¬r.BeginsIn prev x (q :: y) := by
  rintro ⟨u, v, rfl, -, hm⟩
  obtain ⟨m, hm⟩ := Option.isSome_iff_exists.1 hm
  obtain ⟨o, z, ho, -, hread⟩ := opening_of_matchAt hm
  obtain ⟨z', rfl, -⟩ := eq_append_of_not_mem ho.symm (hread.not_mem hq)
  obtain ⟨c, hc, hpc⟩ := hread.exists_mem hneeds
  exact hx c (List.mem_append_right u (List.mem_append_left z' hc)) hpc

/-- Nor in one without a character that it begins with. -/
theorem not_beginsIn_of_starts {p : α → Prop} {w : List α} (hstarts : Starts p r.opening)
    (hneeds : Needs (fun _ => True) r.opening) (hx : ∀ c ∈ x, ¬p c) : ¬r.BeginsIn prev x w := by
  rintro ⟨u, v, rfl, hv, hm⟩
  obtain ⟨m, hm⟩ := Option.isSome_iff_exists.1 hm
  obtain ⟨o, z, ho, -, hread⟩ := opening_of_matchAt hm
  obtain ⟨c, v, rfl⟩ := List.exists_cons_of_ne_nil hv
  obtain ⟨d, o, rfl⟩ := List.exists_cons_of_ne_nil (hread.ne_nil hneeds)
  obtain rfl : c = d := (List.cons.inj ho).1
  exact hx c (List.mem_append_right u List.mem_cons_self) (hread.start hstarts)

/-- Where no match can begin at the first character, what stands before it does not matter. -/
theorem subFrom_start {p : α → Prop} (hstarts : Starts p r.opening) (hneeds : Needs (fun _ => True) r.opening)
    (hs : ∀ c ∈ s.head?, ¬p c) (prev prev' : Option α) :
    r.subFrom 0 prev s = r.subFrom 0 prev' s ∧ (r.subFrom 0 prev s).head? = s.head? := by
  cases s with
  | nil => exact ⟨rfl, rfl⟩
  | cons c s =>
    have hclear : ∀ prev, r.subFrom 0 prev (c :: s) = c :: r.subFrom 0 (some c) s := by
      intro prev
      have hnot : ¬r.BeginsIn prev [c] s := not_beginsIn_of_starts hstarts hneeds fun d hd => by
        rw [List.mem_singleton.1 hd]
        exact hs c rfl
      exact subFrom_clear hnot
    rw [hclear prev, hclear prev']
    exact ⟨rfl, rfl⟩

private theorem matchAt_avoided {p : α → Prop} (hq : Avoids q r.opening) (hneeds : Needs p r.opening) (y : List α) :
    r.matchAt prev (q :: y) = none := by
  by_contra hsome
  obtain ⟨m, hm⟩ := Option.ne_none_iff_exists'.1 hsome
  obtain ⟨o, z, ho, -, hread⟩ := opening_of_matchAt hm
  obtain ⟨d, o, rfl⟩ := List.exists_cons_of_ne_nil (hread.ne_nil hneeds)
  obtain rfl : q = d := (List.cons.inj ho).1
  exact absurd List.mem_cons_self (hread.not_mem hq)

/-- A `q` that a match cannot begin with stays. -/
theorem subFrom_cons {p : α → Prop} (hq : Avoids q r.opening) (hneeds : Needs p r.opening) (y : List α) :
    r.subFrom 0 prev (q :: y) = q :: r.subFrom 0 (some q) y :=
  subFrom_none (matchAt_avoided hq hneeds y)

theorem BeginsIn.of_cons {p : α → Prop} {w : List α} (hq : Avoids q r.opening) (hneeds : Needs p r.opening)
    (h : r.BeginsIn prev (q :: x) w) : r.BeginsIn (some q) x w := by
  rw [beginsIn_cons_iff, List.cons_append, matchAt_avoided hq hneeds] at h
  exact h.resolve_left Bool.false_ne_true

/-- Where no match goes on from `x` into `w`, the matches are those on the two sides. -/
theorem subFrom_append_of {w : List α}
    (h : ∀ u c v, x = u ++ c :: v → ∀ prev, r.matchAt prev (c :: v ++ w) = r.matchAt prev (c :: v)) {skip : Nat}
    (hskip : skip ≤ x.length) :
    r.subFrom skip prev (x ++ w) = r.subFrom skip prev x ++ r.subFrom 0 (after prev x) w := by
  induction x generalizing skip prev with
  | nil =>
    obtain rfl : skip = 0 := Nat.le_zero.1 hskip
    rfl
  | cons c x ih =>
    have hrest : ∀ u d v, x = u ++ d :: v → ∀ prev, r.matchAt prev (d :: v ++ w) = r.matchAt prev (d :: v) :=
      fun u d v hx => h (c :: u) d v (by rw [hx, List.cons_append])
    cases skip with
    | succ skip => exact ih hrest (Nat.le_of_succ_le_succ hskip)
    | zero =>
      have hmatch := h [] c x rfl prev
      cases hm : r.matchAt prev (c :: x) with
      | none =>
        have hnone : r.matchAt prev (c :: (x ++ w)) = none := hmatch.trans hm
        rw [List.cons_append, subFrom_none hm, subFrom_none hnone, ih hrest (Nat.zero_le _), after_cons,
          List.cons_append]
      | some m =>
        have hsome : r.matchAt prev (c :: (x ++ w)) = some m := hmatch.trans hm
        obtain ⟨u, g, o, t, z, hs, -, -, -, -, hparts⟩ := matchAt_eq_some hm
        have hlength : (c :: x).length = u.length + (g.length + (o.length + (t.length + z.length))) := by
          rw [hs]
          simp only [List.length_append]
        rw [List.length_cons] at hlength
        have hgroup : m.2.1 ≤ (c :: x).length := by
          rw [hparts, List.length_cons]
          dsimp only
          omega
        have hreplaced : r.replaced (c :: (x ++ w)) m = r.replaced (c :: x) m := by
          rw [replaced, replaced, ← List.cons_append, List.take_append_of_le_length hgroup]
        have hskip' : m.2.2 - 1 ≤ x.length := by
          rw [hparts]
          dsimp only
          omega
        rw [List.cons_append, subFrom, hsome, subFrom, hm]
        dsimp only
        rw [ih hrest hskip', hreplaced, after_cons, List.append_assoc]

/-- The matches of a pattern that avoids `q` are those on the two sides of it. -/
theorem subFrom_append (hq : Avoids q r.pattern) {skip : Nat} (hskip : skip ≤ x.length) (y : List α) :
    r.subFrom skip prev (x ++ q :: y) = r.subFrom skip prev x ++ r.subFrom 0 (after prev x) (q :: y) := by
  obtain ⟨hlead, hgroup, hrest⟩ := hq
  refine subFrom_append_of (fun u c v _ prev => ?_) hskip
  rw [matchAt, matchAt, run_cut hlead]
  congr 1
  funext i prev z
  rw [run_cut hgroup]
  congr 1
  funext j prev z
  exact run_cut (k := fun n _ _ => some (i, j, n)) hrest y

/-- Every character is one of the text, or of a replacement. -/
theorem mem_of_mem_subFrom {c : α} {skip : Nat} (h : c ∈ r.subFrom skip prev s) : c ∈ s ∨ c ∈ r.left ∨ c ∈ r.right := by
  induction s generalizing skip prev with
  | nil => cases skip <;> cases h
  | cons d s ih =>
    cases skip with
    | succ skip => exact (ih h).imp_left (List.mem_cons_of_mem d)
    | zero =>
      cases hm : r.matchAt prev (d :: s) with
      | none =>
        rw [subFrom_none hm] at h
        rcases List.mem_cons.1 h with rfl | h
        · exact .inl List.mem_cons_self
        · exact (ih h).imp_left (List.mem_cons_of_mem d)
      | some m =>
        rw [subFrom, hm] at h
        rcases List.mem_append.1 h with h | h
        · rcases List.mem_append.1 h with h | h
          · exact .inr (.inl h)
          · rcases List.mem_append.1 h with h | h
            · exact .inl (List.mem_of_mem_take (List.mem_of_mem_drop h))
            · exact .inr (.inr h)
        · exact (ih h).imp_left (List.mem_cons_of_mem d)

theorem subFrom_ne_nil (hs : s ≠ []) (hright : r.right ≠ []) : r.subFrom 0 prev s ≠ [] := by
  obtain ⟨c, s, rfl⟩ := List.exists_cons_of_ne_nil hs
  rw [subFrom]
  split
  · refine List.append_ne_nil_of_left_ne_nil ?_ _
    exact List.append_ne_nil_of_right_ne_nil _ (List.append_ne_nil_of_right_ne_nil _ hright)
  · exact List.cons_ne_nil _ _

/-- What replaces a match begins as the text, up to `q`, if the group goes that far and what stands before it is put
back. -/
private theorem replaced_keeps {w : List α} (hback : ∀ prev l z, Consumes r.lead prev l z → r.left = l)
    (hm : r.matchAt prev (x ++ q :: w) = some m) (hlong : ∀ l g t, x ++ q :: w = (l ++ g) ++ t →
      Consumes r.lead prev l (g ++ t) → Consumes r.group (after prev l) g t → x.length < (l ++ g).length) :
    ∃ z, r.replaced (x ++ q :: w) m = x ++ q :: z := by
  obtain ⟨l, g, t, z, hs, hgroup, hreplaced, -, hlead⟩ := matchAt_parts hm
  rw [← List.append_assoc] at hs
  have hlength := hlong l g (t ++ z) hs hlead hgroup
  rcases List.append_eq_append_iff.1 hs with ⟨a, ha, hrest⟩ | ⟨a, ha, -⟩
  · cases a with
    | nil =>
      rw [ha, List.append_nil] at hlength
      exact absurd hlength (Nat.lt_irrefl _)
    | cons d a =>
      obtain rfl : q = d := (List.cons.inj hrest).1
      refine ⟨a ++ r.right, ?_⟩
      rw [hreplaced, hback prev l _ hlead, ← List.append_assoc, ha, List.append_assoc]
      rfl
  · rw [ha, List.length_append] at hlength
    omega

/-- Such a rule leaves a text up to `q`, if no group that begins before `q` ends there. -/
theorem subFrom_keeps {w : List α} (hback : ∀ prev l z, Consumes r.lead prev l z → r.left = l)
    (hlong : ∀ prev u v l g t, x = u ++ v → v ++ q :: w = (l ++ g) ++ t → Consumes r.lead prev l (g ++ t) →
      Consumes r.group (after prev l) g t → v.length < (l ++ g).length) :
    ∃ z, r.subFrom 0 prev (x ++ q :: w) = x ++ q :: z := by
  induction x generalizing prev with
  | nil =>
    rw [List.nil_append]
    cases hm : r.matchAt prev (q :: w) with
    | none => exact ⟨_, subFrom_none hm⟩
    | some m =>
      obtain ⟨z, hz⟩ := replaced_keeps (x := []) hback hm fun l g t => hlong prev [] [] l g t rfl
      rw [List.nil_append] at hz
      refine ⟨z ++ r.subFrom (m.2.2 - 1) (some q) w, ?_⟩
      rw [subFrom, hm]
      dsimp only
      rw [hz]
      rfl
  | cons d x ih =>
    cases hm : r.matchAt prev (d :: x ++ q :: w) with
    | none =>
      obtain ⟨z, hz⟩ := ih fun prev u v l g t hx => hlong prev (d :: u) v l g t (congrArg (d :: ·) hx)
      exact ⟨z, (subFrom_none hm).trans (congrArg (d :: ·) hz)⟩
    | some m =>
      obtain ⟨z, hz⟩ := replaced_keeps hback hm fun l g t => hlong prev [] (d :: x) l g t rfl
      refine ⟨z ++ r.subFrom (m.2.2 - 1) (some d) (x ++ q :: w), ?_⟩
      rw [List.cons_append] at hm hz ⊢
      rw [subFrom, hm]
      dsimp only
      rw [hz]
      simp

/-- What a rule has changed has a match in it, if every replacement has. -/
theorem subFrom_rematches (hreplaced : ∀ prev u g t z, Consumes r.lead prev u (g ++ t) →
      Consumes r.group (after prev u) g t → ∃ x w, r.left ++ (g ++ r.right) ++ z = x ++ w ∧ x ≠ [] ∧
        Consumes r.pattern prev x w) :
    r.subFrom 0 prev s = s ∨ r.BeginsIn prev (r.subFrom 0 prev s) [] := by
  induction s generalizing prev with
  | nil => exact .inl rfl
  | cons c s ih =>
    cases hm : r.matchAt prev (c :: s) with
    | none =>
      rw [subFrom_none hm]
      have hrest : r.subFrom 0 (some c) s = s ∨ r.BeginsIn (some c) (r.subFrom 0 (some c) s) [] := ih
      rcases hrest with hsame | hbegins
      · exact .inl (congrArg _ hsame)
      · exact .inr hbegins.cons
    | some m =>
      obtain ⟨u, g, t, z, hs, hgroup, htext, hlength, hlead⟩ := matchAt_parts hm
      right
      rw [subFrom, hm]
      dsimp only
      rw [htext]
      obtain ⟨x, w, hx, hne, hread⟩ := hreplaced prev u g (t ++ z) (r.subFrom (m.2.2 - 1) (some c) s) hlead hgroup
      rw [hx]
      refine ⟨[], x ++ w, rfl, List.append_ne_nil_of_left_ne_nil hne w, ?_⟩
      rw [List.append_nil]
      exact matchAt_isSome hread

/-! ### What the matches cover -/

/-- Every `q` of the text is in a match, and no match reaches the `q` that follows it. -/
def closes [DecidableEq α] (r : Rule α) (q : α) : Nat → Option α → List α → Bool
  | 0, _, [] => true
  | _ + 1, _, [] => false
  | skip + 1, _, c :: s => closes r q skip (some c) s
  | 0, prev, c :: s =>
    match r.matchAt prev (c :: s ++ [q]) with
    | some m => closes r q (m.2.2 - 1) (some c) s
    | none => c ≠ q && closes r q 0 (some c) s

/-- The value of a rule whose matches end in `p+` is as long as it can be. -/
private theorem run_plus {p : α → Bool} {f : Nat → β} {n : Nat} {prev : Option α} {s : List α} :
    run (plus p) (fun n _ _ => some (f n)) n prev s =
      if s.takeWhile p = [] then none else some (f (n + (s.takeWhile p).length)) := by
  have hmany : ∀ s n prev, runMany p (fun n (_ : Option α) (_ : List α) => some (f n)) n prev s =
      some (f (n + (s.takeWhile p).length)) := by
    intro s
    induction s with
    | nil => exact fun _ _ => rfl
    | cons c s ih =>
      intro n prev
      rw [runMany]
      split
      · next hc =>
        rw [ih, Option.some_or, List.takeWhile_cons_of_pos hc, List.length_cons, Nat.add_assoc, Nat.add_comm 1]
      · next hc => rw [List.takeWhile_cons_of_neg hc, List.length_nil, Nat.add_zero]
  cases s with
  | nil => rfl
  | cons c s =>
    rw [plus, run, run]
    split
    · next hc =>
      rw [List.takeWhile_cons_of_pos hc, if_neg (List.cons_ne_nil _ _), run, hmany, List.length_cons, Nat.add_assoc,
        Nat.add_comm 1]
    · next hc => rw [List.takeWhile_cons_of_neg hc, if_pos rfl]

/-- The same match, within the first `length` characters, or both go beyond them, by `a` and by `b` characters. -/
def SameWithin (length a b : Nat) : Option (Nat × Nat × Nat) → Option (Nat × Nat × Nat) → Prop
  | none, none => True
  | some m, some m' => m.1 = m'.1 ∧ m.2.1 = m'.2.1 ∧ m.2.1 ≤ length ∧
    (m.2.2 = m'.2.2 ∧ m.2.2 ≤ length ∨ (0 < a ∧ 0 < b) ∧ m.2.2 = length + a ∧ m'.2.2 = length + b)
  | _, _ => False

theorem SameWithin.or {length a b : Nat} {m₁ m₂ m₁' m₂' : Option (Nat × Nat × Nat)} (h₁ : SameWithin length a b m₁ m₁')
    (h₂ : SameWithin length a b m₂ m₂') : SameWithin length a b (m₁.or m₂) (m₁'.or m₂') := by
  cases m₁ with
  | none =>
    cases m₁' with
    | none => exact h₂
    | some m' => exact h₁.elim
  | some m =>
    cases m₁' with
    | none => exact h₁.elim
    | some m' => exact h₁

private theorem SameWithin.isSome_iff {length a b : Nat} {m m' : Option (Nat × Nat × Nat)}
    (h : SameWithin length a b m m') :
    m.isSome = true ↔ m'.isSome = true := by
  cases m with
  | none =>
    cases m' with
    | none => rfl
    | some m' => exact h.elim
  | some m =>
    cases m' with
    | none => exact h.elim
    | some m' => exact iff_of_true rfl rfl

theorem SameWithin.of_zero {length a b : Nat} {m m' : Option (Nat × Nat × Nat)} (h : SameWithin length 0 0 m m') :
    SameWithin length a b m m' := by
  cases m with
  | none =>
    cases m' with
    | none => exact h
    | some m' => exact h.elim
  | some m =>
    cases m' with
    | none => exact h.elim
    | some m' =>
      obtain ⟨hi, hj, hgroup, hsame | ⟨⟨hpos, -⟩, -⟩⟩ := h
      · exact ⟨hi, hj, hgroup, .inl hsame⟩
      · exact absurd hpos (Nat.lt_irrefl 0)

variable {p : α → Bool}

/-- The parts of a match that ends in `p+`. -/
theorem matchAt_eq_some_of_plus (htail : r.tail = plus p) (h : r.matchAt prev s = some m) : ∃ u g o z,
    s = u ++ (g ++ (o ++ z)) ∧ Consumes r.lead prev u (g ++ (o ++ z)) ∧ Consumes r.group (after prev u) g (o ++ z) ∧
    Consumes r.mid (after (after prev u) g) o z ∧ z.takeWhile p ≠ [] ∧
    m = (u.length, u.length + g.length, u.length + g.length + (o.length + (z.takeWhile p).length)) := by
  obtain ⟨u, s', rfl, hu, h⟩ := run_eq_some h
  obtain ⟨g, s', rfl, hg, h⟩ := run_eq_some h
  rw [run] at h
  obtain ⟨o, z, rfl, ho, h⟩ := run_eq_some h
  rw [htail, run_plus] at h
  split at h
  · cases h
  · next hz =>
    refine ⟨u, g, o, z, rfl, hu, hg, ho, hz, ?_⟩
    rw [← Option.some.inj h]
    simp only [Nat.zero_add, Nat.add_assoc]

/-- Where the pattern avoids `q` but for the class of `p+` at its end, what follows a `q` does not matter to a match
that does not reach it. -/
theorem matchAt_within (hq : Avoids q r.opening) (htail : r.tail = plus p) (prev : Option α) (s y y' : List α) :
    SameWithin s.length ((q :: y).takeWhile p).length ((q :: y').takeWhile p).length
      (r.matchAt prev (s ++ q :: y)) (r.matchAt prev (s ++ q :: y')) := by
  obtain ⟨hlead, hgroup, hmid⟩ := hq
  -- what the beginning of a match leaves of `s` goes on with `w`
  have hcut : ∀ w, r.matchAt prev (s ++ q :: w) = run r.lead (fun i => run r.group (fun j => run r.mid (fun n prev z =>
      run r.tail (fun n _ _ => some (i, j, n)) n prev (z ++ q :: w)) j) i) 0 prev s := by
    intro w
    rw [matchAt, run_cut hlead]
    congr 1
    funext i prev z
    rw [run_cut hgroup]
    congr 1
    funext j prev z
    exact run_cut hmid w
  rw [hcut y, hcut y']
  refine run_rel trivial SameWithin.or fun u z hs _ => run_rel trivial SameWithin.or fun u' z' hz _ =>
    run_rel trivial SameWithin.or fun u'' z'' hz' _ => ?_
  have hlength : 0 + u.length + u'.length + u''.length + z''.length = s.length := by
    rw [hs, hz, hz']
    simp only [List.length_append]
    omega
  have hgroup : 0 + u.length + u'.length ≤ s.length := by omega
  generalize 0 + u.length + u'.length + u''.length = n at hlength ⊢
  rw [htail, run_plus, run_plus]
  by_cases hz'' : (z''.takeWhile p).length = z''.length
  · -- the value may go on
    have hall : z''.takeWhile p = z'' := (List.takeWhile_prefix p).eq_of_length hz''
    have hwhole : ∀ w, (z'' ++ w).takeWhile p = z'' ++ w.takeWhile p := by
      intro w
      rw [List.takeWhile_append, if_pos hz'']
    rw [hwhole, hwhole]
    cases hpq : p q with
    | false =>
      rw [List.takeWhile_cons_of_neg (by simp [hpq]), List.takeWhile_cons_of_neg (by simp [hpq]), List.append_nil]
      split
      · trivial
      · exact ⟨rfl, rfl, hgroup, .inl ⟨rfl, by dsimp only; omega⟩⟩
    | true =>
      rw [List.takeWhile_cons_of_pos hpq, List.takeWhile_cons_of_pos hpq, if_neg (by simp), if_neg (by simp)]
      refine ⟨rfl, rfl, hgroup, .inr ⟨⟨Nat.succ_pos _, Nat.succ_pos _⟩, ?_, ?_⟩⟩
      · simp only [List.length_append, List.length_cons]
        omega
      · simp only [List.length_append, List.length_cons]
        omega
  · have hwhole : ∀ w, (z'' ++ w).takeWhile p = z''.takeWhile p := by
      intro w
      rw [List.takeWhile_append, if_neg hz'']
    rw [hwhole, hwhole]
    have hle : (z''.takeWhile p).length ≤ z''.length := (List.takeWhile_prefix p).length_le
    split
    · trivial
    · exact ⟨rfl, rfl, hgroup, .inl ⟨rfl, by dsimp only; omega⟩⟩

/-- What a match covers to its end may change, as far as the matches before see it only there. -/
theorem subFrom_congr {z : List α} {skip : Nat}
    (hmatch : ∀ prev c v, SameWithin (c :: v).length y.length y'.length (r.matchAt prev (c :: v ++ (y ++ z)))
      (r.matchAt prev (c :: v ++ (y' ++ z))))
    (hdirect : r.subFrom 0 (after prev x) (y ++ z) = r.subFrom 0 (after prev x) (y' ++ z))
    (hafter : ∀ prev, r.subFrom 0 (after prev y) z = r.subFrom 0 (after prev y') z) (hskip : skip ≤ x.length) :
    r.subFrom skip prev (x ++ (y ++ z)) = r.subFrom skip prev (x ++ (y' ++ z)) := by
  induction x generalizing skip prev with
  | nil =>
    obtain rfl : skip = 0 := Nat.le_zero.1 hskip
    exact hdirect
  | cons c x ih =>
    cases skip with
    | succ skip => exact ih hdirect (Nat.le_of_succ_le_succ hskip)
    | zero =>
      have hsame := hmatch prev c x
      rw [List.cons_append, List.cons_append] at hsame ⊢
      cases hm : r.matchAt prev (c :: (x ++ (y ++ z))) with
      | none =>
        cases hm' : r.matchAt prev (c :: (x ++ (y' ++ z))) with
        | none => rw [subFrom_none hm, subFrom_none hm', ih hdirect (Nat.zero_le _)]
        | some m' =>
          rw [hm, hm'] at hsame
          exact hsame.elim
      | some m =>
        cases hm' : r.matchAt prev (c :: (x ++ (y' ++ z))) with
        | none =>
          rw [hm, hm'] at hsame
          exact hsame.elim
        | some m' =>
          rw [hm, hm'] at hsame
          obtain ⟨hi, hj, hgroup, hend⟩ := hsame
          have hreplaced : r.replaced (c :: (x ++ (y ++ z))) m = r.replaced (c :: (x ++ (y' ++ z))) m' := by
            rw [replaced, replaced, ← hi, ← hj, ← List.cons_append, ← List.cons_append,
              List.take_append_of_le_length hgroup, List.take_append_of_le_length hgroup]
          rw [subFrom, hm, subFrom, hm']
          dsimp only
          rw [hreplaced]
          congr 1
          rcases hend with ⟨hn, hle⟩ | ⟨-, hn, hn'⟩
          · rw [← hn]
            refine ih hdirect ?_
            rw [List.length_cons] at hle
            omega
          · have hlength : m.2.2 - 1 = (x ++ y).length + 0 := by
              rw [hn, List.length_append, List.length_cons]
              omega
            have hlength' : m'.2.2 - 1 = (x ++ y').length + 0 := by
              rw [hn', List.length_append, List.length_cons]
              omega
            rw [hlength, hlength', ← List.append_assoc, ← List.append_assoc, subFrom_skip, subFrom_skip, after_append,
              after_append]
            exact hafter _

/-- Whether a match begins before a `q` does not depend on what follows it. -/
theorem BeginsIn.of_within (hq : Avoids q r.opening) (htail : r.tail = plus p) {y y' : List α}
    (h : r.BeginsIn prev x (q :: y)) : r.BeginsIn prev x (q :: y') := by
  obtain ⟨u, v, rfl, hv, hm⟩ := h
  refine ⟨u, v, rfl, hv, ?_⟩
  rwa [← (matchAt_within hq htail (after prev u) v y y').isSome_iff]

section Closing

variable {skip : Nat}

/-- A group has no `q` in it, and is the same whatever follows. -/
private theorem replaced_append (hq : Avoids q r.opening) (hleft : q ∉ r.left) (hright : q ∉ r.right)
    (hm : r.matchAt prev (s ++ [q]) = some m) :
    q ∉ r.replaced s m ∧ ∀ y, r.replaced (s ++ q :: y) m = r.replaced s m := by
  have hgroup : m.2.1 ≤ s.length := by
    obtain ⟨u, g, o, t, z, hs, hu, hg, -, -, rfl⟩ := matchAt_eq_some hm
    obtain ⟨z', rfl, hz⟩ := eq_append_of_not_mem hs.symm (hu.not_mem hq.1)
    obtain ⟨z'', rfl, -⟩ := eq_append_of_not_mem hz (hg.not_mem hq.2.1)
    simp only [List.length_append]
    omega
  have hsame : ∀ y, r.replaced (s ++ q :: y) m = r.replaced s m := by
    intro y
    rw [replaced, replaced, List.take_append_of_le_length hgroup]
  obtain ⟨u, g, t, z, -, hread, htext, -, -⟩ := matchAt_parts hm
  refine ⟨?_, hsame⟩
  rw [← hsame [], htext]
  intro hmem
  rcases List.mem_append.1 hmem with hmem | hmem
  · exact hleft hmem
  · exact (List.mem_append.1 hmem).elim (hread.not_mem hq.2.1) hright

variable (hq : Avoids q r.opening) (htail : r.tail = plus p) (hleft : q ∉ r.left) (hright : q ∉ r.right)

include hq htail

private theorem matchAt_none_of_none (hnone : r.matchAt prev (s ++ [q]) = none) (y : List α) :
    r.matchAt prev (s ++ q :: y) = none := by
  have hsame := matchAt_within hq htail prev s [] y
  rw [hnone] at hsame
  cases hm : r.matchAt prev (s ++ q :: y) with
  | none => rfl
  | some m =>
    rw [hm] at hsame
    exact hsame.elim

private theorem matchAt_some_of_le (hm : r.matchAt prev (s ++ [q]) = some m) (hle : m.2.2 ≤ s.length) (y : List α) :
    r.matchAt prev (s ++ q :: y) = some m := by
  have hsame := matchAt_within hq htail prev s [] y
  rw [hm] at hsame
  cases hm' : r.matchAt prev (s ++ q :: y) with
  | none =>
    rw [hm'] at hsame
    exact hsame.elim
  | some m' =>
    rw [hm'] at hsame
    obtain ⟨hi, hj, -, ⟨hn, -⟩ | ⟨hpos, hlt, -⟩⟩ := hsame
    · rw [Prod.ext hi (Prod.ext hj hn)]
    · omega

private theorem matchAt_some_of_lt (hm : r.matchAt prev (s ++ [q]) = some m) (hlt : s.length < m.2.2) (y : List α) :
    ∃ m', r.matchAt prev (s ++ q :: y) = some m' ∧ s.length < m'.2.2 ∧ m'.1 = m.1 ∧ m'.2.1 = m.2.1 := by
  have hsame := matchAt_within hq htail prev s [] y
  rw [hm] at hsame
  cases hm' : r.matchAt prev (s ++ q :: y) with
  | none =>
    rw [hm'] at hsame
    exact hsame.elim
  | some m' =>
    rw [hm'] at hsame
    obtain ⟨hi, hj, -, ⟨-, hle⟩ | ⟨hpos, -, hlt'⟩⟩ := hsame
    · omega
    · exact ⟨m', rfl, by omega, hi.symm, hj.symm⟩

variable [DecidableEq α]

omit hq htail in
private theorem le_of_closes (h : r.closes q skip prev s = true) : skip ≤ s.length := by
  induction s generalizing skip prev with
  | nil =>
    cases skip with
    | zero => exact Nat.le_refl 0
    | succ skip => cases h
  | cons c s ih =>
    cases skip with
    | zero => exact Nat.zero_le _
    | succ skip => exact Nat.succ_le_succ (ih h)

include hleft hright

/-- Where the matches cover every `q`, the next one that is left is the one that follows. -/
theorem subFrom_of_closes (h : r.closes q skip prev s = true) :
    ∃ w, q ∉ w ∧ ∀ y, r.subFrom skip prev (s ++ q :: y) = w ++ r.subFrom 0 (after prev s) (q :: y) := by
  induction s generalizing skip prev with
  | nil =>
    obtain rfl : skip = 0 := Nat.le_zero.1 (le_of_closes h)
    exact ⟨[], List.not_mem_nil, fun _ => rfl⟩
  | cons c s ih =>
    cases skip with
    | succ skip =>
      obtain ⟨w, hw, hsub⟩ := ih h
      exact ⟨w, hw, hsub⟩
    | zero =>
      rw [closes] at h
      split at h
      · next m hm =>
        have hle : m.2.2 ≤ (c :: s).length := by
          have hskip := le_of_closes h
          rw [List.length_cons]
          omega
        obtain ⟨hfree, hsame⟩ := replaced_append hq hleft hright hm
        obtain ⟨w, hw, hsub⟩ := ih h
        refine ⟨r.replaced (c :: s) m ++ w, fun hmem => (List.mem_append.1 hmem).elim hfree hw, fun y => ?_⟩
        have hy := matchAt_some_of_le hq htail hm hle y
        rw [List.cons_append] at hy
        rw [List.cons_append, subFrom, hy]
        dsimp only
        rw [hsub, ← List.cons_append, hsame, after_cons, List.append_assoc]
      · next hm =>
        rw [Bool.and_eq_true, decide_eq_true_eq] at h
        obtain ⟨w, hw, hsub⟩ := ih h.2
        refine ⟨c :: w, fun hmem => (List.mem_cons.1 hmem).elim (fun heq => h.1 heq.symm) hw, fun y => ?_⟩
        have hy := matchAt_none_of_none hq htail hm y
        rw [List.cons_append] at hy
        rw [List.cons_append, subFrom_none hy, hsub, after_cons, List.cons_append]

/-- Otherwise a `q` of the text is left, or the one that follows is in a match. -/
theorem subFrom_of_not_closes (hskip : skip ≤ s.length) (h : r.closes q skip prev s = false) :
    (∃ w b, q ∉ w ∧ ∀ y, r.subFrom skip prev (s ++ q :: y) = w ++ q :: r.subFrom 0 (some q) (b ++ q :: y)) ∨
      ∃ w, q ∉ w ∧ ∀ y, ∃ k, r.subFrom skip prev (s ++ q :: y) = w ++ r.subFrom k (some q) y := by
  induction s generalizing skip prev with
  | nil =>
    obtain rfl : skip = 0 := Nat.le_zero.1 hskip
    cases h
  | cons c s ih =>
    cases skip with
    | succ skip => exact ih (Nat.le_of_succ_le_succ hskip) h
    | zero =>
      rw [closes] at h
      split at h
      · next m hm =>
        obtain ⟨hfree, hsame⟩ := replaced_append hq hleft hright hm
        by_cases hle : m.2.2 ≤ (c :: s).length
        · have hskip' : m.2.2 - 1 ≤ s.length := by
            rw [List.length_cons] at hle
            omega
          have hsub : ∀ y, r.subFrom 0 prev (c :: s ++ q :: y) =
              r.replaced (c :: s) m ++ r.subFrom (m.2.2 - 1) (some c) (s ++ q :: y) := by
            intro y
            have hy := matchAt_some_of_le hq htail hm hle y
            rw [List.cons_append] at hy
            rw [List.cons_append, subFrom, hy]
            dsimp only
            rw [← List.cons_append, hsame]
          rcases ih hskip' h with ⟨w, b, hw, hrest⟩ | ⟨w, hw, hrest⟩
          · refine .inl ⟨r.replaced (c :: s) m ++ w, b, fun hmem => (List.mem_append.1 hmem).elim hfree hw, fun y => ?_⟩
            rw [hsub, hrest, List.append_assoc]
          · refine .inr ⟨r.replaced (c :: s) m ++ w, fun hmem => (List.mem_append.1 hmem).elim hfree hw, fun y => ?_⟩
            obtain ⟨k, hk⟩ := hrest y
            exact ⟨k, by rw [hsub, hk, List.append_assoc]⟩
        · -- the match goes on behind the text
          refine .inr ⟨r.replaced (c :: s) m, hfree, fun y => ?_⟩
          obtain ⟨m', hy, hlt, hi, hj⟩ := matchAt_some_of_lt hq htail hm (Nat.lt_of_not_le hle) y
          have htext : r.replaced (c :: s ++ q :: y) m' = r.replaced (c :: s) m := by
            rw [← hsame y, replaced, replaced, hi, hj]
          obtain ⟨k, hk⟩ := Nat.exists_eq_add_of_lt hlt
          refine ⟨k, ?_⟩
          have hskip' : m'.2.2 - 1 = (s ++ [q]).length + k := by
            rw [List.length_cons] at hk
            rw [List.length_append, List.length_singleton]
            omega
          have hafter : after (some c) (s ++ [q]) = some q := by
            rw [after_append]
            rfl
          rw [List.cons_append] at hy htext
          rw [List.cons_append, subFrom, hy]
          dsimp only
          rw [htext, hskip', show s ++ q :: y = s ++ [q] ++ y by simp, subFrom_skip, hafter]
      · next hm =>
        by_cases hc : c = q
        · subst hc
          refine .inl ⟨[], s, List.not_mem_nil, fun y => ?_⟩
          have hy := matchAt_none_of_none hq htail hm y
          rw [List.cons_append] at hy
          rw [List.cons_append, subFrom_none hy, List.nil_append]
        · have hrest : r.closes q 0 (some c) s = false := by
            rw [decide_eq_true (show c ≠ q from hc), Bool.true_and] at h
            exact h
          have hsub : ∀ y, r.subFrom 0 prev (c :: s ++ q :: y) = c :: r.subFrom 0 (some c) (s ++ q :: y) := by
            intro y
            have hy := matchAt_none_of_none hq htail hm y
            rw [List.cons_append] at hy
            rw [List.cons_append, subFrom_none hy]
          rcases ih (Nat.zero_le _) hrest with ⟨w, b, hw, htext⟩ | ⟨w, hw, htext⟩
          · refine .inl ⟨c :: w, b, fun hmem => (List.mem_cons.1 hmem).elim (fun heq => hc heq.symm) hw, fun y => ?_⟩
            rw [hsub, htext, List.cons_append]
          · refine .inr ⟨c :: w, fun hmem => (List.mem_cons.1 hmem).elim (fun heq => hc heq.symm) hw, fun y => ?_⟩
            obtain ⟨k, hk⟩ := htext y
            exact ⟨k, by rw [hsub, hk, List.cons_append]⟩

end Closing

/-- No `q` comes or goes where neither the pattern nor the text around the group has one. -/
theorem mem_subFrom_iff {p : α → Prop} (hq : Avoids q r.pattern) (hneeds : Needs p r.pattern) (hleft : q ∉ r.left)
    (hright : q ∉ r.right) {skip : Nat} : q ∈ r.subFrom skip prev s ↔ q ∈ s.drop skip := by
  induction s generalizing skip prev with
  | nil => cases skip <;> rfl
  | cons c s ih =>
    cases skip with
    | succ skip => exact ih
    | zero =>
      cases hm : r.matchAt prev (c :: s) with
      | none => rw [subFrom_none hm, List.mem_cons, ih, List.drop_zero, List.drop_zero, List.mem_cons]
      | some m =>
        obtain ⟨u, g, t, z', -, hgroup, htext, -, -⟩ := matchAt_parts hm
        have hreplaced : q ∉ r.replaced (c :: s) m := by
          rw [htext]
          intro hmem
          rcases List.mem_append.1 hmem with hmem | hmem
          · exact hleft hmem
          · exact (List.mem_append.1 hmem).elim (hgroup.not_mem hq.2.1) hright
        obtain ⟨x, z, hs, hx, hlength⟩ := matchAt_whole hm
        obtain ⟨d, x, rfl⟩ := List.exists_cons_of_ne_nil (hx.ne_nil hneeds)
        obtain ⟨rfl, rfl⟩ : c = d ∧ s = x ++ z := List.cons.inj hs
        rw [subFrom, hm]
        dsimp only
        rw [List.mem_append, or_iff_right hreplaced, ih, hlength, List.length_cons, Nat.add_sub_cancel, List.drop_left,
          List.drop_zero, ← List.cons_append, List.mem_append, or_iff_right (hx.not_mem hq)]

section Covered

variable [DecidableEq α] {skip : Nat}

/-- Where the pattern avoids `q`, the text must have none. -/
theorem closes_iff_not_mem {p : α → Prop} (hq : Avoids q r.pattern) (hneeds : Needs p r.pattern) :
    r.closes q skip prev s = true ↔ skip ≤ s.length ∧ q ∉ s.drop skip := by
  induction s generalizing skip prev with
  | nil =>
    cases skip with
    | zero => exact iff_of_true rfl ⟨Nat.le_refl 0, List.not_mem_nil⟩
    | succ skip => exact iff_of_false Bool.false_ne_true fun h => absurd h.1 (Nat.not_succ_le_zero skip)
  | cons c s ih =>
    cases skip with
    | succ skip =>
      rw [List.length_cons, Nat.succ_le_succ_iff]
      exact ih
    | zero =>
      rw [closes]
      split
      · next m hm =>
        obtain ⟨x, z, hs, hx, hlength⟩ := matchAt_whole hm
        have hread := hx.not_mem hq
        obtain ⟨z', hs', -⟩ := eq_append_of_not_mem hs.symm hread
        obtain ⟨d, x, rfl⟩ := List.exists_cons_of_ne_nil (hx.ne_nil hneeds)
        obtain ⟨rfl, rfl⟩ : c = d ∧ s = x ++ z' := List.cons.inj hs'
        rw [ih, hlength, List.length_cons, Nat.add_sub_cancel, List.drop_left, List.drop_zero, List.length_append,
          ← List.cons_append, List.mem_append, or_iff_right hread]
        exact and_congr_left' (iff_of_true (Nat.le_add_right _ _) (Nat.zero_le _))
      · rw [Bool.and_eq_true, decide_eq_true_eq, ih, List.drop_zero, List.drop_zero, List.mem_cons, not_or]
        exact ⟨fun h => ⟨Nat.zero_le _, fun heq => h.1 heq.symm, h.2.2⟩,
          fun h => ⟨fun heq => h.2.1 heq.symm, Nat.zero_le _, h.2.2⟩⟩

end Covered

end Rule

end Substitution
