import CliServer.Server.QueryMasks

/-!
# What is left of a query string

Where no pattern begins in the field, the redacted line has it as it is.  What is left of two texts of one shape, all
their letters and digits `0` in one and `1` in the other, is then not the same.
-/

namespace CliServer

open Json (CodePoint Text ofChar ofChars val_ofChar)
open Substitution QueryStrings

namespace Redaction

/-- The text of a shape with one letter or digit only. -/
def fill (d : CodePoint) (σ : Text) : Text := σ.map fun c => if isAlnum c.val then d else c

/-- The text has no letter of a pattern. -/
def Unlettered (s : Text) : Prop := ∀ c ∈ s, ∀ a : Char, 0x61 ≤ a.toNat ∧ a.toNat ≤ 0x7A → letter a c = false

/-- What the names of query values end in, and `cmd`. -/
def valueNames : List (List Char) :=
  [['t', 'o', 'k', 'e', 'n'], ['t', 'i', 'c', 'k', 'e', 't'], ['p', 'a', 's', 's', 'w', 'o', 'r', 'd'],
    ['s', 'e', 'c', 'r', 'e', 't'], ['c', 'm', 'd']]

/-- A field up to its value. -/
def field (name h : Text) : Text := ofChar '?' :: (name ++ ofChar '=' :: h)

section Fill

variable {d d' : CodePoint} {σ u v : Text}

private theorem fill_append (d : CodePoint) (u v : Text) : fill d (u ++ v) = fill d u ++ fill d v := List.map_append

theorem shape_fill (hd : isAlnum d.val = true) (σ : Text) : shape (fill d σ) = shape σ := by
  rw [shape, fill, List.map_map]
  refine List.map_congr_left fun c _ => ?_
  cases hc : isAlnum c.val with
  | false => simp [hc]
  | true => simp [hc, hd]

private theorem length_fill (d : CodePoint) (σ : Text) : (fill d σ).length = σ.length := List.length_map _

private theorem fixed_of_fill (hne : d ≠ d') (h : fill d σ = fill d' σ) : Fixed σ := by
  intro c hc
  have heq := List.map_inj_left.1 h c hc
  by_contra halnum
  rw [Bool.not_eq_false] at halnum
  exact hne (by simpa [halnum] using heq)

theorem mem_fill {c : CodePoint} (h : c ∈ fill d σ) : c = d ∨ c ∈ σ ∧ isAlnum c.val = false := by
  obtain ⟨e, he, rfl⟩ := List.mem_map.1 h
  split
  · exact .inl rfl
  · next halnum => exact .inr ⟨he, Bool.eq_false_iff.2 halnum⟩

private theorem unlettered_of_lt {c : CodePoint} (h : c.val < 0x41) : ∀ a :
    Char, 0x61 ≤ a.toNat ∧ a.toNat ≤ 0x7A → letter a c = false := by
  intro a ha
  by_contra hletter
  have hcases := letter_cases ha (Bool.eq_true_of_not_eq_false hletter) (by omega)
  omega

theorem unlettered_fill (hd : d.val < 0x41) (hσ : Visible σ) : Unlettered (fill d σ) := by
  intro c hc
  rcases mem_fill hc with rfl | ⟨hmem, halnum⟩
  · exact unlettered_of_lt hd
  · intro a ha
    have hurl := hσ c hmem
    rw [urlChar, Bool.and_eq_true, decide_eq_true_eq, decide_eq_true_eq] at hurl
    by_contra hletter
    rw [isAlnum_of_letter ha (Bool.eq_true_of_not_eq_false hletter) (by omega)] at halnum
    cases halnum

private theorem visible_fill (hd : isAlnum d.val = true) (hσ : Visible σ) : Visible (fill d σ) := by
  intro c hc
  rcases mem_fill hc with rfl | ⟨hmem, -⟩
  · simp only [isAlnum, Bool.or_eq_true, Bool.and_eq_true, decide_eq_true_eq] at hd
    rw [urlChar, Bool.and_eq_true, decide_eq_true_eq, decide_eq_true_eq]
    omega
  · exact hσ c hmem

/-- Where `p` has all letters and digits, what `p+` leaves begins with the same character in every text of the shape. -/
private theorem head_fill_dropWhile {p : CodePoint → Bool} (hp : ∀ c : CodePoint, isAlnum c.val = true → p c = true)
    {c : CodePoint} (hc : c ∈ (fill d (σ.dropWhile p)).head?) : p c = false ∧ c ∈ σ := by
  cases hrest : σ.dropWhile p with
  | nil =>
    rw [hrest] at hc
    cases hc
  | cons e rest =>
    have hhead := List.head_dropWhile_not p (hrest ▸ List.cons_ne_nil e rest)
    have he : p e = false := by simpa [hrest] using hhead
    have halnum : isAlnum e.val = false := by
      by_contra halnum
      rw [hp e (Bool.eq_true_of_not_eq_false halnum)] at he
      cases he
    rw [hrest] at hc
    obtain rfl : e = c := by simpa [fill, halnum] using hc
    exact ⟨he, (List.dropWhile_suffix p).subset (hrest ▸ List.mem_cons_self)⟩

theorem Unlettered.append (hu : Unlettered u) (hv : Unlettered v) : Unlettered (u ++ v) :=
  fun c hc => (List.mem_append.1 hc).elim (hu c) (hv c)

end Fill

/-! ### Where a match can begin -/

section Clear

variable {other : CodePoint → Bool} {prev : Option CodePoint} {name h f w x y z : Text}

/-- The name in a match of the pattern of query values. -/
private theorem group_name (hgroup : Consumes (queryValue other).group prev y z) :
    ∃ p k s, y = p ++ k ∧ s ∈ valueNames ∧ Consumes (lit s) none k [] := by
  rcases hgroup with ⟨p, k, rfl, -, hname⟩ | hcmd
  · rcases hname with hlit | hlit | hlit | hlit
    · exact ⟨p, k, _, rfl, List.mem_cons_self, hlit.of_free (free_lit _)⟩
    · exact ⟨p, k, _, rfl, List.mem_cons_of_mem _ List.mem_cons_self, hlit.of_free (free_lit _)⟩
    · exact ⟨p, k, _, rfl, List.mem_cons_of_mem _ (List.mem_cons_of_mem _ List.mem_cons_self),
        hlit.of_free (free_lit _)⟩
    · exact ⟨p, k, _, rfl, by simp [valueNames], hlit.of_free (free_lit _)⟩
  · exact ⟨[], y, _, rfl, by simp [valueNames], hcmd.of_free (free_lit _)⟩

/-- It ends in a letter. -/
private theorem group_last (hgroup : Consumes (queryValue other).group prev y z) :
    ∃ y' ℓ, y = y' ++ [ℓ] ∧ ∃ a : Char, (0x61 ≤ a.toNat ∧ a.toNat ≤ 0x7A) ∧ letter a ℓ = true := by
  obtain ⟨p, k, s, rfl, hs, hk⟩ := group_name hgroup
  have hall : (valueNames.all fun s => ['n', 't', 'd'].any fun a => s = s.dropLast ++ [a]) = true := rfl
  obtain ⟨a, ha, hs'⟩ := List.any_eq_true.1 (List.all_eq_true.1 hall s hs)
  rw [of_decide_eq_true hs'] at hk
  obtain ⟨k', ℓ, rfl, hℓ⟩ := lit_last hk
  have hletters : (['n', 't', 'd'].all fun a => 0x61 ≤ a.toNat && a.toNat ≤ 0x7A) = true := rfl
  have hletter := List.all_eq_true.1 hletters a ha
  rw [Bool.and_eq_true, decide_eq_true_eq, decide_eq_true_eq] at hletter
  exact ⟨p ++ k', ℓ, (List.append_assoc p k' [ℓ]).symm, a, hletter, hℓ⟩

private theorem group_avoids {c : CodePoint} (hc : stops c = true) : Avoids c (queryValue other).group := by
  have hlit : ∀ s : List Char, (s.all fun a => 0x61 ≤ a.toNat && a.toNat ≤ 0x7A) = true → Avoids c (lit s) := by
    intro s hs
    refine avoids_lit (fun a ha => ?_) (List.Subset.refl s)
    have hletter := List.all_eq_true.1 hs a ha
    rw [Bool.and_eq_true, decide_eq_true_eq, decide_eq_true_eq] at hletter
    by_contra hletter'
    rw [stops_eq_false_of_letter hletter (Bool.eq_true_of_not_eq_false hletter')] at hc
    cases hc
  have hword : wordChar other c = false := by
    by_contra hword
    rw [stops_eq_false_of_wordChar (Bool.eq_true_of_not_eq_false hword)] at hc
    cases hc
  exact ⟨⟨hword, hlit _ rfl, hlit _ rfl, hlit _ rfl, hlit _ rfl⟩, hlit _ rfl⟩

/-- In a field whose value has no letters, a query value is masked only under a name that ends in one of the
`valueNames`. -/
private theorem value_begins (hname : ofChar '=' ∉ name) (hh : ofChar '=' ∉ h)
    (hlast : ∀ c ∈ h.getLast?, Unlettered [c])
    (hf : Unlettered f) (hw : Ended w) (hbegins : (queryValue other).BeginsIn prev (field name (h ++ f)) w) :
    (∃ p k s, name = p ++ k ∧ s ∈ valueNames ∧ Consumes (lit s) none k []) ∧
      (h ++ (f ++ w)).takeWhile queryChar ≠ [] := by
  obtain ⟨hmark, -⟩ := separator (.inl rfl)
  have hvalue := queryValue_queryRule other
  obtain ⟨_, hneeds, -⟩ := hvalue.needs
  obtain ⟨u, v, hx, hv, hm⟩ := hbegins.of_cons (hvalue.avoids hmark) hneeds
  obtain ⟨m, hm⟩ := Option.isSome_iff_exists.1 hm
  obtain ⟨_, g, _, z, hs, hlead, hgroup, hmid, htail, -⟩ := Rule.matchAt_eq_some_of_plus rfl hm
  obtain rfl := hlead.1
  obtain rfl := eq_of_lit (by decide) hmid
  rw [List.nil_append, List.singleton_append] at hs
  have hequals : ofChar '=' ∉ g := hgroup.not_mem queryValue_avoids_equals
  by_cases hu : ofChar '=' ∈ u
  · -- the name of the match would be in the value, before a `=`, and end in a letter
    exfalso
    obtain ⟨u₁, u₂, rfl, hu₁⟩ := List.eq_append_cons_of_mem hu
    rw [List.append_assoc, List.cons_append] at hx
    obtain ⟨-, hx⟩ := append_cons_inj hx hname hu₁
    obtain ⟨g', ℓ, rfl, a, ha, hℓ⟩ := group_last hgroup
    obtain ⟨v', rfl, hrest⟩ : ∃ v', v = (g' ++ [ℓ]) ++ v' ∧ v' ++ w = ofChar '=' :: z := by
      rcases List.append_eq_append_iff.1 hs with ⟨c, hc, hrest⟩ | ⟨v', hv', hrest⟩
      · -- past the end of the value
        cases c with
        | nil => exact ⟨[], by rw [hc, List.append_nil, List.append_nil], hrest⟩
        | cons c c' =>
          have hmem : c ∈ g' ++ [ℓ] := hc ▸ List.mem_append_right v List.mem_cons_self
          exact absurd hmem (hgroup.not_mem (group_avoids (hw c (by rw [hrest]; rfl))))
      · exact ⟨v', hv', hrest.symm⟩
    have hsplit : h ++ f = (u₂ ++ (g' ++ [ℓ])) ++ v' := hx.trans (List.append_assoc u₂ (g' ++ [ℓ]) v').symm
    rcases List.append_eq_append_iff.1 hsplit with ⟨c, hc, hf'⟩ | ⟨c, hc, hv'⟩
    · rcases List.eq_nil_or_concat c with rfl | ⟨c, d, rfl⟩
      · have hlast' := hlast ℓ (by rw [← List.append_nil h, ← hc]; simp)
        rw [hlast' ℓ List.mem_cons_self a ha] at hℓ
        cases hℓ
      · have hd : ℓ = d := by
          have hgetLast := congrArg List.getLast? hc
          simpa [List.concat_eq_append] using hgetLast
        have hmem : ℓ ∈ f := by rw [hf', hd]; simp
        rw [hf ℓ hmem a ha] at hℓ
        cases hℓ
    · cases c with
      | nil =>
        have hlast' := hlast ℓ (by rw [hc]; simp)
        rw [hlast' ℓ List.mem_cons_self a ha] at hℓ
        cases hℓ
      | cons c c' =>
        rw [hv', List.append_assoc, List.cons_append] at hrest
        exact hh (by rw [hc, (List.cons.inj hrest).1]; simp)
  · -- the name of the match ends the name of the field
    obtain ⟨v, rfl, rfl⟩ := eq_append_of_not_mem hx.symm hu
    rw [List.append_assoc, List.cons_append] at hs
    obtain ⟨rfl, rfl⟩ := append_cons_inj hs (fun hmem => hname (List.mem_append_right u hmem)) hequals
    obtain ⟨p, k, s, rfl, hs, hk⟩ := group_name hgroup
    exact ⟨⟨u ++ p, k, s, (List.append_assoc u p k).symm, hs, hk⟩, by rwa [← List.append_assoc]⟩

/-- No JSON value begins where no letter follows a quote. -/
private theorem json_clear (hx : quote ∉ x) (hf : Unlettered f) (hw : Ended w) :
    ¬jsonValue.BeginsIn prev (x ++ f) w := by
  rintro ⟨u, v, hsplit, hv, hm⟩
  obtain ⟨m, hm⟩ := Option.isSome_iff_exists.1 hm
  obtain ⟨_, z, ho, -, _, _, rfl, hquote, g, o, rfl, hgroup, -⟩ := Rule.opening_of_matchAt hm
  obtain rfl := eq_of_lit (by decide) hquote
  have hlit : ∀ (a : Char) (s : List Char), 0x61 ≤ a.toNat ∧ a.toNat ≤ 0x7A →
      Starts (fun c => ∃ a : Char, (0x61 ≤ a.toNat ∧ a.toNat ≤ 0x7A) ∧ letter a c = true) (lit (a :: s)) :=
    fun a s ha => starts_lit fun c hc => ⟨a, ha, hc⟩
  have hstarts : Starts (fun c => ∃ a : Char, (0x61 ≤ a.toNat ∧ a.toNat ≤ 0x7A) ∧ letter a c = true) jsonValue.group :=
    ⟨hlit _ _ (by decide), hlit _ _ (by decide), hlit _ _ (by decide), hlit _ _ (by decide), hlit _ _ (by decide)⟩
  have hneeds : Needs (fun _ => True) jsonValue.group :=
    ⟨needs_lit fun _ _ => trivial, needs_lit fun _ _ => trivial, needs_lit fun _ _ => trivial,
     needs_lit fun _ _ => trivial,
      needs_lit fun _ _ => trivial⟩
  obtain ⟨c, g, rfl⟩ := List.exists_cons_of_ne_nil (hgroup.ne_nil hneeds)
  obtain ⟨a, ha, hc⟩ := hgroup.start hstarts
  obtain ⟨d, v, rfl⟩ := List.exists_cons_of_ne_nil hv
  obtain ⟨rfl, hv'⟩ : d = ofChar '"' ∧ v ++ w = c :: (g ++ o ++ z) := by simpa using ho
  obtain ⟨f', rfl, rfl⟩ := eq_append_of_not_mem hsplit hx
  cases v with
  | nil =>
    have hstop := hw c (by rw [List.nil_append] at hv'; rw [hv']; rfl)
    rw [stops_eq_false_of_letter ha hc] at hstop
    cases hstop
  | cons e v =>
    obtain rfl : e = c := (List.cons.inj hv').1
    rw [hf e (by simp) a ha] at hc
    cases hc

end Clear

/-! ### The two names -/

section Names

variable {name p k : Text} {s : List Char} {n : Str}

theorem ascii_of_visible {x : Text} (hx : Visible x) : ∀ c ∈ x, c.val < 0x80 := by
  intro c hc
  have hurl := hx c hc
  rw [urlChar, Bool.and_eq_true, decide_eq_true_eq, decide_eq_true_eq] at hurl
  omega

/-- A letter behind `f` that the name does not have is in no spelling of it. -/
private theorem letter_clear (hname : unquotePlus name = n) (hvisible : Visible name) {a : Char}
    (ha : 0x67 ≤ a.toNat ∧ a.toNat ≤ 0x7A)
    (hn : (n.any fun d => d.toNat = a.toNat || d.toNat + 0x20 = a.toNat) = false) : ∀ c ∈ name, letter a c = false := by
  intro c hc
  by_contra hletter
  obtain ⟨hplain, -, hcases⟩ :=
    plain_of_letter ha (Bool.eq_true_of_not_eq_false hletter) (ascii_of_visible hvisible c hc)
  have hmem := mem_unquotePlus hplain hc
  rw [hname] at hmem
  exact List.any_eq_false.1 hn _ hmem (by simpa using hcases)

private theorem mem_lit {a : Char} (ha : a ∈ s) (h : Consumes (lit s) none k []) : ∃ c ∈ k, letter a c = true := by
  have hneeds : Needs (letter a · = true) (lit s) := by
    clear h
    induction s with
    | nil => cases ha
    | cons b s ih =>
      rcases List.mem_cons.1 ha with rfl | ha
      · exact needs_lit fun _ h => h
      · exact .inr (ih ha)
  exact h.exists_mem hneeds

/-- No spelling of the name of the header ends in one of the `valueNames`. -/
private theorem header_no_name (hname : unquotePlus name = headerName) (hvisible : Visible name) :
    ¬∃ p k s, name = p ++ k ∧ s ∈ valueNames ∧ Consumes (lit s) none k [] := by
  rintro ⟨p, k, s, rfl, hs, hk⟩
  have hall : (valueNames.all fun s => ['k', 's', 'm'].any (· ∈ s)) = true := rfl
  obtain ⟨a, ha, hmem⟩ := List.any_eq_true.1 (List.all_eq_true.1 hall s hs)
  obtain ⟨c, hc, hletter⟩ := mem_lit (of_decide_eq_true hmem) hk
  have hlack : ∀ a ∈ ['k', 's', 'm'], ∀ c ∈ p ++ k, letter a c = false := by
    simp only [List.mem_cons, List.not_mem_nil, or_false, forall_eq_or_imp, forall_eq]
    exact ⟨letter_clear hname hvisible (by decide) rfl, letter_clear hname hvisible (by decide) rfl,
      letter_clear hname hvisible (by decide) rfl⟩
  rw [hlack a ha c (List.mem_append_right p hc)] at hletter
  cases hletter

private theorem plainChar_of_alnum {c : CodePoint} (h : isAlnum c.val = true) :
    plusByte c ≠ PercentEncoding.percent ∧ (plusByte c).toNat < 0x80 ∧ ofChar (plainChar c) = c := by
  have hrange : 0x30 ≤ c.val ∧ c.val ≤ 0x39 ∨ 0x41 ≤ c.val ∧ c.val ≤ 0x5A ∨ 0x61 ≤ c.val ∧ c.val ≤ 0x7A := by
    simp only [isAlnum, Bool.or_eq_true, Bool.and_eq_true, decide_eq_true_eq] at h
    omega
  have hplus : plusByte c = UInt8.ofNat c.val := by
    rw [plusByte, if_neg]
    rintro rfl
    exact absurd h (by decide)
  have htoNat : (UInt8.ofNat c.val).toNat = c.val := by
    rw [UInt8.toNat_ofNat']
    omega
  refine ⟨fun hpercent => ?_, by rw [hplus, htoNat]; omega, ?_⟩
  · rw [hplus] at hpercent
    have hval := congrArg UInt8.toNat hpercent
    rw [htoNat] at hval
    rw [hval] at hrange
    exact absurd hrange (by decide)
  · refine Fin.ext ?_
    rw [val_ofChar, plainChar, hplus, htoNat, toNat_ofNat_val (show c.val < 0xD800 by omega)]

/-- Letters and digits behind no `%` are read as they are. -/
private theorem unquotePlus_alnum (hk : ∀ c ∈ k, isAlnum c.val = true) : unquotePlus k = k.map plainChar := by
  induction k with
  | nil => rfl
  | cons c k ih =>
    obtain ⟨hc, hk⟩ := List.forall_mem_cons.1 hk
    obtain ⟨hpercent, hascii, -⟩ := plainChar_of_alnum hc
    rw [unquotePlus_cons hpercent hascii, ih hk, List.map_cons]

/-- Of the `valueNames`, a spelling of `ticket` can only end in its own, spelled out. -/
private theorem ticket_of_name (hname : unquotePlus name = ticketName) (hvisible : Visible name)
    (hends : ∃ p k s, name = p ++ k ∧ s ∈ valueNames ∧ Consumes (lit s) none k []) : name = ofChars ticketName := by
  obtain ⟨p, k, s, rfl, hs, hk⟩ := hends
  have hall : (valueNames.all fun s => s = ticketName || ['o', 's', 'm'].any (· ∈ s)) = true := rfl
  have hs' := List.all_eq_true.1 hall s hs
  rw [Bool.or_eq_true, decide_eq_true_eq, List.any_eq_true] at hs'
  rcases hs' with rfl | ⟨a, ha, hmem⟩
  · have halnum : ∀ c ∈ k, isAlnum c.val = true := by
      have hletters : (ticketName.all fun a => 0x61 ≤ a.toNat && a.toNat ≤ 0x7A) = true := rfl
      intro c hc
      obtain ⟨a, ha, hletter⟩ := exists_letter hk c hc
      have hrange := List.all_eq_true.1 hletters a ha
      rw [Bool.and_eq_true, decide_eq_true_eq, decide_eq_true_eq] at hrange
      exact isAlnum_of_letter hrange hletter (ascii_of_visible hvisible c (List.mem_append_right p hc))
    have hsix : k.length = 6 := length_of_lit hk
    obtain ⟨c, k, rfl⟩ : ∃ c k', k = c :: k' := List.exists_cons_of_ne_nil (List.ne_nil_of_length_pos (by omega))
    have hc : letter 't' c = true := by
      obtain ⟨_, _, hsplit, ⟨d, hd, rfl⟩, -⟩ := hk
      rw [(List.cons.inj hsplit).1]
      exact hd
    have hplain := (plain_of_letter (by decide) hc (ascii_of_visible hvisible c (by simp))).1
    have hread : unquotePlus (p ++ c :: k) = unquotePlus p ++ (c :: k).map plainChar := by
      rw [unquotePlus_append hplain, unquotePlus_alnum fun d hd => halnum d (List.mem_cons_of_mem c hd), List.map_cons]
    rw [hname] at hread
    have hlength := congrArg List.length hread
    rw [List.length_append, List.length_map, hsix] at hlength
    have hp : unquotePlus p = [] := List.length_eq_zero_iff.1 (by simpa [ticketName] using hlength)
    rw [hp, List.nil_append] at hread
    obtain rfl := unquotePlus_eq_nil_iff.1 hp
    have hback : (c :: k).map (fun d => ofChar (plainChar d)) = c :: k :=
      (List.map_congr_left fun d hd => (plainChar_of_alnum (halnum d hd)).2.2).trans (List.map_id _)
    rw [List.nil_append, ← hback, hread, ofChars, List.map_map]
    rfl
  · obtain ⟨c, hc, hletter⟩ := mem_lit (of_decide_eq_true hmem) hk
    have hlack : ∀ a ∈ ['o', 's', 'm'], ∀ c ∈ p ++ k, letter a c = false := by
      simp only [List.mem_cons, List.not_mem_nil, or_false, forall_eq_or_imp, forall_eq]
      exact ⟨letter_clear hname hvisible (by decide) rfl, letter_clear hname hvisible (by decide) rfl,
        letter_clear hname hvisible (by decide) rfl⟩
    rw [hlack a ha c (List.mem_append_right p hc)] at hletter
    cases hletter

end Names

/-! ### Tickets -/

section Tickets

variable {other : CodePoint → Bool} {prev : Option CodePoint} {name f w σ x y z : Text} {d : CodePoint}

theorem digits (hd : d = ofChar '0' ∨ d = ofChar '1') : isAlnum d.val = true ∧ d.val < 0x41 := by
  rcases hd with rfl | rfl
  · exact ⟨rfl, by decide⟩
  · exact ⟨rfl, by decide⟩

private theorem zero_ne_one : ofChar '0' ≠ ofChar '1' := by decide

/-- A line in which no pattern begins, up to where no value goes on. -/
private theorem redact_clear (hbearer : ¬bearer.BeginsIn none x w) (hw : Ended w)
    (hvalue : ∀ w, Ended w → ¬(queryValue other).BeginsIn none x w)
    (hjson : ∀ w, Ended w → ¬jsonValue.BeginsIn none x w) :
    ∃ w', redact other (x ++ w) = x ++ w' := by
  have hended := (subFrom_ended bearer_starts_stops bearer_nonempty hw (after none x) none).2
  have hended' : Ended ((queryValue other).subFrom 0 (after none x) (bearer.subFrom 0 (after none x) w)) :=
    (subFrom_ended queryValue_starts queryValue_nonempty hended (after none x) none).2
  rw [redact, Rule.sub, Rule.sub, Rule.sub, Rule.subFrom_clear hbearer, Rule.subFrom_clear (hvalue _ hended),
    Rule.subFrom_clear (hjson _ hended')]
  exact ⟨_, rfl⟩

/-- Where the value has no letters, the bearer pattern does not begin in a field whose name has no `r`. -/
private theorem ticket_bearer_clear (hequals : ofChar '=' ∉ name) (hname : ∀ c ∈ name, letter 'r' c = false)
    (hf : Unlettered f) :
    ¬bearer.BeginsIn prev (field name f) w := by
  intro hbegins
  obtain ⟨u, v, β, s, w', hx, hv, hmatch, hβ, -, -⟩ := bearer_begins hbegins
  have hβequals : ofChar '=' ∉ β := fun hmem => absurd (hβ.alnum _ hmem) (by decide)
  by_cases hu : ofChar '=' ∈ u
  · -- the word would begin in the value
    obtain ⟨u₁, u₂, rfl, hu₁⟩ := List.eq_append_cons_of_mem hu
    obtain ⟨c, v, rfl⟩ := List.exists_cons_of_ne_nil hv
    obtain ⟨_, _, rfl, ⟨b, hb, rfl⟩, -⟩ := hβ
    obtain rfl : c = b := (List.cons.inj hmatch).1
    rw [field, ← List.cons_append, List.append_assoc, List.cons_append] at hx
    have hquestion : ofChar '=' ∉ ofChar '?' :: name := List.not_mem_cons_of_ne_of_not_mem (by decide) hequals
    obtain ⟨-, rfl⟩ := append_cons_inj hx hquestion hu₁
    rw [hf c (by simp) 'b' (by decide)] at hb
    cases hb
  · -- it would end in the name
    rw [field, ← List.cons_append] at hx
    obtain ⟨v, hv', rfl⟩ := eq_append_of_not_mem hx.symm hu
    rw [List.append_assoc, List.cons_append] at hmatch
    obtain ⟨z, rfl, -⟩ := eq_append_of_not_mem hmatch.symm hβequals
    obtain ⟨β', ρ, rfl, hρ⟩ := hβ.split
    have hmem : ρ ∈ ofChar '?' :: name := by rw [hv']; simp
    rcases List.mem_cons.1 hmem with rfl | hmem
    · exact absurd hρ (by decide)
    · rw [hname ρ hmem] at hρ
      cases hρ

/-- In the value alone, no query value begins. -/
private theorem value_clear (hf : Unlettered f) (hw : Ended w) :
    ¬(queryValue other).BeginsIn (some (ofChar '=')) f w := by
  intro hbegins
  have hfield : (queryValue other).BeginsIn none (field [] ([] ++ f)) w := hbegins.cons.cons
  obtain ⟨⟨p, k, s, hk, hs, hread⟩, -⟩ :=
    value_begins List.not_mem_nil List.not_mem_nil (fun _ h => by cases h) hf hw hfield
  obtain ⟨-, rfl⟩ := List.append_eq_nil_iff.1 hk.symm
  have hall : (valueNames.all fun s => s.length ≠ 0) = true := rfl
  exact of_decide_eq_true (List.all_eq_true.1 hall s hs) (length_of_lit hread).symm

private theorem takeWhile_append_ended (hy : y.takeWhile queryChar = []) (hw : Ended w) :
    (y ++ w).takeWhile queryChar = [] := by
  cases y with
  | nil =>
    cases w with
    | nil => rfl
    | cons c w =>
      have hstop := hw c rfl
      rw [stops, Bool.and_eq_true, Bool.not_eq_true'] at hstop
      exact List.takeWhile_cons_of_neg (by simp [hstop.1])
  | cons c y =>
    by_cases hc : queryChar c = true
    · rw [List.takeWhile_cons_of_pos hc] at hy
      cases hy
    · exact List.takeWhile_cons_of_neg hc

private theorem ended_dropWhile (hσ : Visible σ) (d : CodePoint) (hw : Ended w) :
    Ended (fill d (σ.dropWhile queryChar) ++ w) := by
  intro c hc
  cases hfill : fill d (σ.dropWhile queryChar) with
  | nil =>
    rw [hfill] at hc
    exact hw c hc
  | cons e rest =>
    rw [hfill] at hc
    have hhead : c ∈ (fill d (σ.dropWhile queryChar)).head? := hfill ▸ hc
    obtain ⟨hquery, hmem⟩ := head_fill_dropWhile (fun _ => queryChar_of_alnum) hhead
    exact stops_of_urlChar (hσ c hmem) hquery

/-- The pattern of query values masks a ticket under its plain name. -/
private theorem value_ticket (hy : ∀ c ∈ y, queryChar c = true) (hne : y ≠ []) (hz : Ended z) :
    (queryValue other).sub (field (ofChars ticketName) (y ++ z)) =
      field (ofChars ticketName) (redacted ++ (queryValue other).subFrom 0 none z) := by
  obtain ⟨hmark, -⟩ := separator (.inl rfl)
  have hvalue := queryValue_queryRule other
  obtain ⟨_, hneeds, -⟩ := hvalue.needs
  have hticket := ticket_subFrom (hmark.word other) hne hy hz
  rw [ticketField] at hticket
  rw [Rule.sub, field, Rule.subFrom_cons (hvalue.avoids hmark) hneeds, hticket]
  rfl

private theorem ticket_spelled : ofChar '=' ∉ ofChars ticketName ∧ (∀ c ∈ ofChars ticketName, letter 'r' c = false) ∧
    quote ∉ field (ofChars ticketName) redacted := by
  have hletter : ((ofChars ticketName).any (letter 'r')) = false := by decide
  exact ⟨by decide, fun c hc => Bool.eq_false_iff.2 (List.any_eq_false.1 hletter c hc), by decide⟩

private theorem field_append (name u v : Text) : field name (u ++ v) = field name u ++ v := by
  rw [field, field]
  simp

/-- The line with a ticket under its plain name, and something behind it that is not masked. -/
private theorem redact_ticket (hy : ∀ c ∈ y, queryChar c = true) (hne : y ≠ []) (hyf : Unlettered (y ++ f))
    (hz : ∀ w, Ended w → Ended (f ++ w)) (hw : Ended w) :
    ∃ w', redact other (field (ofChars ticketName) (y ++ f) ++ w) = field (ofChars ticketName) redacted ++
      (f ++ w') := by
  obtain ⟨hequals, hletter, hquote⟩ := ticket_spelled
  have hf : Unlettered f := fun c hc => hyf c (List.mem_append_right y hc)
  have hbearer : ¬bearer.BeginsIn none (field (ofChars ticketName) (y ++ f)) w :=
    ticket_bearer_clear hequals hletter hyf
  obtain ⟨v, hv, hfirst⟩ : ∃ v, Ended v ∧ bearer.sub (field (ofChars ticketName) (y ++ f) ++ w) =
      field (ofChars ticketName) (y ++ (f ++ v)) := by
    refine ⟨_, (subFrom_ended bearer_starts_stops bearer_nonempty hw (after none (field (ofChars ticketName) (y ++ f))) none).2, ?_⟩
    rw [Rule.sub, Rule.subFrom_clear hbearer, ← List.append_assoc, field_append _ (y ++ f)]
  have hstart : (queryValue other).subFrom 0 none (f ++ v) = (queryValue other).subFrom 0 (some (ofChar '='))
      (f ++ v) :=
    (subFrom_ended queryValue_starts queryValue_nonempty (hz v hv) _ _).1
  have hended : Ended ((queryValue other).subFrom 0 (after (some (ofChar '=')) f) v) :=
    (subFrom_ended queryValue_starts queryValue_nonempty hv _ none).2
  rw [redact, hfirst, value_ticket hy hne (hz v hv), hstart, Rule.subFrom_clear (value_clear hf hv), field_append,
    ← List.append_assoc, Rule.sub, Rule.subFrom_clear (json_clear hquote hf hended), List.append_assoc]
  exact ⟨_, rfl⟩

/-- What may differ in a ticket is behind a quote under its plain name, if the line does not depend on it. -/
theorem ticket_fixed (hname : unquotePlus name = ticketName) (hvisible : Visible name) (hσ : Visible σ) (hw : Ended w)
    (hsame : redact other (field name (fill (ofChar '0') σ) ++ w) = redact other (field name (fill (ofChar '1') σ) ++ w)) :
    Fixed σ ∨ name = ofChars ticketName ∧ Fixed (σ.dropWhile queryChar) := by
  have hequals := equals_notMem_name hname (by decide)
  by_cases hmasked : name = ofChars ticketName ∧ σ.takeWhile queryChar ≠ []
  · obtain ⟨rfl, htake⟩ := hmasked
    refine .inr ⟨rfl, fixed_of_fill zero_ne_one ?_⟩
    have hline : ∀ d : CodePoint, d = ofChar '0' ∨ d = ofChar '1' →
        ∃ w', redact other (field (ofChars ticketName) (fill d σ) ++ w) =
          field (ofChars ticketName) redacted ++ (fill d (σ.dropWhile queryChar) ++ w') := by
      intro d hd
      have hsplit : fill d σ = fill d (σ.takeWhile queryChar) ++ fill d (σ.dropWhile queryChar) := by
        rw [← fill_append, List.takeWhile_append_dropWhile]
      have hquery : ∀ c ∈ fill d (σ.takeWhile queryChar), queryChar c = true := by
        intro c hc
        rcases mem_fill hc with rfl | ⟨hc, -⟩
        · exact queryChar_of_alnum (digits hd).1
        · exact List.mem_takeWhile_imp hc
      have hnonempty : fill d (σ.takeWhile queryChar) ≠ [] := mt List.map_eq_nil_iff.1 htake
      rw [hsplit]
      exact redact_ticket hquery hnonempty (hsplit ▸ unlettered_fill (digits hd).2 hσ)
        (fun w hw => ended_dropWhile hσ d hw) hw
    obtain ⟨w₀, hzero⟩ := hline _ (.inl rfl)
    obtain ⟨w₁, hone⟩ := hline _ (.inr rfl)
    rw [hzero, hone] at hsame
    have hrest := List.append_cancel_left hsame
    exact (List.append_inj hrest (by rw [length_fill, length_fill])).1
  · refine .inl (fixed_of_fill zero_ne_one ?_)
    have hline : ∀ d : CodePoint, d = ofChar '0' ∨ d = ofChar '1' →
        ∃ w', redact other (field name (fill d σ) ++ w) = field name (fill d σ) ++ w' := by
      intro d hd
      have hf : Unlettered (fill d σ) := unlettered_fill (digits hd).2 hσ
      have hletter := letter_clear (a := 'r') hname hvisible (by decide) rfl
      have hquote : quote ∉ field name [] := by
        intro hmem
        have hplain : Plain quote := ⟨by decide, by decide, by decide⟩
        rcases List.mem_cons.1 hmem with h | h
        · exact absurd h (by decide)
        · rcases List.mem_append.1 h with h | h
          · have hmem := mem_unquotePlus hplain h
            rw [hname] at hmem
            exact absurd hmem (by decide)
          · exact absurd h (by decide)
      refine redact_clear (ticket_bearer_clear hequals hletter hf) hw (fun w hw hbegins => ?_) (fun w hw hbegins => ?_)
      · obtain ⟨hends, htake⟩ := value_begins (h := []) hequals List.not_mem_nil (fun _ h => by cases h) hf hw hbegins
        rw [List.nil_append] at htake
        refine hmasked ⟨ticket_of_name hname hvisible hends, fun hnil => htake (takeWhile_append_ended ?_ hw)⟩
        by_contra hfill
        exact takeWhile_ne_nil (shape_fill (digits hd).1 σ).symm (fun _ => queryChar_of_alnum) hfill hnil
      · rw [← List.nil_append (fill d σ), field_append] at hbegins
        exact json_clear hquote hf hw hbegins
    obtain ⟨w₀, hzero⟩ := hline _ (.inl rfl)
    obtain ⟨w₁, hone⟩ := hline _ (.inr rfl)
    rw [hzero, hone, ← List.nil_append (fill _ σ), ← List.nil_append (fill (ofChar '1') σ), field_append, field_append,
      List.append_assoc, List.append_assoc] at hsame
    have hrest := List.append_cancel_left hsame
    exact (List.append_inj hrest (by rw [length_fill, length_fill])).1

/-! A ticket that ends in `bearer`, before a blank and a character of a token -/

/-- What follows a masked ticket stays up to the character behind its blanks. -/
private theorem value_keeps {s : Text} {c : CodePoint} (hy : ∀ c ∈ y, queryChar c = true) (hne : y ≠ [])
    (hs : ∀ c ∈ s, space c = true)
    (hz : Ended (s ++ c :: z)) :
      ∃ z', jsonValue.sub ((queryValue other).sub (field (ofChars ticketName) (y ++ (s ++ c :: z)))) =
      field (ofChars ticketName) redacted ++ (s ++ c :: z') := by
  obtain ⟨z₁, hvalue⟩ : ∃ z₁, (queryValue other).subFrom 0 none (s ++ c :: z) = s ++ c :: z₁ := by
    refine Rule.subFrom_keeps (fun prev l z hlead => hlead.1.symm) fun prev u v l g t hx hsplit hlead hgroup => ?_
    obtain rfl := hlead.1
    rw [List.nil_append] at hsplit ⊢
    -- the name would end in a blank
    by_contra hle
    obtain ⟨g', ℓ, rfl, a, ha, hℓ⟩ := group_last hgroup
    obtain ⟨v', rfl⟩ : ∃ v', v = (g' ++ [ℓ]) ++ v' := by
      rcases List.append_eq_append_iff.1 hsplit with ⟨a, ha, -⟩ | ⟨a, ha, -⟩
      · rw [ha, List.length_append] at hle
        obtain rfl : a = [] := List.length_eq_zero_iff.1 (by omega)
        exact ⟨[], by simpa using ha.symm⟩
      · exact ⟨a, ha⟩
    have hspace := hs ℓ (by rw [hx]; simp)
    rw [space_eq_false_of_tokenChar (tokenChar_of_letter ha hℓ)] at hspace
    cases hspace
  obtain ⟨-, -, hquote⟩ := ticket_spelled
  have hnot : quote ∉ field (ofChars ticketName) redacted ++ s :=
    fun hmem => (List.mem_append.1 hmem).elim hquote (quote_notMem_of_space hs)
  obtain ⟨z₂, hjson⟩ : ∃ z₂, jsonValue.subFrom 0 none ((field (ofChars ticketName) redacted ++ s) ++ c :: z₁) =
      (field (ofChars ticketName) redacted ++ s) ++ c :: z₂ := by
    refine Rule.subFrom_keeps (fun prev l z hlead => (eq_of_lit (by decide) hlead).symm) fun prev u v l g t hx hsplit
      hlead _ => ?_
    obtain rfl := eq_of_lit (by decide) hlead
    cases v with
    | nil => exact Nat.succ_pos _
    | cons d v =>
      obtain rfl : d = quote := (List.cons.inj hsplit).1
      exact absurd (hx ▸ List.mem_append_right u List.mem_cons_self) hnot
  rw [List.append_assoc] at hjson
  rw [value_ticket hy hne hz, hvalue, field_append, Rule.sub, hjson, List.append_assoc]
  exact ⟨z₂, rfl⟩

/-- Behind `bearer` and blanks, a token is masked. -/
private theorem blank_subFrom {β s : Text} {e : CodePoint} (hβ : Bearer β) (hne : s ≠ []) (hs : ∀ c ∈ s, space c = true)
    (he : tokenChar e = true) : ∃ z', bearer.subFrom 0 prev (β ++ (s ++ e :: z)) = β ++ (s ++ (redacted ++ z')) := by
  have hwhole : Consumes bearer.pattern prev (β ++ (s ++ [e])) z := by
    obtain ⟨d, s, rfl⟩ := List.exists_cons_of_ne_nil hne
    obtain ⟨hd, hs⟩ := List.forall_mem_cons.1 hs
    exact ⟨[], _, rfl, rfl, β ++ (d :: s), [e], (List.append_assoc β (d :: s) [e]).symm,
      ⟨β, d :: s, rfl, hβ.of_free (free_lit _),
      .inl ⟨[d], s, rfl, ⟨d, hd, rfl⟩, hs⟩⟩, [], [e], rfl, rfl, [e], [], rfl, ⟨e, he, rfl⟩,
        fun _ h => absurd h List.not_mem_nil⟩
  have hsome := Rule.matchAt_isSome hwhole
  rw [List.append_assoc, List.append_assoc, List.singleton_append] at hsome
  obtain ⟨m, hm⟩ := Option.isSome_iff_exists.1 hsome
  obtain ⟨u, _, o, w, hsplit, hlead, ⟨β', s', rfl, hword, hblank⟩, hmid, htake, hparts⟩ :=
    Rule.matchAt_eq_some_of_plus rfl hm
  obtain rfl : u = [] := hlead
  obtain rfl : o = [] := hmid
  rw [List.nil_append, List.nil_append, List.append_assoc] at hsplit
  obtain ⟨rfl, hbehind⟩ := List.append_inj hsplit ((length_of_lit hβ).trans (length_of_lit hword).symm)
  obtain ⟨d, w, rfl⟩ := List.exists_cons_of_ne_nil (fun h : w = [] => htake (by rw [h]; rfl))
  have hd : tokenChar d = true := by
    by_contra hd
    exact htake (List.takeWhile_cons_of_neg hd)
  have htakeWhile : ∀ {x y : Text} {c : CodePoint}, (∀ c ∈ x, space c = true) → tokenChar c = true →
      (x ++ c :: y).takeWhile space = x := by
    intro x y c hx hc
    rw [List.takeWhile_append_of_pos hx, List.takeWhile_cons_of_neg (by simp [space_eq_false_of_tokenChar hc]),
      List.append_nil]
  have hblanks : s' = s := by
    rcases hblank with ⟨_, s', rfl, ⟨c, hc, rfl⟩, hs'⟩ | hlit
    · have heq := congrArg (List.takeWhile space) hbehind
      have hfirst : ∀ x ∈ [c] ++ s', space x = true := List.forall_mem_cons.2 ⟨hc, hs'⟩
      rw [htakeWhile hs he, htakeWhile hfirst hd] at heq
      exact heq.symm
    · obtain ⟨c, s, rfl⟩ := List.exists_cons_of_ne_nil hne
      obtain ⟨_, _, rfl, ⟨c', hc', rfl⟩, -⟩ := hlit
      obtain rfl : c = c' := (List.cons.inj hbehind).1
      have hspace := hs c List.mem_cons_self
      rw [eq_of_letter (by decide) hc'] at hspace
      exact absurd hspace (by decide)
  obtain rfl := hblanks
  have hrest := List.append_cancel_left hbehind
  have hx : β ++ (s' ++ e :: z) = ((β ++ s') ++ (e :: z).takeWhile tokenChar) ++ (e :: z).dropWhile tokenChar := by
    rw [List.append_assoc (β ++ s'), List.takeWhile_append_dropWhile, List.append_assoc]
  have hnonempty : (β ++ s') ++ (e :: z).takeWhile tokenChar ≠ [] :=
    List.append_ne_nil_of_right_ne_nil _ (by rw [hrest]; exact htake)
  have hlength : m.2.2 = ((β ++ s') ++ (e :: z).takeWhile tokenChar).length := by
    rw [hparts, hrest]
    simp [Nat.add_assoc]
  have hgroup : m.1 = 0 ∧ m.2.1 = (β ++ s').length := by
    rw [hparts]
    exact ⟨rfl, Nat.zero_add _⟩
  rw [hx] at hm ⊢
  rw [Rule.subFrom_some hm hnonempty hlength, Rule.replaced, hgroup.1, hgroup.2, List.append_assoc (β ++ s'),
    List.take_left']
  · exact ⟨_, by simp [bearer]; rfl⟩
  · rfl

/-- A blank and a character of a token stay behind a ticket of zeros, but not behind one that ends in `bearer`. -/
theorem ticket_unbroken {u : Text} {k : Nat} (hu : Unlettered u) (hquery : ∀ c ∈ u, queryChar c = true) (hw : Ended w)
    (hblank : blankToken w = true) (hk : k ≠ 0)
    (hsame : redact other (field (ofChars ticketName) (u ++ List.replicate k (ofChar '0')) ++ w) =
      redact other (field (ofChars ticketName) (u ++ ofChars ['b', 'e', 'a', 'r', 'e', 'r']) ++ w)) : False := by
  obtain ⟨hequals, hletter, -⟩ := ticket_spelled
  rw [blankToken, Bool.and_eq_true, decide_eq_true_eq] at hblank
  obtain ⟨hne, htoken⟩ := hblank
  obtain ⟨e, v, hrest⟩ : ∃ e v, w.dropWhile space = e :: v := by
    cases hdrop : w.dropWhile space with
    | nil =>
      rw [hdrop] at htoken
      cases htoken
    | cons e v => exact ⟨e, v, rfl⟩
  have he : tokenChar e = true := by
    rw [hrest] at htoken
    exact htoken
  have hs : ∀ c ∈ w.takeWhile space, space c = true := fun _ hc => List.mem_takeWhile_imp hc
  have hsplit : w = w.takeWhile space ++ e :: v := by rw [← hrest, List.takeWhile_append_dropWhile]
  have hended : ∀ v, Ended (w.takeWhile space ++ v) := by
    obtain ⟨d, s, hd⟩ := List.exists_cons_of_ne_nil hne
    rw [hd] at hsplit ⊢
    intro v c hc
    exact hw c (by rw [hsplit]; exact hc)
  generalize w.takeWhile space = s at hne hs hsplit hended
  obtain rfl := hsplit
  have hzeros : ∀ c ∈ List.replicate k (ofChar '0'), Unlettered [c] ∧ queryChar c = true := by
    intro c hc
    rw [(List.mem_replicate.1 hc).2]
    refine ⟨fun c hc => ?_, by decide⟩
    rw [List.mem_singleton.1 hc]
    exact unlettered_of_lt (by decide)
  have hword : Bearer (ofChars ['b', 'e', 'a', 'r', 'e', 'r']) := consumes_lit _ _ _
  -- behind zeros
  obtain ⟨v₀, hzero⟩ : ∃ v₀,
      bearer.sub (field (ofChars ticketName) (u ++ List.replicate k (ofChar '0')) ++ (s ++ e :: v)) =
      field (ofChars ticketName) ((u ++ List.replicate k (ofChar '0')) ++ (s ++ e :: v₀)) := by
    obtain ⟨v₀, hv⟩ : ∃ v₀, bearer.subFrom 0 (after none (field (ofChars ticketName) (u ++ List.replicate k (ofChar '0')))) (s ++ e :: v) =
        s ++ e :: v₀ := by
      refine Rule.subFrom_keeps (fun prev l z hlead => hlead.symm) fun prev x y l g t hx hsplit hlead hgroup => ?_
      obtain rfl := hlead
      cases y with
      | nil =>
        have hneeds : Needs (fun _ => True) bearer.group := .inl (.inl fun _ _ => trivial)
        exact List.length_pos_of_ne_nil (hgroup.ne_nil hneeds)
      | cons c y =>
        obtain ⟨_, _, rfl, ⟨_, _, rfl, ⟨b, hb, rfl⟩, -⟩, -⟩ := hgroup
        obtain rfl : c = b := (List.cons.inj hsplit).1
        have hspace := hs c (by rw [hx]; simp)
        rw [space_eq_false_of_tokenChar (tokenChar_of_letter (by decide) hb)] at hspace
        cases hspace
    refine ⟨v₀, ?_⟩
    have hunlettered : Unlettered (u ++ List.replicate k (ofChar '0')) :=
      hu.append fun c hc => (hzeros c hc).1 c List.mem_cons_self
    rw [Rule.sub, Rule.subFrom_clear (ticket_bearer_clear hequals hletter hunlettered), hv]
    exact (field_append _ _ _).symm
  -- behind the word
  obtain ⟨v₁, hone⟩ : ∃ v₁, bearer.sub (field (ofChars ticketName) (u ++ ofChars ['b', 'e', 'a', 'r', 'e', 'r']) ++ (s ++ e :: v)) =
      field (ofChars ticketName) ((u ++ ofChars ['b', 'e', 'a', 'r', 'e', 'r']) ++ (s ++ ofChar '[' :: v₁)) := by
    obtain ⟨v₁, hv⟩ : ∃ v₁, bearer.subFrom 0 (after none (field (ofChars ticketName) u)) (_ ++ (s ++ e :: v)) = _ :=
      blank_subFrom hword hne hs he
    refine ⟨ofChars ['r', 'e', 'd', 'a', 'c', 't', 'e', 'd', ']'] ++ v₁, ?_⟩
    rw [field_append, List.append_assoc, Rule.sub, Rule.subFrom_clear (ticket_bearer_clear hequals hletter hu), hv,
      ← field_append, List.append_assoc]
    rfl
  have hqueries : ∀ c ∈ u ++ List.replicate k (ofChar '0'), queryChar c = true :=
    fun c hc => (List.mem_append.1 hc).elim (hquery c) fun hc => (hzeros c hc).2
  have hletters : ∀ c ∈ u ++ ofChars ['b', 'e', 'a', 'r', 'e', 'r'], queryChar c = true :=
    fun c hc => (List.mem_append.1 hc).elim (hquery c) fun hc => queryChar_of_alnum (hword.alnum c hc)
  have hreplicate : u ++ List.replicate k (ofChar '0') ≠ [] :=
    List.append_ne_nil_of_right_ne_nil _ (by rwa [Ne, List.replicate_eq_nil_iff])
  have hbearer : u ++ ofChars ['b', 'e', 'a', 'r', 'e', 'r'] ≠ [] :=
    List.append_ne_nil_of_right_ne_nil _ (List.cons_ne_nil _ _)
  obtain ⟨z₀, hleft⟩ : ∃ z, jsonValue.sub ((queryValue other).sub _) = _ :=
    value_keeps hqueries hreplicate hs (hended (e :: v₀))
  obtain ⟨z₁, hright⟩ : ∃ z, jsonValue.sub ((queryValue other).sub _) = _ :=
    value_keeps hletters hbearer hs (hended (ofChar '[' :: v₁))
  rw [redact, redact, hzero, hone, hleft, hright] at hsame
  have heq := List.append_cancel_left (List.append_cancel_left hsame)
  rw [(List.cons.inj heq).1] at he
  exact absurd he (by decide)

end Tickets

/-! ### Bearer tokens -/

section Tokens

variable {other : CodePoint → Bool} {t : CaseTable} {name e blank f σ : Text}

/-- Where the token has no letters, the bearer pattern begins in its field only for a plain `Bearer%20`. -/
private theorem token_begins (hname : unquotePlus name = headerName)
    (hvisible : Visible (field name ((e ++ blank) ++ f)))
    (hreads : ReadsBearer t e) (hblank : blank = [ofChar '+'] ∨ blank = blank20) (hf : Unlettered f)
    (hbegins : bearer.BeginsIn none (field name ((e ++ blank) ++ f)) []) :
    (EndsBearer e ∧ blank = blank20) ∧ f.takeWhile tokenChar ≠ [] := by
  obtain ⟨u, v, β, s, w, hx, -, hmatch, hβ, hs, htoken⟩ := bearer_begins hbegins
  rw [List.append_nil] at hmatch
  obtain ⟨β', ρ, rfl, hρ⟩ := hβ.split
  have hall : field name ((e ++ blank) ++ f) = u ++ ((β' ++ [ρ]) ++ (s ++ w)) := by rw [hx, hmatch]
  have hs' : s = blank20 := by
    refine hs.resolve_right fun ⟨hne, hspaces⟩ => ?_
    obtain ⟨c, s, rfl⟩ := List.exists_cons_of_ne_nil hne
    have hspace := hspaces c List.mem_cons_self
    rw [space_of_urlChar (hvisible c (by rw [hall]; simp))] at hspace
    cases hspace
  subst hs'
  -- the word does not end behind the blank
  have hbehind : ρ ∉ blank ++ f := by
    intro hmem
    have hblanks : Unlettered blank := by
      rcases hblank with rfl | rfl
      · exact fun c hc => unlettered_of_lt (by rw [List.mem_singleton.1 hc]; decide)
      · have hall : (blank20.all fun c => c.val < 0x41) = true := rfl
        exact fun c hc => unlettered_of_lt (of_decide_eq_true (List.all_eq_true.1 hall c hc))
    rw [(hblanks.append hf) ρ hmem 'r' (by decide)] at hρ
    cases hρ
  have hsplit : field name e ++ (blank ++ f) = (u ++ β') ++ ρ :: (blank20 ++ w) := by
    rw [← field_append, ← List.append_assoc, hall]
    simp
  obtain ⟨c, hc, hrest⟩ : ∃ c, field name e = (u ++ β') ++ c ∧ ρ :: (blank20 ++ w) = c ++ (blank ++ f) := by
    rcases List.append_eq_append_iff.1 hsplit with ⟨a, -, ha⟩ | h
    · exact absurd (ha ▸ List.mem_append_right a List.mem_cons_self) hbehind
    · exact h
  obtain ⟨v', rfl⟩ : ∃ v', c = ρ :: v' := by
    cases c with
    | nil => exact absurd (hrest ▸ List.mem_cons_self) hbehind
    | cons d v' => exact ⟨v', by rw [(List.cons.inj hrest).1]⟩
  have hrest := (List.cons.inj hrest).2
  -- but at the end of the one that is read
  obtain ⟨q, hq, hfield⟩ : ∃ q, u ++ β' = ofChar '?' :: q ∧ name ++ ofChar '=' :: e = q ++ ρ :: v' := by
    cases hhead : u ++ β' with
    | nil =>
      obtain ⟨-, rfl⟩ := List.append_eq_nil_iff.1 hhead
      cases length_of_lit hβ
    | cons d q =>
      rw [hhead, field, List.cons_append] at hc
      exact ⟨q, by rw [(List.cons.inj hc).1], (List.cons.inj hc).2⟩
  obtain rfl := blank_at_end hname hreads hρ hfield hrest.symm
  change blank20 ++ w = blank ++ f at hrest
  obtain ⟨hspelled, rfl⟩ : blank = blank20 ∧ f = w := by
    rcases hblank with rfl | rfl
    · exact absurd (List.cons.inj hrest).1 (by decide)
    · exact ⟨rfl, (List.append_cancel_left hrest).symm⟩
  refine ⟨⟨?_, hspelled⟩, htoken⟩
  have hword : u ++ (β' ++ [ρ]) = (ofChar '?' :: (name ++ [ofChar '='])) ++ e := by
    rw [← List.append_assoc, hq, List.cons_append, ← hfield]
    simp
  rcases List.append_eq_append_iff.1 hword with ⟨a, ha, he⟩ | ⟨a, ha, he⟩
  · rcases List.eq_nil_or_concat a with rfl | ⟨a, d, rfl⟩
    · exact ⟨[], e, rfl, by rwa [he, List.nil_append] at hβ⟩
    · -- the word would begin before the value
      obtain rfl : ofChar '=' = d := by
        have hlast := congrArg (·.reverse.head?) ha
        simpa using hlast
      have halnum := hβ.alnum (ofChar '=') (by rw [he]; simp)
      exact absurd halnum (by decide)
  · exact ⟨a, β' ++ [ρ], he, hβ⟩

private theorem last_unlettered {k : Text} {c : CodePoint} (hc : c.val < 0x41 ∨ c = ofChar ']') (hk :
    k.getLast? = some c) :
    ∀ c ∈ k.getLast?, Unlettered [c] := by
  intro d hd
  rw [hk] at hd
  obtain rfl := Option.some.inj hd
  intro d hd
  rw [List.mem_singleton.1 hd]
  rcases hc with hlt | rfl
  · exact unlettered_of_lt hlt
  · intro a ha
    by_contra hletter
    have halnum := isAlnum_of_letter ha (Bool.eq_true_of_not_eq_false hletter) (by decide)
    exact absurd halnum (by decide)

/-- In the field of the header, the other patterns mask nothing where no letter follows a quote. -/
private theorem header_rest {h : Text} (hname : unquotePlus name = headerName) (hvisible : Visible name)
    (hequals : ofChar '=' ∉ h)
    (hquote : quote ∉ h) (hlast : ∀ c ∈ h.getLast?, Unlettered [c]) (hf : Unlettered f) :
    jsonValue.sub ((queryValue other).sub (field name (h ++ f))) = field name (h ++ f) := by
  have hended : Ended [] := fun c hc => by cases hc
  have hnot : quote ∉ field name h := by
    have hplain : Plain quote := ⟨by decide, by decide, by decide⟩
    intro hmem
    rcases List.mem_cons.1 hmem with h | h
    · exact absurd h (by decide)
    · rcases List.mem_append.1 h with h | h
      · have hmem := mem_unquotePlus hplain h
        rw [hname] at hmem
        exact absurd hmem (by decide)
      · exact (List.mem_cons.1 h).elim (fun h => absurd h (by decide)) hquote
  have hvalue : ¬(queryValue other).BeginsIn none (field name (h ++ f)) [] := fun hbegins =>
    header_no_name hname hvisible (value_begins (equals_notMem_name hname (by decide)) hequals hlast hf hended hbegins).1
  have hjson : ¬jsonValue.BeginsIn none (field name (h ++ f)) [] := by
    rw [field_append]
    exact json_clear hnot hf hended
  rw [Rule.sub, Rule.sub, Rule.subFrom_eq_self hvalue, Rule.subFrom_eq_self hjson]

/-- What may differ in a token is behind a plain `Bearer%20` and the characters of a token, if the line does not
depend on it. -/
theorem token_fixed (hname : unquotePlus name = headerName) (hvisible : Visible (name ++ ofChar '=' :: e))
    (hσ : Visible σ) (hreads : ReadsBearer t e) (hblank : blank = [ofChar '+'] ∨ blank = blank20)
    (hsame : redact other (field name ((e ++ blank) ++ fill (ofChar '0') σ)) =
      redact other (field name ((e ++ blank) ++ fill (ofChar '1') σ))) :
    Fixed σ ∨ (EndsBearer e ∧ blank = blank20) ∧ Fixed (σ.dropWhile tokenChar) := by
  have hvisible' : Visible name := fun c hc => hvisible c (List.mem_append_left _ hc)
  have hequals : ofChar '=' ∉ e := hreads.lacks equals_plain (by decide) (by decide) (by decide)
  have hquote : quote ∉ e := hreads.lacks ⟨by decide, by decide, by decide⟩ (by decide) (by decide) (by decide)
  by_cases hmasked : (EndsBearer e ∧ blank = blank20) ∧ σ.takeWhile tokenChar ≠ []
  · obtain ⟨⟨⟨e, β, rfl, hβ⟩, rfl⟩, htake⟩ := hmasked
    refine .inr ⟨⟨⟨e, β, rfl, hβ⟩, rfl⟩, fixed_of_fill zero_ne_one ?_⟩
    have hline : ∀ d : CodePoint, d = ofChar '0' ∨ d = ofChar '1' →
        redact other (field name (((e ++ β) ++ blank20) ++ fill d σ)) =
          field name ((((e ++ β) ++ blank20) ++ redacted) ++ fill d (σ.dropWhile tokenChar)) := by
      intro d hd
      have hrest : Visible (σ.dropWhile tokenChar) := fun c hc => hσ c ((List.dropWhile_suffix tokenChar).subset hc)
      have hf := unlettered_fill (digits hd).2 hrest
      have hbearer : bearer.sub (field name (((e ++ β) ++ blank20) ++ fill d σ)) =
          field name ((((e ++ β) ++ blank20) ++ redacted) ++ fill d (σ.dropWhile tokenChar)) := by
        obtain ⟨hmark, -⟩ := separator (.inl rfl)
        obtain ⟨_, hneeds, -⟩ := bearer_valueRule.needs
        have hsplit : field name (((e ++ β) ++ blank20) ++ fill d σ) = ofChar '?' :: ((name ++ ofChar '=' :: e) ++
            (β ++ (blank20 ++ (fill d (σ.takeWhile tokenChar) ++ fill d (σ.dropWhile tokenChar))))) := by
          rw [← fill_append, List.takeWhile_append_dropWhile, field]
          simp
        have htoken : ∀ c ∈ fill d (σ.takeWhile tokenChar), tokenChar c = true := by
          intro c hc
          rcases mem_fill hc with rfl | ⟨hc, -⟩
          · exact tokenChar_of_alnum (digits hd).1
          · exact List.mem_takeWhile_imp hc
        have hnonempty : fill d (σ.takeWhile tokenChar) ≠ [] := mt List.map_eq_nil_iff.1 htake
        have hend : ∀ c ∈ (fill d (σ.dropWhile tokenChar)).head?, tokenChar c = false :=
          fun c hc => (head_fill_dropWhile (fun _ => tokenChar_of_alnum) hc).1
        have hleft : bearer.subFrom 0 none (fill d (σ.dropWhile tokenChar)) = fill d (σ.dropWhile tokenChar) := by
          refine Rule.subFrom_eq_self (Rule.not_beginsIn_of_starts (bearer_starts fun _ h => h) bearer_nonempty fun c hc => ?_)
          rw [hf c hc 'b' (by decide)]
          exact Bool.noConfusion
        rw [hsplit, Rule.sub, Rule.subFrom_cons (bearer_valueRule.avoids hmark) hneeds,
          Rule.subFrom_clear (header_clear hname hvisible hreads hβ _),
          token_subFrom hβ hnonempty htoken hend, hleft, field]
        simp
      rw [redact, hbearer]
      refine header_rest hname hvisible' (fun hmem => ?_) (fun hmem => ?_) (last_unlettered (.inr rfl) ?_) hf
      · rw [List.append_assoc] at hmem
        exact (List.mem_append.1 hmem).elim hequals fun hmem => absurd hmem (by decide)
      · rw [List.append_assoc] at hmem
        exact (List.mem_append.1 hmem).elim hquote fun hmem => absurd hmem (by decide)
      · rw [List.getLast?_append]
        rfl
    rw [hline _ (.inl rfl), hline _ (.inr rfl), field_append, field_append _ _ (fill (ofChar '1') _)] at hsame
    exact List.append_cancel_left hsame
  · refine .inl (fixed_of_fill zero_ne_one ?_)
    have hline : ∀ d : CodePoint, d = ofChar '0' ∨ d = ofChar '1' →
        redact other (field name ((e ++ blank) ++ fill d σ)) = field name ((e ++ blank) ++ fill d σ) := by
      intro d hd
      have hf := unlettered_fill (digits hd).2 hσ
      have hvisible'' : Visible (field name ((e ++ blank) ++ fill d σ)) := by
        have hsplit : field name ((e ++ blank) ++ fill d σ) = (ofChar '?' :: (name ++ ofChar '=' :: e)) ++
            (blank ++ fill d σ) := by
          rw [field]
          simp
        have hblanks : (blank.all urlChar) = true := by
          rcases hblank with rfl | rfl
          · rfl
          · rfl
        intro c hc
        rw [hsplit, List.mem_append, List.mem_append] at hc
        rcases hc with hc | hc | hc
        · exact (List.mem_cons.1 hc).elim (fun h => h ▸ rfl) (hvisible c)
        · exact List.all_eq_true.1 hblanks c hc
        · exact visible_fill (digits hd).1 hσ c hc
      have hclear : ¬bearer.BeginsIn none (field name ((e ++ blank) ++ fill d σ)) [] := by
        intro hbegins
        obtain ⟨hspelled, htake⟩ := token_begins hname hvisible'' hreads hblank hf hbegins
        exact hmasked ⟨hspelled, takeWhile_ne_nil (shape_fill (digits hd).1 σ).symm (fun _ => tokenChar_of_alnum) htake⟩
      have hbearer : bearer.sub (field name ((e ++ blank) ++ fill d σ)) = field name ((e ++ blank) ++ fill d σ) :=
        Rule.subFrom_eq_self hclear
      rw [redact, hbearer]
      refine header_rest hname hvisible' (fun hmem => ?_) (fun hmem => ?_) ?_ hf
      · rcases List.mem_append.1 hmem with hmem | hmem
        · exact hequals hmem
        · rcases hblank with rfl | rfl
          · exact absurd hmem (by decide)
          · exact absurd hmem (by decide)
      · rcases List.mem_append.1 hmem with hmem | hmem
        · exact hquote hmem
        · rcases hblank with rfl | rfl
          · exact absurd hmem (by decide)
          · exact absurd hmem (by decide)
      · rcases hblank with rfl | rfl
        · exact last_unlettered (c := ofChar '+') (.inl (by decide)) List.getLast?_concat
        · exact last_unlettered (c := ofChar '0') (.inl (by decide)) (by rw [List.getLast?_append]; rfl)
    rw [hline _ (.inl rfl), hline _ (.inr rfl), field_append, field_append _ _ (fill (ofChar '1') _)] at hsame
    exact List.append_cancel_left hsame

end Tokens

end Redaction

end CliServer
