import Mathlib

/-!
# Paging by offset

A list that is read page by page and changes between the pages.  A reader at offset `n` has read the first `n` entries;
`l.drop n` is what it has left.  An entry that is left stays left when entries are added, wherever that is
(`mem_drop_of_sublist`), and when others are removed from the part that is left (`mem_drop_filter`); a page takes it or
leaves it for the next one (`mem_page_or_drop`).  An entry removed from the part that was read moves the others up: the
first that was left is skipped, and no other (`mem_drop_filter_ne`).
-/

namespace Paging

variable {α : Type*} {l l' : List α} {x : α} {n : Nat}

theorem mem_drop_of_sublist (h : l.Sublist l') (hx : x ∈ l.drop n) : x ∈ l'.drop n := by
  rw [← List.take_append_drop n l, List.append_sublist_iff] at h
  obtain ⟨read, left, rfl, hread, hleft⟩ := h
  have hn : n ≤ l.length := by
    by_contra hlt
    rw [List.drop_eq_nil_of_le (by omega)] at hx
    cases hx
  have hlength : n ≤ read.length := by
    have hle := hread.length_le
    rw [List.length_take, Nat.min_eq_left hn] at hle
    exact hle
  rw [List.drop_append]
  have hdrop : n - read.length = 0 := Nat.sub_eq_zero_of_le hlength
  rw [hdrop, List.drop_zero]
  exact List.mem_append_right _ (hleft.subset hx)

theorem mem_drop_filter {p : α → Bool} (hread : ∀ y ∈ l.take n, p y = true) (hx : x ∈ l.drop n) (hp : p x = true) :
    x ∈ (l.filter p).drop n := by
  have hsplit : l.filter p = l.take n ++ (l.drop n).filter p := by
    conv_lhs => rw [← List.take_append_drop n l]
    rw [List.filter_append, List.filter_eq_self.2 hread]
  have hlength : (l.take n).length ≤ n := List.length_take_le n l
  rw [hsplit, List.drop_append, List.mem_append]
  right
  have hn : n - (l.take n).length = 0 := by
    rw [List.length_take]
    by_contra hlt
    rw [List.drop_eq_nil_of_le (by omega)] at hx
    cases hx
  rw [hn, List.drop_zero]
  exact List.mem_filter.2 ⟨hx, hp⟩

private theorem mem_drop_filter_of_le {p : α → Bool} {m : Nat} (hread : n ≤ ((l.take m).filter p).length)
    (hx : x ∈ l.drop m)
    (hp : p x = true) : x ∈ (l.filter p).drop n := by
  have hsplit : l.filter p = (l.take m).filter p ++ (l.drop m).filter p := by
    conv_lhs => rw [← List.take_append_drop m l]
    rw [List.filter_append]
  rw [hsplit, List.drop_append, Nat.sub_eq_zero_of_le hread, List.drop_zero]
  exact List.mem_append_right _ (List.mem_filter.2 ⟨hx, hp⟩)

section Keys

variable {κ : Type*} [DecidableEq κ] {key : α → κ}

private theorem length_le_filter_ne (hkeys : (l.map key).Nodup) (k : κ) :
    l.length ≤ (l.filter (key · ≠ k)).length + 1 := by
  have hmap : (l.filter (key · ≠ k)).map key = (l.map key).erase k := by
    rw [hkeys.erase_eq_filter, List.filter_map]
    exact congrArg (List.map key) (List.filter_congr fun y _ => by simp [bne, beq_eq_decide])
  have hlength := congrArg List.length hmap
  have herase : (l.map key).length - 1 ≤ ((l.map key).erase k).length := List.le_length_erase
  rw [List.length_map] at hlength herase
  omega

/-- One entry at most is removed, and it is no matter whether it was read: the first that was left is not `x`. -/
theorem mem_drop_filter_ne {k : κ} (hkeys : (l.map key).Nodup) (hx : x ∈ l.drop n) (hne : key x ≠ k)
    (hfirst : k ∈ (l.take n).map key → l[n]? ≠ some x) : x ∈ (l.filter (key · ≠ k)).drop n := by
  by_cases hread : k ∈ (l.take n).map key
  · have hn : n < l.length := by
      by_contra hlt
      rw [List.drop_eq_nil_of_le (by omega)] at hx
      cases hx
    have hnext : x ∈ l.drop (n + 1) := by
      rw [List.drop_eq_getElem_cons hn] at hx
      rcases List.mem_cons.1 hx with heq | hx
      · exact absurd (List.getElem?_eq_some_iff.2 ⟨hn, heq.symm⟩) (hfirst hread)
      · exact hx
    have hlength := length_le_filter_ne (hkeys.sublist ((List.take_sublist (n + 1) l).map key)) k
    rw [List.length_take, Nat.min_eq_left hn] at hlength
    exact mem_drop_filter_of_le (Nat.le_of_succ_le_succ hlength) hnext (decide_eq_true hne)
  · refine mem_drop_filter (fun y hy => ?_) hx (decide_eq_true hne)
    exact decide_eq_true fun h => hread (h ▸ List.mem_map_of_mem hy)

end Keys

theorem mem_page_or_drop (size : Nat) (hx : x ∈ l.drop n) :
    x ∈ (l.drop n).take size ∨ x ∈ l.drop (n + ((l.drop n).take size).length) := by
  rw [← List.take_append_drop size (l.drop n), List.mem_append] at hx
  refine hx.imp_right fun hrest => ?_
  rw [List.drop_drop] at hrest
  have hlength : ((l.drop n).take size).length = size := by
    rw [List.length_take, List.length_drop]
    by_contra hlt
    rw [List.drop_eq_nil_of_le (by omega)] at hrest
    cases hrest
  rw [hlength]
  exact hrest

end Paging
