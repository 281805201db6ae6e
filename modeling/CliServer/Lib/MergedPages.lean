import Mathlib

/-!
# Pages of a merged listing

Records with distinct keys, listed by descending key (`newestFirst`).  A page of the listing can be read from the
listings of the groups: the first `n` of every group have the first `n` of all among them, so merged they begin with
the same `n` (`take_merge`).  What lies above a bound comes first in the listing (`filter_take`).
-/

namespace MergedPages

variable {α γ κ : Type*} [LinearOrder κ] [DecidableEq γ] (key : α → κ) (group : α → γ)

/-- Sorted by descending key; records of one key keep their order. -/
def newestFirst (l : List α) : List α := l.insertionSort fun a b => key b ≤ key a

/-- Descending keys, all different. -/
def Descending (l : List α) : Prop := l.Pairwise fun a b => key b < key a

variable {key group} {l l' : List α} {n : Nat}

theorem newestFirst_perm (l : List α) : (newestFirst key l).Perm l := List.perm_insertionSort _ l

theorem Descending.nodup (h : Descending key l) : l.Nodup := List.Pairwise.imp (fun hlt heq => by simp [heq] at hlt) h

theorem Descending.filter (h : Descending key l) (p : α → Bool) : Descending key (l.filter p) :=
  List.Pairwise.filter p h

/-- There is one descending listing of some records. -/
theorem Descending.eq_of_perm (h : Descending key l) (h' : Descending key l') (hperm : l.Perm l') : l = l' :=
  hperm.eq_of_pairwise (fun _ _ _ _ hab hba => absurd hab hba.not_gt) h h'

theorem descending_newestFirst (h : (l.map key).Nodup) : Descending key (newestFirst key l) := by
  have : Std.Total fun a b : α => key b ≤ key a := ⟨fun a b => le_total (key b) (key a)⟩
  have : IsTrans α fun a b : α => key b ≤ key a := ⟨fun a b c hab hbc => hbc.trans hab⟩
  have hsorted : (newestFirst key l).Pairwise fun a b => key b ≤ key a := List.pairwise_insertionSort _ l
  have hdistinct : (newestFirst key l).Pairwise fun a b => key a ≠ key b :=
    List.pairwise_map.1 (((newestFirst_perm l).map key).nodup_iff.2 h)
  exact (hsorted.and hdistinct).imp fun hboth => lt_of_le_of_ne hboth.1 hboth.2.symm

/-- Records that are listed already are sorted into their listing. -/
theorem newestFirst_eq (h : Descending key l') (hperm : l.Perm l') : newestFirst key l = l' := by
  have hkeys : (l.map key).Nodup := by
    refine (hperm.map key).nodup_iff.2 (List.pairwise_map.2 (h.imp fun hlt heq => ?_))
    rw [heq] at hlt
    exact lt_irrefl _ hlt
  exact (descending_newestFirst hkeys).eq_of_perm h ((newestFirst_perm l).trans hperm)

/-- The first records stay the first when some of the others are left out. -/
private theorem take_filter_eq {p : α → Bool} (h : ∀ x ∈ l.take n, p x = true) : (l.filter p).take n = l.take n := by
  have hsplit : l.filter p = l.take n ++ (l.drop n).filter p := by
    conv_lhs => rw [← List.take_append_drop n l, List.filter_append, List.filter_eq_self.2 h]
  by_cases hlength : n ≤ l.length
  · have htake : (l.take n).length = n := List.length_take_of_le hlength
    rw [hsplit, List.take_append_of_le_length htake.ge, List.take_of_length_le htake.le]
  · have hnone : l.drop n = [] := List.drop_eq_nil_of_le (by omega)
    rw [hsplit, hnone, List.filter_nil, List.append_nil, List.take_take, Nat.min_self]

/-- A record among the first `n` is among the first `n` of those that it is listed with. -/
private theorem mem_take_filter {p : α → Bool} {x : α} (h : x ∈ l.take n) (hp : p x = true) :
    x ∈ (l.filter p).take n := by
  have hsplit : l.filter p = (l.take n).filter p ++ (l.drop n).filter p := by
    rw [← List.filter_append, List.take_append_drop]
  have hlength : ((l.take n).filter p).length ≤ n :=
    (List.length_filter_le _ _).trans (List.length_take_le n l)
  rw [hsplit, List.take_append, List.take_of_length_le hlength]
  exact List.mem_append_left _ (List.mem_filter.2 ⟨h, hp⟩)

/-- Records of different groups are different. -/
private theorem nodup_flatMap_group {groups : List γ} {f : γ → List α} (hnodup : groups.Nodup) (hl : l.Nodup)
    (hf : ∀ g, (f g).Sublist (l.filter (group · = g))) : (groups.flatMap f).Nodup := by
  refine List.nodup_flatMap.2 ⟨fun g _ => (hl.filter _).sublist (hf g), hnodup.imp fun hne => ?_⟩
  intro x hx hx'
  have hg := of_decide_eq_true (List.mem_filter.1 ((hf _).subset hx)).2
  have hg' := of_decide_eq_true (List.mem_filter.1 ((hf _).subset hx')).2
  exact hne (hg.symm.trans hg')

/-- The groups together. -/
theorem perm_flatMap_group {groups : List γ} (hnodup : groups.Nodup) (hcover : ∀ x ∈ l, group x ∈ groups)
    (hl : l.Nodup) : (groups.flatMap fun g => l.filter (group · = g)).Perm l := by
  have hgroups : (groups.flatMap fun g => l.filter (group · = g)).Nodup :=
    nodup_flatMap_group hnodup hl fun g => List.Sublist.refl _
  refine (List.perm_ext_iff_of_nodup hgroups hl).2 fun x => ?_
  rw [List.mem_flatMap]
  constructor
  · intro h
    obtain ⟨g, -, hx⟩ := h
    exact List.mem_of_mem_filter hx
  · intro h
    exact ⟨group x, hcover x h, List.mem_filter.2 ⟨h, decide_eq_true rfl⟩⟩

/-- The first `n` of all, from the first `n` of every group. -/
theorem take_merge {groups : List γ} (hnodup : groups.Nodup) (hcover : ∀ x ∈ l, group x ∈ groups)
    (hl : Descending key l) :
    (newestFirst key (groups.flatMap fun g => (l.filter (group · = g)).take n)).take n = l.take n := by
  classical
  set firsts := groups.flatMap fun g => (l.filter (group · = g)).take n
  have hfirstsNodup : firsts.Nodup := nodup_flatMap_group hnodup hl.nodup fun g => List.take_sublist _ _
  have hperm : firsts.Perm (l.filter (· ∈ firsts)) := by
    refine (List.perm_ext_iff_of_nodup hfirstsNodup (hl.nodup.filter _)).2 fun x => ?_
    rw [List.mem_filter, decide_eq_true_eq]
    refine ⟨fun hx => ⟨?_, hx⟩, fun hx => hx.2⟩
    obtain ⟨g, -, hx⟩ := List.mem_flatMap.1 hx
    exact List.mem_of_mem_filter (List.mem_of_mem_take hx)
  rw [newestFirst_eq (hl.filter _) hperm]
  refine take_filter_eq fun x hx => decide_eq_true (List.mem_flatMap.2 ⟨group x, ?_, ?_⟩)
  · exact hcover x (List.mem_of_mem_take hx)
  · exact mem_take_filter hx (decide_eq_true rfl)

/-- What lies above a bound comes first. -/
private theorem filter_eq_take (h : Descending key l) (bound : κ) :
    l.filter (bound ≤ key ·) = l.take (l.filter (bound ≤ key ·)).length := by
  induction l with
  | nil => rfl
  | cons x l ih =>
    obtain ⟨hx, htail⟩ := List.pairwise_cons.1 h
    by_cases hbound : bound ≤ key x
    · rw [List.filter_cons_of_pos (by simpa using hbound), List.length_cons, List.take_succ_cons, ← ih htail]
    · have hnone : l.filter (bound ≤ key ·) = [] := by
        refine List.filter_eq_nil_iff.2 fun y hy hle => hbound ?_
        exact (of_decide_eq_true hle).trans (hx y hy).le
      rw [List.filter_cons_of_neg (by simpa using hbound), hnone]
      rfl

/-- If at most `n` records lie above a bound, the first `n` have all of them. -/
theorem filter_take (h : Descending key l) (bound : κ) (hlength : (l.filter (bound ≤ key ·)).length ≤ n) :
    (l.take n).filter (bound ≤ key ·) = l.filter (bound ≤ key ·) := by
  have htake : l.filter (bound ≤ key ·) = (l.take n).take (l.filter (bound ≤ key ·)).length := by
    rw [List.take_take, Nat.min_eq_left hlength]
    exact filter_eq_take h bound
  refine List.Sublist.eq_of_length_le ((List.take_sublist n l).filter _) ?_
  have hall : ∀ x ∈ l.filter (bound ≤ key ·), (decide (bound ≤ key x)) = true := fun x hx => (List.mem_filter.1 hx).2
  calc (l.filter (bound ≤ key ·)).length
      = ((l.filter (bound ≤ key ·)).filter (bound ≤ key ·)).length := by rw [List.filter_eq_self.2 hall]
    _ ≤ ((l.take n).filter (bound ≤ key ·)).length := by
        conv_lhs => rw [htake]
        exact ((List.take_sublist _ _).filter _).length_le

end MergedPages
