import Mathlib

/-!
# Search of a graph with a stack

The loop that takes a node from a stack, and puts each of its successors that it has not seen onto the stack and at
the end of what it found.  It ends on every graph, as a round puts onto the stack only what it makes seen
(`measure_visitAll`); and it finds what can be reached from the node it started with, each once and without that node
(`mem_search`, `nodup_search`).
-/

namespace GraphSearch

open Relation

variable {α : Type*}

/-- A graph by the successors of each node, in an order and maybe several times, all of them among its `nodes`. -/
structure Graph (α : Type*) where
  nodes : List α
  next : α → List α
  next_subset : ∀ a, next a ⊆ nodes

def Graph.Edge (g : Graph α) (a b : α) : Prop := b ∈ g.next a

/-- The loop between two rounds; the top of the stack is first. -/
structure Progress (α : Type*) where
  seen : List α
  found : List α
  stack : List α

/-- Before the first round. -/
def Progress.start (root : α) : Progress α := ⟨[root], [], [root]⟩

/-- Between two rounds: what was seen is the root and what was found, all of it can be reached, and what is not on the
stack any more has all its successors seen. -/
structure Invariant (g : Graph α) (root : α) (s : Progress α) : Prop where
  seen : ∀ b, b ∈ s.seen ↔ b = root ∨ b ∈ s.found
  nodup : s.found.Nodup
  root_not_found : root ∉ s.found
  reachable : ∀ b ∈ s.seen, ReflTransGen g.Edge root b
  stack : s.stack ⊆ s.seen
  closed : ∀ a ∈ s.seen, a ∉ s.stack → g.next a ⊆ s.seen

theorem Invariant.start (g : Graph α) (root : α) : Invariant g root (.start root) where
  seen := fun b => by simp [Progress.start]
  nodup := List.nodup_nil
  root_not_found := List.not_mem_nil
  reachable := fun b hb => List.mem_singleton.1 hb ▸ ReflTransGen.refl
  stack := List.Subset.refl _
  closed := fun a ha hnot => absurd ha hnot

/-- With nothing on the stack, all that can be reached was seen. -/
private theorem Invariant.mem_seen {g : Graph α} {root b : α} {s : Progress α} (h : Invariant g root s)
    (hstack : s.stack = [])
    (hreach : ReflTransGen g.Edge root b) : b ∈ s.seen := by
  induction hreach with
  | refl => exact (h.seen root).2 (.inl rfl)
  | tail _ hedge ih => exact h.closed _ ih (by simp [hstack]) hedge

variable [DecidableEq α]

/-- A successor is considered. -/
def visit (s : Progress α) (b : α) : Progress α :=
  if b ∈ s.seen then s else ⟨b :: s.seen, s.found ++ [b], b :: s.stack⟩

def visitAll (s : Progress α) (l : List α) : Progress α := l.foldl visit s

/-- What the rounds that are left can put onto the stack, and what is on it. -/
def Graph.measure (g : Graph α) (s : Progress α) : Nat := (g.nodes.toFinset \ s.seen.toFinset).card + s.stack.length

private theorem measure_visit {g : Graph α} {s : Progress α} {b : α} (h : b ∈ g.nodes) :
    g.measure (visit s b) = g.measure s := by
  unfold visit
  split
  · rfl
  · next hseen =>
    have hmem : b ∈ g.nodes.toFinset \ s.seen.toFinset := by simpa using ⟨h, hseen⟩
    have hcard := Finset.card_erase_add_one hmem
    rw [Graph.measure, Graph.measure, List.toFinset_cons, Finset.sdiff_insert, List.length_cons]
    omega

private theorem measure_visitAll {g : Graph α} {l : List α} (h : l ⊆ g.nodes) (s : Progress α) :
    g.measure (visitAll s l) = g.measure s := by
  induction l generalizing s with
  | nil => rfl
  | cons b l ih =>
    rw [List.cons_subset] at h
    have hstep : visitAll s (b :: l) = visitAll (visit s b) l := rfl
    rw [hstep, ih h.2, measure_visit h.1]

/-- The loop: what it has found when the stack is empty. -/
def Graph.search (g : Graph α) (s : Progress α) : List α :=
  match _h : s.stack with
  | [] => s.found
  | a :: stack => g.search (visitAll ⟨s.seen, s.found, stack⟩ (g.next a))
termination_by g.measure s
decreasing_by
  rw [measure_visitAll (g.next_subset a)]
  simp [Graph.measure, _h]

variable {g : Graph α} {s : Progress α} {root : α}

private theorem search_nil (h : s.stack = []) : g.search s = s.found := by
  rw [Graph.search]
  split
  · rfl
  · next heq => rw [h] at heq; cases heq

private theorem search_cons {a : α} {stack : List α} (h : s.stack = a :: stack) :
    g.search s = g.search (visitAll ⟨s.seen, s.found, stack⟩ (g.next a)) := by
  rw [Graph.search]
  split
  · next heq => rw [h] at heq; cases heq
  · next heq =>
    rw [h] at heq
    cases heq
    rfl

/-- The successors that were not seen are what is new, each once, in all three. -/
private theorem visitAll_spec (s : Progress α) (l : List α) : ∃ new :
    List α, new.Nodup ∧ (∀ b, b ∈ new ↔ b ∈ l ∧ b ∉ s.seen) ∧
    visitAll s l = ⟨new.reverse ++ s.seen, s.found ++ new, new.reverse ++ s.stack⟩ := by
  induction l generalizing s with
  | nil => exact ⟨[], List.nodup_nil, by simp, by simp [visitAll]⟩
  | cons b l ih =>
    obtain ⟨new, hnodup, hmem, heq⟩ := ih (visit s b)
    have hstep : visitAll s (b :: l) = visitAll (visit s b) l := rfl
    by_cases hseen : b ∈ s.seen
    · rw [visit, if_pos hseen] at hmem heq
      refine ⟨new, hnodup, fun c => ?_, by rw [hstep, visit, if_pos hseen, heq]⟩
      rw [hmem, List.mem_cons]
      constructor
      · exact fun ⟨hc, hnot⟩ => ⟨.inr hc, hnot⟩
      · rintro ⟨rfl | hc, hnot⟩
        · exact absurd hseen hnot
        · exact ⟨hc, hnot⟩
    · rw [visit, if_neg hseen] at hmem heq
      refine ⟨b :: new, ?_, fun c => ?_, by rw [hstep, visit, if_neg hseen, heq]; simp⟩
      · rw [List.nodup_cons, hmem]
        exact ⟨fun h => h.2 List.mem_cons_self, hnodup⟩
      · rw [List.mem_cons, hmem, List.mem_cons, List.mem_cons]
        constructor
        · rintro (rfl | ⟨hc, hnot⟩)
          · exact ⟨.inl rfl, hseen⟩
          · exact ⟨.inr hc, fun h => hnot (.inr h)⟩
        · rintro ⟨hc, hnot⟩
          by_cases hcb : c = b
          · exact .inl hcb
          · exact .inr ⟨hc.resolve_left hcb, fun h => h.elim hcb hnot⟩

/-- A round keeps the invariant. -/
theorem Invariant.round (h : Invariant g root s) {a : α} {stack : List α} (hstack : s.stack = a :: stack) :
    Invariant g root (visitAll ⟨s.seen, s.found, stack⟩ (g.next a)) := by
  obtain ⟨new, hnodup, hmem, heq⟩ := visitAll_spec ⟨s.seen, s.found, stack⟩ (g.next a)
  have hunseen : ∀ b ∈ new, b ∉ s.seen := fun b hb => ((hmem b).1 hb).2
  have ha : a ∈ s.seen := h.stack (hstack ▸ List.mem_cons_self)
  rw [heq]
  constructor
  · intro b
    simp only [List.mem_append, List.mem_reverse, h.seen]
    exact or_left_comm.trans (or_congr_right or_comm)
  · refine List.nodup_append.2 ⟨h.nodup, hnodup, fun b hb c hc hbc => ?_⟩
    exact hunseen c hc (hbc ▸ (h.seen b).2 (.inr hb))
  · intro hroot
    rcases List.mem_append.1 hroot with hroot | hroot
    · exact h.root_not_found hroot
    · exact hunseen root hroot ((h.seen root).2 (.inl rfl))
  · intro b hb
    rcases List.mem_append.1 hb with hb | hb
    · exact (h.reachable a ha).tail ((hmem b).1 (List.mem_reverse.1 hb)).1
    · exact h.reachable b hb
  · intro b hb
    rcases List.mem_append.1 hb with hb | hb
    · exact List.mem_append_left _ hb
    · exact List.mem_append_right _ (h.stack (hstack ▸ List.mem_cons_of_mem _ hb))
  · intro b hb hnot c hc
    rw [List.mem_append, not_or] at hnot
    have hb : b ∈ s.seen := (List.mem_append.1 hb).resolve_left hnot.1
    by_cases hc' : c ∈ s.seen
    · exact List.mem_append_right _ hc'
    · by_cases hba : b = a
      · subst hba
        exact List.mem_append_left _ (List.mem_reverse.2 ((hmem c).2 ⟨hc, hc'⟩))
      · -- its successors were seen when its own round ended
        have hnotstack : b ∉ s.stack := by
          rw [hstack, List.mem_cons, not_or]
          exact ⟨hba, hnot.2⟩
        exact absurd (h.closed b hb hnotstack hc) hc'

/-- At the end. -/
theorem Invariant.search (h : Invariant g root s) :
    (g.search s).Nodup ∧ ∀ b, b ∈ g.search s ↔ b ≠ root ∧ ReflTransGen g.Edge root b := by
  induction hn : g.measure s using Nat.strong_induction_on generalizing s with
  | _ n ih =>
    cases hstack : s.stack with
    | nil =>
      rw [search_nil hstack]
      refine ⟨h.nodup, fun b => ⟨fun hb => ⟨?_, h.reachable b ((h.seen b).2 (.inr hb))⟩, fun ⟨hne, hreach⟩ => ?_⟩⟩
      · rintro rfl
        exact h.root_not_found hb
      · exact ((h.seen b).1 (h.mem_seen hstack hreach)).resolve_left hne
    | cons a stack =>
      rw [search_cons hstack]
      refine ih _ ?_ (h.round hstack) rfl
      rw [measure_visitAll (g.next_subset a), ← hn]
      simp [Graph.measure, hstack]

theorem nodup_search (g : Graph α) (root : α) : (g.search (.start root)).Nodup := (Invariant.start g root).search.1

/-- What the search finds is what can be reached from the root, without the root. -/
theorem mem_search {b : α} : b ∈ g.search (.start root) ↔ b ≠ root ∧ ReflTransGen g.Edge root b :=
  (Invariant.start g root).search.2 b

end GraphSearch
