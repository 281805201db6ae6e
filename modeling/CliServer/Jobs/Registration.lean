import CliServer.Text

/-!
# Job ids

The id `CliJobScheduler.register` gives a job.  It is part of the URLs of the jobs API.
-/

namespace CliServer

/-- `_UNSAFE_ID_CHARS`. -/
def unsafeIdChars : List Char := ['/', '\\', '?', '#']

inductive RegisterError where
  | badId (id : Str)
  | duplicateId (id : Str)
  deriving DecidableEq

/-- The first of `base-n`, `base-(n+1)`, ... that no job has; of the last `fuel + 1` of them one is free. -/
def suffixedId (registered : List Str) (base : Str) (n : Nat) : Nat → Str
  | 0 => base ++ '-' :: (toString n).toList
  | fuel + 1 =>
    let jobId := base ++ '-' :: (toString n).toList
    if jobId ∈ registered then suffixedId registered base (n + 1) fuel else jobId

/-- `register`: the id of a job registered after those with the ids `registered`. -/
def registerId (registered : List Str) (id : Option Str) (name : Str) : Except RegisterError Str :=
  match id with
  | some id =>
    if strip id = [] ∨ id.any fun c => c ∈ unsafeIdChars then .error (.badId id)
    else if id ∈ registered then .error (.duplicateId id)
    else .ok id
  | none =>
    let base := name.map fun c => if c ∈ unsafeIdChars then '-' else c
    .ok (if base ∈ registered then suffixedId registered base 2 registered.length else base)

/-! ### The id is new and safe -/

/-- `base-n`. -/
def suffixed (base : Str) (n : Nat) : Str := base ++ '-' :: (toString n).toList

private theorem suffixed_injective (base : Str) : Function.Injective (suffixed base) := by
  intro n m h
  have hdigits : (toString n).toList = (toString m).toList := (List.cons.inj (List.append_cancel_left h)).2
  exact Nat.repr_injective (String.toList_inj.1 hdigits)

/-- The loop ends with an id that is free, if there is one among those it goes through. -/
private theorem suffixedId_notMem {registered : List Str} {base : Str} {n fuel : Nat}
    (h : ∃ k ≤ fuel, suffixed base (n + k) ∉ registered) : suffixedId registered base n fuel ∉ registered := by
  induction fuel generalizing n with
  | zero =>
    obtain ⟨k, hk, hfree⟩ := h
    rw [Nat.le_zero.1 hk] at hfree
    exact hfree
  | succ fuel ih =>
    rw [suffixedId]
    split
    next htaken =>
      obtain ⟨k, hk, hfree⟩ := h
      cases k with
      | zero => exact absurd htaken hfree
      | succ k =>
        refine ih ⟨k, by omega, ?_⟩
        rw [Nat.add_assoc, Nat.add_comm 1 k]
        exact hfree
    next hfree => exact hfree

private theorem exists_suffixedId {registered : List Str} {base : Str} {n fuel : Nat} :
    ∃ k, suffixedId registered base n fuel = suffixed base k := by
  induction fuel generalizing n with
  | zero => exact ⟨n, rfl⟩
  | succ fuel ih =>
    rw [suffixedId]
    split
    · exact ih
    · exact ⟨n, rfl⟩

/-- One of more suffixed ids than there are jobs is free. -/
private theorem exists_free_suffix (registered : List Str) (base : Str) (n : Nat) :
    ∃ k ≤ registered.length, suffixed base (n + k) ∉ registered := by
  by_contra h
  push Not at h
  have hsub : (List.range (registered.length + 1)).map (fun k => suffixed base (n + k)) ⊆ registered := by
    intro id hid
    obtain ⟨k, hk, rfl⟩ := List.mem_map.1 hid
    exact h k (Nat.lt_succ_iff.1 (List.mem_range.1 hk))
  have hnodup : ((List.range (registered.length + 1)).map fun k => suffixed base (n + k)).Nodup := by
    refine List.nodup_range.map fun k l hkl => ?_
    exact Nat.add_left_cancel (suffixed_injective base hkl)
  have hlength := (hnodup.subperm hsub).length_le
  rw [List.length_map, List.length_range] at hlength
  omega

/-- A job gets an id that no other has. -/
theorem registerId_notMem {registered : List Str} {id : Option Str} {name id' : Str}
    (h : registerId registered id name = .ok id') : id' ∉ registered := by
  unfold registerId at h
  cases id with
  | some id =>
    dsimp only at h
    split at h
    · cases h
    · split at h
      · cases h
      next hfree =>
        cases h
        exact hfree
  | none =>
    dsimp only at h
    cases h
    split
    · exact suffixedId_notMem (exists_free_suffix _ _ _)
    next hfree => exact hfree

/-- An id has no character that a URL's path cannot have in one of its segments. -/
theorem registerId_safe {registered : List Str} {id : Option Str} {name id' : Str}
    (h : registerId registered id name = .ok id') : ∀ c ∈ id', c ∉ unsafeIdChars := by
  unfold registerId at h
  cases id with
  | some id =>
    dsimp only at h
    split at h
    · cases h
    next hvalid =>
      have hsafe : ∀ c ∈ id, c ∉ unsafeIdChars := by simpa using (not_or.1 hvalid).2
      split at h
      · cases h
      · cases h
        exact hsafe
  | none =>
    have hbase : ∀ c ∈ name.map (fun c => if c ∈ unsafeIdChars then '-' else c), c ∉ unsafeIdChars := by
      intro c hc
      obtain ⟨d, -, rfl⟩ := List.mem_map.1 hc
      split
      · decide
      next hsafe => exact hsafe
    dsimp only at h
    cases h
    split
    · obtain ⟨k, hk⟩ := @exists_suffixedId registered (name.map fun c => if c ∈ unsafeIdChars then '-' else c) 2
        registered.length
      rw [hk]
      intro c hc
      rcases List.mem_append.1 hc with hc | hc
      · exact hbase c hc
      · rcases List.mem_cons.1 hc with rfl | hc
        · decide
        · have hdigit : c.isDigit = true := by
            have hrepr : c ∈ Nat.toDigits 10 k := by
              rw [← Nat.toList_repr]
              exact hc
            exact Nat.isDigit_of_mem_toDigits (by omega) (by omega) hrepr
          rintro hunsafe
          simp only [unsafeIdChars, List.mem_cons, List.not_mem_nil, or_false] at hunsafe
          rcases hunsafe with rfl | rfl | rfl | rfl <;> cases hdigit
    · exact hbase

end CliServer
