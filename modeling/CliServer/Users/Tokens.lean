import CliServer.Users.Store

/-!
# Scoped API tokens

A scoped token keeps the entries of its scope that the user holds as a whole.  That is less than the intersection of the
scope with the user's permissions where a scope entry has wildcards: `users:*` in the scope gives nothing to a user who
holds `users:read` only.  `scoped_token_can` says what the token may do.
-/

namespace CliServer

variable {t : CaseTable}

/-- A scope entry without `*`. -/
def Plain (t : CaseTable) (p : Str) : Prop := ['*'] ∉ segments t p

private theorem hasPermission_plain {permissions : List Str} {p r : Str} (hp : Plain t p)
    (hpr : permissionMatches t p r = true) : hasPermission t permissions p = hasPermission t permissions r := by
  have heq : segments t p = segments t r := Wildcard.eq_of_accepts hpr hp
  simp only [hasPermission, permissionMatches, heq]

/-- A token with scope `scope` may do `r` when an entry of the scope that its user holds as a whole matches `r`; then
the scope matches `r`, and so do the user's permissions when the user holds the stems of the entries that end in `:*`.
With a scope without wildcards the token may do what both the scope and the user's permissions match. -/
theorem scoped_token_can (t : CaseTable) {s : Stores} {record : ApiToken} {now : Nat} {scope : List Str}
    {ctx : AuthContext} (hscope : record.permissions = some scope)
    (hctx : contextForApiToken t s record now = .ok ctx) (r : Str) :
    ctx.user ∈ s.users ∧ ctx.user.id = record.userId ∧ ctx.user.disabled = false ∧
    (ctx.can t r = true ↔
      ∃ p ∈ scope, hasPermission t (s.userPermissions t ctx.user) p = true ∧ permissionMatches t p r = true) ∧
    (ctx.can t r = true → hasPermission t scope r = true) ∧
    ((∀ p ∈ scope, validPermission p = true) →
      (∀ p ∈ scope, ∀ b, IsStem p b → hasPermission t (s.userPermissions t ctx.user) p = true →
        hasPermission t (s.userPermissions t ctx.user) b = true) →
      ctx.can t r = true → hasPermission t (s.userPermissions t ctx.user) r = true) ∧
    ((∀ p ∈ scope, Plain t p) →
      (ctx.can t r = true ↔
        hasPermission t (s.userPermissions t ctx.user) r = true ∧ hasPermission t scope r = true)) := by
  obtain ⟨-, user, hmem, hid, hdisabled, rfl⟩ := contextForApiToken_eq_ok.1 hctx
  have hcan : hasPermission t (scope.filter fun p => hasPermission t (s.userPermissions t user) p) r = true ↔
      ∃ p ∈ scope, hasPermission t (s.userPermissions t user) p = true ∧ permissionMatches t p r = true := by
    simp [hasPermission_iff, List.mem_filter, and_assoc]
  simp only [AuthContext.can, hscope]
  rw [hcan]
  refine ⟨hmem, hid, hdisabled, Iff.rfl, ?_, ?_, ?_⟩
  · rintro ⟨p, hp, -, hpr⟩
    exact hasPermission_iff.2 ⟨p, hp, hpr⟩
  · rintro hvalid hstems ⟨p, hp, hheld, hpr⟩
    exact @hasPermission_of_covers t _ [p] r (by simpa using hvalid p hp) (by simpa [covers] using hheld)
      (by simpa using fun b hb => hstems p hp b hb hheld) (by simpa [hasPermission] using hpr)
  · intro hplain
    constructor
    · rintro ⟨p, hp, hheld, hpr⟩
      rw [hasPermission_plain (hplain p hp) hpr] at hheld
      exact ⟨hheld, hasPermission_iff.2 ⟨p, hp, hpr⟩⟩
    · rintro ⟨hheld, hr⟩
      obtain ⟨p, hp, hpr⟩ := hasPermission_iff.1 hr
      exact ⟨p, hp, by rwa [hasPermission_plain (hplain p hp) hpr], hpr⟩

/-- A user of a group with `users:read`, whose token has the scope `users:*`. -/
def readerStores (permission : Str) : Stores where
  users := [⟨"u1".toList, "ann".toList, "ann@localhost".toList, ["readers".toList], false, none⟩]
  groups := [("readers".toList, ⟨"readers".toList, none, [permission], false⟩)]
  tokens := []
  users_nodup := by simp

/-- A token of that user. -/
def readerToken (scope : List Str) : ApiToken := ⟨"t1".toList, "u1".toList, "ci".toList, none, some scope⟩

theorem scoped_token_can_read :
    let t : CaseTable := fun _ c _ => [c]
    let s := readerStores "users:*".toList
    ∃ ctx, contextForApiToken t s (readerToken ["users:read".toList]) 0 = .ok ctx ∧
      (ctx.can t "users:read".toList = true ↔ ∃ p ∈ ["users:read".toList],
        hasPermission t (s.userPermissions t ctx.user) p = true ∧
        permissionMatches t p "users:read".toList = true) := by
  intro t s
  have hctx : contextForApiToken t s (readerToken ["users:read".toList]) 0 = .ok _ := rfl
  exact ⟨_, hctx, (scoped_token_can t rfl hctx _).2.2.2.1⟩

/-- The user may read users, the scope grants it, and the token may not. -/
theorem scoped_token_not_intersection :
    let t : CaseTable := fun _ c _ => [c]
    let s := readerStores "users:read".toList
    (contextForApiToken t s (readerToken ["users:*".toList]) 0).toOption.map (fun ctx =>
      (ctx.can t "users:read".toList, hasPermission t (s.userPermissions t ctx.user) "users:read".toList,
        hasPermission t ["users:*".toList] "users:read".toList)) = some (false, true, true) := by
  decide

end CliServer
