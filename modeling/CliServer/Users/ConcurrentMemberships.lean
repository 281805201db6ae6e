import CliServer.Lib.Linearization
import CliServer.Users.MembershipPrograms

/-!
# Membership requests at the same time

Between the read of a user and the write of its groups other requests may run, and between the writes of `delete_group`
and the deletion of the group.  So a write may undo another one (`concurrent_adds_lose_one`), or put the user in a group
that is gone.  Where no write does so (`ReadsStand`), the user's groups are in the end those that the answered requests
leave one after another, in some order (`memberships_sequential`): the other requests act where they write the user's
groups or find nothing to do, the deletion of a group where it takes the group out of its store.
-/

namespace CliServer

open Process Transition Linearization

variable (t : CaseTable)

/-! ### One after another -/

/-- Whether the groups that a request names are there. -/
def MembershipRequest.groupsThere (s : Stores) : MembershipRequest → Bool
  | .addMember _ name _ | .removeMember _ name _ | .deleteGroup name => (s.getGroup t name).isSome
  | .updateUser _ _ names => (resolveGroups t s (some names)).toOption.isSome

/-- The stores after a request that has passed its caller's checks, alone; it is refused where its groups are not there.
-/
def MembershipRequest.applied (o : StoreOptions) (s : Stores) : MembershipRequest → Stores
  | .addMember _ name idOrName =>
    match s.getGroup t name, s.getUser t idOrName with
    | some group, some user => s.updateUser user.id { groups := some (joinGroup t group.name user.groups) }
    | _, _ => s
  | .removeMember _ name idOrName =>
    match s.getGroup t name, s.getUser t idOrName with
    | some group, some user => s.updateUser user.id { groups := some (leaveGroup t group.name user.groups) }
    | _, _ => s
  | .deleteGroup name =>
    match s.getGroup t name with
    | some group =>
      let left := if o.readOnlyUsers then s else s.mapUsers (·.leave t group.name) fun _ => rfl
      { left with groups := left.groups.filter (·.1 ≠ lower t group.name) }
    | none => s
  | .updateUser _ idOrName names =>
    match resolveGroups t s (some names), s.getUser t idOrName with
    | .ok resolved, some user => s.updateUser user.id { groups := some resolved }
    | _, _ => s

/-! ### Requests on their way -/

abbrev MembershipProcess : Type := Running MembershipRequest StoreCall StoreCall.Answer UsersApiError Unit

abbrev MembershipPool : Type := Pool Stores MembershipRequest StoreCall StoreCall.Answer UsersApiError Unit

/-- The call that a request awaits. -/
def awaited (p : MembershipProcess) : Option StoreCall :=
  match p.code with
  | .await c _ => some c
  | .done _ => none

/-- Whether a request has been answered. -/
def ended (p : MembershipProcess) : Bool := (awaited p).isNone

/-- Whether a request has been answered without an error. -/
def completed (p : MembershipProcess) : Bool :=
  match p.code with
  | .done (.ok _) => true
  | _ => false

/-- Whether a request may put a user in a group. -/
def MembershipRequest.adds : MembershipRequest → Bool
  | .addMember .. | .updateUser .. => true
  | .removeMember .. | .deleteGroup _ => false

/-- What a request does now, on the stores `s`, to the user with the groups `groups`.  A write of the user's groups is
what the request makes of the groups there are, too, and puts the user in groups that are there; and a group is deleted
when the user is not in it. -/
def Stands (o : StoreOptions) (s₀ : Stores) (id : Str) (s : Stores) (groups : List Str) (p : MembershipProcess) :
    StoreCall → Prop
  | .updateUser id' _ => id' = id → (p.op.adds = true → p.op.groupsThere t s = true) ∧
      ∀ read ∈ seen id p.trace, p.op.change t o s₀ id read = p.op.change t o s₀ id groups
  | .deleteGroup name => o.readOnlyUsers = true ∨ ∀ g ∈ groups, lower t g ≠ lower t name
  | _ => True

/-- What is done to the user is not made of something that is no longer so. -/
def ReadsStand (o : StoreOptions) (s₀ : Stores) (id : Str) (s : MembershipPool) : PoolAction MembershipRequest → Prop
  | .start _ => True
  | .answer i => ∀ p ∈ s.processes[i]?, ∀ c ∈ awaited p, ∀ groups ∈ s.store.groupsOf id,
      Stands t o s₀ id s.store groups p c

instance (o : StoreOptions) (s₀ : Stores) (id : Str) (s : Stores) (groups : List Str) (p : MembershipProcess)
    (c : StoreCall) : Decidable (Stands t o s₀ id s groups p c) :=
  match c with
  | .updateUser id' _ => inferInstanceAs (Decidable (id' = id → (p.op.adds = true → p.op.groupsThere t s = true) ∧
      ∀ read ∈ seen id p.trace, p.op.change t o s₀ id read = p.op.change t o s₀ id groups))
  | .deleteGroup name =>
    inferInstanceAs (Decidable (o.readOnlyUsers = true ∨ ∀ g ∈ groups, lower t g ≠ lower t name))
  | .getUser _ | .getUsers | .getGroup _ | .revokeUserSessions _ | .audit _ | .publish _ =>
    inferInstanceAs (Decidable True)

instance (o : StoreOptions) (s₀ : Stores) (id : Str) (s : MembershipPool) (a : PoolAction MembershipRequest) :
    Decidable (ReadsStand t o s₀ id s a) :=
  match a with
  | .start _ => inferInstanceAs (Decidable True)
  | .answer i => inferInstanceAs (Decidable (∀ p ∈ s.processes[i]?, ∀ c ∈ awaited p, ∀ groups ∈ s.store.groupsOf id,
      Stands t o s₀ id s.store groups p c))

/-- The stores after these requests, one after another. -/
def inOrder (o : StoreOptions) (s₀ : Stores) (s : MembershipPool) (order : List Nat) : Stores :=
  order.foldl (fun stores i => match s.processes[i]? with
    | some p => p.op.applied t o stores
    | none => stores) s₀

variable {t} {o : StoreOptions} {s₀ s s' : Stores} {id : Str} {op : MembershipRequest}
  {tr : Trace StoreCall StoreCall.Answer}

/-! ### What a request does alone -/

private theorem resolveFrom_congr (h : ∀ name, s.getGroup t name = s'.getGroup t name) (out names : List Str) :
    resolveFrom t s out names = resolveFrom t s' out names := by
  induction names generalizing out with
  | nil => rfl
  | cons raw rest ih =>
    simp only [resolveFrom, h]
    split
    · exact ih out
    · split
      · rfl
      · split
        · exact ih out
        · exact ih _

/-- Names that resolve resolve as they did at the start. -/
private theorem Kin.resolveFrom (h : Kin t s₀ s) {out names resolved : List Str}
    (hresolved : resolveFrom t s out names = .ok resolved) : resolveFrom t s₀ out names = .ok resolved := by
  induction names generalizing out with
  | nil => exact hresolved
  | cons raw rest ih =>
    simp only [CliServer.resolveFrom] at hresolved ⊢
    split
    · rename_i hblank
      rw [if_pos hblank] at hresolved
      exact ih hresolved
    · rename_i hblank
      rw [if_neg hblank] at hresolved
      split at hresolved
      · cases hresolved
      · rename_i group hgroup
        have hstart : (if (strip raw).length ≤ nameMax then s₀.getGroup t (strip raw) else none) = some group := by
          split at hgroup
          · rename_i hlength
            rw [if_pos hlength]
            exact h.getGroup hgroup
          · cases hgroup
        rw [hstart]
        dsimp only
        split
        · rename_i hin
          rw [if_pos hin] at hresolved
          exact ih hresolved
        · rename_i hout
          rw [if_neg hout] at hresolved
          exact ih hresolved

private theorem groupsThere_congr (h : ∀ name, s.getGroup t name = s'.getGroup t name) (op : MembershipRequest) :
    op.groupsThere t s = op.groupsThere t s' := by
  cases op with
  | updateUser caller idOrName names =>
    simp only [MembershipRequest.groupsThere, resolveGroups, resolveFrom_congr h]
  | _ => simp only [MembershipRequest.groupsThere, h]

private theorem groupsOf_leave {groups : List Str} (group : Str) (h : s.groupsOf id = some groups) :
    (s.mapUsers (·.leave t group) fun _ => rfl).groupsOf id = some (leaveGroup t group groups) := by
  obtain ⟨user, huser, rfl, rfl⟩ := mem_of_groupsOf h
  rw [show leaveGroup t group user.groups = (user.leave t group).groups from rfl,
    show user.id = (user.leave t group).id from rfl]
  exact groupsOf_of_mem (List.mem_map_of_mem huser)

/-- What a write of one user's groups, made of those groups, leaves. -/
private theorem groupsOf_write {groups : List Str} {idOrName : Str} (hkin : Kin t s₀ s) {user : User}
    (huser : s.getUser t idOrName = some user) (h : s.groupsOf id = some groups) (change : List Str → List Str) :
    (s.updateUser user.id { groups := some (change user.groups) }).groupsOf id =
      some (if IsFor t s₀ id idOrName then change groups else groups) := by
  rw [groupsOf_updateUser h, hkin.isFor huser id]
  by_cases hid : user.id = id
  · subst hid
    have hgroups := groupsOf_of_mem (Stores.mem_of_getUser huser)
    rw [h] at hgroups
    obtain rfl := Option.some.inj hgroups
    simp
  · simp [hid]

/-- A request for a user that is not there is for no user. -/
private theorem isFor_of_getUser_none (hkin : Kin t s₀ s) {idOrName : Str} (h : s.getUser t idOrName = none) :
    IsFor t s₀ id idOrName = false := by
  have hsame := hkin.getUser idOrName
  rw [h, Option.map_none] at hsame
  rw [IsFor, Option.map_eq_none_iff.1 hsame.symm]
  rfl

/-- Alone a request makes of the user's groups what it would write for them, if it is for the user and its groups are
there. -/
private theorem groupsOf_applied (hkin : Kin t s₀ s) {groups : List Str} (h : s.groupsOf id = some groups)
    (op : MembershipRequest) : (op.applied t o s).groupsOf id =
      some (if op.isFor t s₀ id = true ∧ op.groupsThere t s = true then op.change t o s₀ id groups else groups) := by
  cases op with
  | addMember caller name idOrName =>
    simp only [MembershipRequest.applied, MembershipRequest.isFor, MembershipRequest.groupsThere,
      MembershipRequest.change]
    rcases Option.eq_none_or_eq_some (s.getGroup t name) with hgroup | ⟨group, hgroup⟩
    · simpa [hgroup] using h
    · rcases Option.eq_none_or_eq_some (s.getUser t idOrName) with huser | ⟨user, huser⟩
      · simpa [hgroup, huser, isFor_of_getUser_none hkin huser] using h
      · simp only [hgroup, huser, hkin.getGroup hgroup]
        refine (groupsOf_write hkin huser h (joinGroup t group.name)).trans ?_
        cases IsFor t s₀ id idOrName <;> simp
  | removeMember caller name idOrName =>
    simp only [MembershipRequest.applied, MembershipRequest.isFor, MembershipRequest.groupsThere,
      MembershipRequest.change]
    rcases Option.eq_none_or_eq_some (s.getGroup t name) with hgroup | ⟨group, hgroup⟩
    · simpa [hgroup] using h
    · rcases Option.eq_none_or_eq_some (s.getUser t idOrName) with huser | ⟨user, huser⟩
      · simpa [hgroup, huser, isFor_of_getUser_none hkin huser] using h
      · simp only [hgroup, huser, hkin.getGroup hgroup]
        refine (groupsOf_write hkin huser h (leaveGroup t group.name)).trans ?_
        cases IsFor t s₀ id idOrName <;> simp
  | deleteGroup name =>
    simp only [MembershipRequest.applied, MembershipRequest.isFor, MembershipRequest.groupsThere,
      MembershipRequest.change]
    rcases Option.eq_none_or_eq_some (s.getGroup t name) with hgroup | ⟨group, hgroup⟩
    · simpa [hgroup] using h
    · simp only [hgroup, hkin.getGroup hgroup, Option.isSome_some, and_self, if_true]
      cases hown : o.readOnlyUsers with
      | true => exact h
      | false => exact groupsOf_leave group.name h
  | updateUser caller idOrName names =>
    simp only [MembershipRequest.applied, MembershipRequest.isFor, MembershipRequest.groupsThere,
      MembershipRequest.change]
    have hresolves : (∃ e, resolveGroups t s (some names) = .error e) ∨
        ∃ resolved, resolveGroups t s (some names) = .ok resolved := by
      cases resolveGroups t s (some names) <;> simp
    rcases hresolves with ⟨e, hunknown⟩ | ⟨resolved, hresolved⟩
    · simpa [hunknown, Except.toOption] using h
    · simp only [hresolved]
      have hstart : resolveGroups t s₀ (some names) = .ok resolved := hkin.resolveFrom hresolved
      rcases Option.eq_none_or_eq_some (s.getUser t idOrName) with huser | ⟨user, huser⟩
      · simpa [hstart, huser, isFor_of_getUser_none hkin huser] using h
      · simp only [hstart, huser]
        refine (groupsOf_write hkin huser h fun _ => resolved).trans ?_
        cases IsFor t s₀ id idOrName <;> simp [Except.toOption]

private theorem kin_updateUser (h : Kin t s₀ s) (id : Str) (groups : List Str) :
    Kin t s₀ (s.updateUser id { groups := some groups }) :=
  h.answer (c := .updateUser id { groups := some groups }) fun _ _ heq => by
    obtain ⟨-, rfl⟩ := StoreCall.updateUser.inj heq
    exact ⟨groups, rfl⟩

private theorem getGroup_dropped (t : CaseTable) (s : Stores) (key name : Str) :
    (StoreCall.answer t s (.deleteGroup key)).2.getGroup t name =
      if lower t name = lower t key then none else s.getGroup t name := by
  split
  · rename_i heq
    rw [Stores.getGroup, Option.map_eq_none_iff, List.find?_eq_none]
    intro e he hkey
    have hne := (List.mem_filter.1 he).2
    simp only [decide_eq_true_eq] at hkey hne
    exact hne (hkey.trans heq)
  · rename_i heq
    exact getGroup_filter rfl heq

/-- Alone a request deletes its group, or none. -/
private theorem getGroup_applied (hkin : Kin t s₀ s) (hkeys : ∀ e ∈ s₀.groups, e.1 = lower t e.2.name)
    (op : MembershipRequest)
    (name : Str) : (op.applied t o s).getGroup t name =
      match op with
      | .deleteGroup deleted => if lower t name = lower t deleted then none else s.getGroup t name
      | _ => s.getGroup t name := by
  cases op with
  | addMember caller group idOrName => simp only [MembershipRequest.applied]; split <;> rfl
  | removeMember caller group idOrName => simp only [MembershipRequest.applied]; split <;> rfl
  | updateUser caller idOrName names => simp only [MembershipRequest.applied]; split <;> rfl
  | deleteGroup deleted =>
    simp only [MembershipRequest.applied]
    cases hgroup : s.getGroup t deleted with
    | none =>
      dsimp only
      split
      · rename_i heq
        rw [getGroup_congr heq, hgroup]
      · rfl
    | some group =>
      have hdropped := getGroup_dropped t s group.name name
      rw [key_of_getGroup hkeys (hkin.getGroup hgroup)] at hdropped
      rw [← hdropped]
      refine getGroup_of_groups ?_ name
      cases o.readOnlyUsers <;> rfl

theorem Kin.applied (h : Kin t s₀ s) (hkeys : ∀ e ∈ s₀.groups, e.1 = lower t e.2.name) (op : MembershipRequest) :
    Kin t s₀ (op.applied t o s) := by
  refine ⟨?_, fun name => ?_⟩
  · cases op with
    | addMember caller group idOrName =>
      simp only [MembershipRequest.applied]
      split
      · exact (kin_updateUser h _ _).users
      · exact h.users
    | removeMember caller group idOrName =>
      simp only [MembershipRequest.applied]
      split
      · exact (kin_updateUser h _ _).users
      · exact h.users
    | updateUser caller idOrName names =>
      simp only [MembershipRequest.applied]
      split
      · exact (kin_updateUser h _ _).users
      · exact h.users
    | deleteGroup deleted =>
      simp only [MembershipRequest.applied]
      split
      · rw [← h.users]
        cases o.readOnlyUsers with
        | true => rfl
        | false =>
          show (s.users.map _).map User.forgetGroups = _
          rw [List.map_map]
          rfl
      · exact h.users
  · rw [getGroup_applied h hkeys]
    cases op with
    | deleteGroup deleted =>
      dsimp only
      split
      · exact .inl rfl
      · exact h.groups name
    | _ => exact h.groups name

/-! ### Groups that are being deleted -/

/-- The lists name the same groups, but for those that `gone` tells. -/
def Alike (gone : Str → Bool) (groups groups' : List Str) : Prop :=
  groups.filter (!gone ·) = groups'.filter (!gone ·)

/-- The group that the deletion of a group has taken from the user. -/
def groupLeft (id : Str) (p : MembershipProcess) : Option Str :=
  match p.op with
  | .deleteGroup name => if wrote id p.trace then some name else none
  | _ => none

/-- Whether a group is one that the user has left and that is still to be deleted. -/
def leaving (t : CaseTable) (o : StoreOptions) (id : Str) (s : MembershipPool) (g : Str) : Bool :=
  !o.readOnlyUsers && s.processes.any fun p =>
    (groupLeft id p).any fun name => (s.store.getGroup t name).isSome && lower t g = lower t name

/-- What the requests that have acted make of the stores, one after another, against the stores there are. -/
structure StandsFor (t : CaseTable) (o : StoreOptions) (s₀ : Stores) (id : Str) (s : MembershipPool) (v : Stores) :
    Prop where
  kin : Kin t s₀ v
  group : ∀ name, v.getGroup t name = s.store.getGroup t name
  groups : ∃ mine groups, v.groupsOf id = some mine ∧ s.store.groupsOf id = some groups ∧
    Alike (leaving t o id s) mine groups

section Alike

variable {gone gone' : Str → Bool} {groups groups' : List Str}

theorem Alike.mono (h : Alike gone groups groups') (hgone : ∀ g, gone g = true → gone' g = true) :
    Alike gone' groups groups' := by
  have hfilter : ∀ l : List Str, l.filter (!gone' ·) = (l.filter (!gone ·)).filter (!gone' ·) := by
    intro l
    rw [List.filter_filter]
    refine List.filter_congr fun g _ => ?_
    cases hg : gone g with
    | false => simp
    | true => simp [hgone g hg]
  unfold Alike
  rw [hfilter groups, hfilter groups', h]

private theorem filter_leaveGroup (group : Str) (groups : List Str) :
    (leaveGroup t group groups).filter (!gone ·) = leaveGroup t group (groups.filter (!gone ·)) := by
  rw [leaveGroup, leaveGroup, List.filter_filter, List.filter_filter]
  simp only [Bool.and_comm]

private theorem filter_joinGroup (hlower : ∀ g g', lower t g = lower t g' → gone g = gone g') (group : Str)
    (groups : List Str) : (joinGroup t group groups).filter (!gone ·) =
      if gone group = true then groups.filter (!gone ·) else joinGroup t group (groups.filter (!gone ·)) := by
  unfold joinGroup
  by_cases hgroup : gone group = true
  · rw [if_pos hgroup]
    split
    · rfl
    · simp [List.filter_append, hgroup]
  · have hin : ((groups.filter (!gone ·)).any fun g => lower t g = lower t group) =
        groups.any fun g => lower t g = lower t group := by
      rw [Bool.eq_iff_iff]
      simp only [List.any_eq_true, List.mem_filter, decide_eq_true_eq]
      constructor
      · rintro ⟨g, ⟨hg, -⟩, heq⟩
        exact ⟨g, hg, heq⟩
      · rintro ⟨g, hg, heq⟩
        refine ⟨g, ⟨hg, ?_⟩, heq⟩
        rw [hlower g group heq, Bool.eq_false_iff.2 hgroup]
        rfl
    rw [if_neg hgroup, hin]
    split
    · rfl
    · simp [List.filter_append, hgroup]

/-- A request makes alike lists of alike lists. -/
theorem Alike.change (h : Alike gone groups groups') (hlower : ∀ g g', lower t g = lower t g' → gone g = gone g')
    (op : MembershipRequest) : Alike gone (op.change t o s₀ id groups) (op.change t o s₀ id groups') := by
  have hjoin : ∀ group, Alike gone (joinGroup t group groups) (joinGroup t group groups') := by
    intro group
    unfold Alike
    rw [filter_joinGroup hlower, filter_joinGroup hlower, h]
  have hleave : ∀ group, Alike gone (leaveGroup t group groups) (leaveGroup t group groups') := by
    intro group
    unfold Alike
    rw [filter_leaveGroup, filter_leaveGroup, h]
  cases op with
  | addMember caller name idOrName =>
    simp only [MembershipRequest.change]
    split
    · split
      · exact hjoin _
      · exact h
    · exact h
  | removeMember caller name idOrName =>
    simp only [MembershipRequest.change]
    split
    · split
      · exact hleave _
      · exact h
    · exact h
  | deleteGroup name =>
    simp only [MembershipRequest.change]
    split
    · split
      · exact h
      · exact hleave _
    · exact h
  | updateUser caller idOrName names =>
    simp only [MembershipRequest.change]
    split
    · split
      · rfl
      · exact h
    · exact h

end Alike

private theorem leaving_iff {s : MembershipPool} {g : Str} : leaving t o id s g = true ↔
    o.readOnlyUsers = false ∧ ∃ name, some name ∈ s.processes.map (groupLeft id) ∧
      (s.store.getGroup t name).isSome = true ∧ lower t g = lower t name := by
  simp only [leaving, Bool.and_eq_true, Bool.not_eq_true', List.any_eq_true, Option.any_eq_true, decide_eq_true_eq,
    List.mem_map]
  constructor
  · rintro ⟨hown, p, hp, name, hname, hrest⟩
    exact ⟨hown, name, ⟨p, hp, hname⟩, hrest⟩
  · rintro ⟨hown, name, ⟨p, hp, hname⟩, hrest⟩
    exact ⟨hown, p, hp, name, hname, hrest⟩

private theorem leaving_congr {s : MembershipPool} {g g' : Str} (h : lower t g = lower t g') :
    leaving t o id s g = leaving t o id s g' := by
  simp only [leaving, h]

/-- Only the groups' being there and what the requests have taken from the user tell which ones it is leaving. -/
private theorem leaving_eq {s s' : MembershipPool}
    (hleft : s'.processes.map (groupLeft id) = s.processes.map (groupLeft id))
    (hgroup : ∀ name, s'.store.getGroup t name = s.store.getGroup t name) : leaving t o id s' = leaving t o id s := by
  funext g
  rw [Bool.eq_iff_iff, leaving_iff, leaving_iff, hleft]
  simp only [hgroup]

/-! ### Runs -/

open Classical in
/-- Where a request stands with the user. -/
noncomputable def statusOf (t : CaseTable) (o : StoreOptions) (s₀ : Stores) (id : Str) (op : MembershipRequest)
    (tr : Trace StoreCall StoreCall.Answer) : Status :=
  if op.acted id tr then .took else if Idle t o s₀ id op tr then .idle else .pending

/-- The requests, with where they stand. -/
noncomputable def standings (t : CaseTable) (o : StoreOptions) (s₀ : Stores) (id : Str) (s : MembershipPool) :
    List (MembershipRequest × Status) := s.processes.map fun p => (p.op, statusOf t o s₀ id p.op p.trace)

/-- The user is in no group that has been deleted. -/
def InNoDeleted (t : CaseTable) (s₀ : Stores) (id : Str) (s : Stores) : Prop :=
  ∀ name, (s₀.getGroup t name).isSome = true → s.getGroup t name = none →
    ∀ groups, s.groupsOf id = some groups → ∀ g ∈ groups, lower t g ≠ lower t name

/-- The invariant: the stores agree with what the requests that have acted make of them, in some order. -/
structure InSequence (t : CaseTable) (o : StoreOptions) (s₀ : Stores) (id : Str) (s : MembershipPool) : Prop where
  kept : PoolKept (StoreCall.answer t) (Kin t s₀) (AtCall t o s₀ id) (fun op => AtEnd t o s₀ id op) s
  gone : ∀ p ∈ s.processes, ∀ name, p.op = .deleteGroup name → dropped p.trace = true →
    s.store.getGroup t name = none
  deleted : o.readOnlyUsers = false → InNoDeleted t s₀ id s.store
  sequence : Linearized (fun op v => op.applied t o v) s₀ (standings t o s₀ id s) (StandsFor t o s₀ id s)

private theorem statusOf_took (h : op.acted id tr = true) : statusOf t o s₀ id op tr = .took := if_pos h

private theorem statusOf_idle (h : op.acted id tr = false) (hidle : Idle t o s₀ id op tr) :
    statusOf t o s₀ id op tr = .idle := by
  rw [statusOf, if_neg (by simp [h]), if_pos hidle]

private theorem statusOf_pending (h : op.acted id tr = false) (hidle : ¬ Idle t o s₀ id op tr) :
    statusOf t o s₀ id op tr = .pending := by
  rw [statusOf, if_neg (by simp [h]), if_neg hidle]

/-- A request for another user changes nothing for this one. -/
theorem StandsFor.other {s : MembershipPool} {v : Stores} (h : StandsFor t o s₀ id s v)
    (hkeys : ∀ e ∈ s₀.groups, e.1 = lower t e.2.name) (hother : op.isFor t s₀ id = false) :
    StandsFor t o s₀ id s (op.applied t o v) := by
  obtain ⟨mine, groups, hmine, hgroups, halike⟩ := h.groups
  refine ⟨h.kin.applied hkeys op, fun name => ?_, mine, groups, ?_, hgroups, halike⟩
  · rw [getGroup_applied h.kin hkeys]
    cases op with
    | deleteGroup deleted => cases hother
    | _ => exact h.group name
  · rw [groupsOf_applied h.kin hmine, if_neg (by simp [hother])]

/-- Nor does one that has found nothing to do for the user. -/
theorem StandsFor.idle {s : MembershipPool} {v : Stores} (h : StandsFor t o s₀ id s v)
    (hkeys : ∀ e ∈ s₀.groups, e.1 = lower t e.2.name) (hlooks : op.looks = true) {groups : List Str}
    (hgroups : s.store.groupsOf id = some groups) (hsame : op.change t o s₀ id groups = groups) :
    StandsFor t o s₀ id s (op.applied t o v) := by
  obtain ⟨mine, groups', hmine, hgroups', halike⟩ := h.groups
  obtain rfl := Option.some.inj (hgroups.symm.trans hgroups')
  refine ⟨h.kin.applied hkeys op, fun name => ?_, _, groups, groupsOf_applied h.kin hmine op, hgroups, ?_⟩
  · rw [getGroup_applied h.kin hkeys]
    cases op with
    | deleteGroup deleted => cases hlooks
    | _ => exact h.group name
  · split
    · rw [← hsame]
      exact halike.change (fun _ _ => leaving_congr) op
    · exact halike

/-- A group that is not there has the user as a member neither before nor after a write that stands. -/
private theorem deleted_write {name : Str} {groups : List Str} (hkin : Kin t s₀ s)
    (hkeys : ∀ e ∈ s₀.groups, e.1 = lower t e.2.name) (hthere : op.adds = true → op.groupsThere t s = true)
    (hgone : s.getGroup t name = none) (hout : ∀ g ∈ groups, lower t g ≠ lower t name) :
    ∀ g ∈ op.change t o s₀ id groups, lower t g ≠ lower t name := by
  have hfound : ∀ name' group, s.getGroup t name' = some group → lower t group.name ≠ lower t name := by
    intro name' group hgroup heq
    rw [key_of_getGroup hkeys (hkin.getGroup hgroup)] at heq
    rw [getGroup_congr heq, hgone] at hgroup
    cases hgroup
  have hleave : ∀ group, ∀ g ∈ leaveGroup t group groups, lower t g ≠ lower t name :=
    fun group g hg => hout g (List.mem_of_mem_filter hg)
  cases op with
  | addMember caller name' idOrName =>
    obtain ⟨group, hgroup⟩ := Option.isSome_iff_exists.1 (hthere rfl)
    simp only [MembershipRequest.change, hkin.getGroup hgroup]
    split
    · intro g hg
      unfold joinGroup at hg
      split at hg
      · exact hout g hg
      · rcases List.mem_append.1 hg with hg | hg
        · exact hout g hg
        · rw [List.mem_singleton.1 hg]
          exact hfound name' group hgroup
    · exact hout
  | removeMember caller name' idOrName =>
    simp only [MembershipRequest.change]
    split
    · split
      · exact hleave _
      · exact hout
    · exact hout
  | deleteGroup name' =>
    simp only [MembershipRequest.change]
    split
    · split
      · exact hout
      · exact hleave _
    · exact hout
  | updateUser caller idOrName names =>
    have hresolves : (resolveGroups t s (some names)).toOption.isSome = true := hthere rfl
    cases hresolved : resolveGroups t s (some names) with
    | error e =>
      rw [hresolved] at hresolves
      cases hresolves
    | ok resolved =>
      have hstart : resolveGroups t s₀ (some names) = .ok resolved := hkin.resolveFrom hresolved
      simp only [MembershipRequest.change, hstart]
      split
      · intro g hg
        obtain ⟨name', group, hgroup, rfl⟩ := (resolveGroups_ok hresolved).2 g hg
        exact hfound name' group hgroup
      · exact hout

/-- From `s` to `s'` a call of one request is answered. -/
structure Answered (t : CaseTable) (s s' : MembershipPool) (i : Nat) (op : MembershipRequest)
    (tr : Trace StoreCall StoreCall.Answer) (c : StoreCall) : Prop where
  entry : ∃ k, s.processes[i]? = some ⟨op, tr, .await c k⟩
  store : s'.store = (StoreCall.answer t s.store c).2
  processes : ∃ code, s'.processes = s.processes.set i ⟨op, tr ++ [⟨c, (StoreCall.answer t s.store c).1⟩], code⟩

section Answered

variable {s s' : MembershipPool} {i : Nat} {c : StoreCall}

private theorem Answered.lefts (h : Answered t s s' i op tr c) (id : Str) : ∃ code,
    s'.processes.map (groupLeft id) = (s.processes.map (groupLeft id)).set i
      (groupLeft id ⟨op, tr ++ [⟨c, (StoreCall.answer t s.store c).1⟩], code⟩) := by
  obtain ⟨code, hprocesses⟩ := h.processes
  exact ⟨code, by rw [hprocesses, List.map_set]⟩

private theorem Answered.left (h : Answered t s s' i op tr c) (id : Str) :
    ∃ k, (s.processes.map (groupLeft id))[i]? = some (groupLeft id ⟨op, tr, .await c k⟩) := by
  obtain ⟨k, hi⟩ := h.entry
  exact ⟨k, by rw [List.getElem?_map, hi]; rfl⟩

private theorem groupLeft_append {code code' : UsersProcess Unit} (hwrites : c.writes id = false)
    (a : c.Answer) : groupLeft id ⟨op, tr ++ [⟨c, a⟩], code⟩ = groupLeft id ⟨op, tr, code'⟩ := by
  cases op with
  | deleteGroup name => simp [groupLeft, hwrites]
  | _ => rfl

/-- A call that does not write the user takes no group from it. -/
private theorem Answered.lefts_eq (h : Answered t s s' i op tr c)
    (hleft : c.writes id = false ∨ ∀ name, op ≠ .deleteGroup name) :
    s'.processes.map (groupLeft id) = s.processes.map (groupLeft id) := by
  obtain ⟨code, hlefts⟩ := h.lefts id
  obtain ⟨k, hi⟩ := h.left id
  have hsame : groupLeft id ⟨op, tr ++ [⟨c, (StoreCall.answer t s.store c).1⟩], code⟩ =
      groupLeft id ⟨op, tr, .await c k⟩ := by
    rcases hleft with hwrites | hop
    · exact groupLeft_append hwrites _
    · cases op with
      | deleteGroup name => exact absurd rfl (hop name)
      | _ => rfl
  obtain ⟨hlt, hget⟩ := List.getElem?_eq_some_iff.1 hi
  rw [hlefts, hsame, ← hget, List.set_getElem_self]

/-- What neither writes the user nor deletes a group leaves the stores agreeing. -/
theorem Answered.agrees (h : Answered t s s' i op tr c) (hcall : AtCall t o s₀ id op tr c)
    (hwrites : c.writes id = false) (hdrops : c.drops = false) {v : Stores} (hv : StandsFor t o s₀ id s v) :
    StandsFor t o s₀ id s' v := by
  have hgroup : ∀ name, s'.store.getGroup t name = s.store.getGroup t name := by
    intro name
    rw [h.store]
    cases c with
    | deleteGroup key => cases hdrops
    | _ => rfl
  obtain ⟨mine, groups, hmine, hgroups, halike⟩ := hv.groups
  refine ⟨hv.kin, fun name => (hv.group name).trans (hgroup name).symm, mine, groups, hmine, ?_, ?_⟩
  · rw [h.store]
    refine groupsOf_answer hgroups ?_
    rintro id' changes rfl
    obtain ⟨groups', rfl, -⟩ := hcall
    exact ⟨fun hid => by simp [StoreCall.writes, hid] at hwrites, groups', rfl⟩
  · rw [leaving_eq (h.lefts_eq (.inl hwrites)) hgroup]
    exact halike

/-- A request that writes the user makes of the stores what it would alone. -/
private theorem Answered.agrees_write (h : Answered t s s' i op tr c) (hkeys : ∀ e ∈ s₀.groups, e.1 = lower t e.2.name)
    (hop : ∀ name, op ≠ .deleteGroup name) (hfor : op.isFor t s₀ id = true)
    (hdeleted : InNoDeleted t s₀ id s.store)
    (hthere : op.adds = true → op.groupsThere t s.store = true) {groups : List Str}
    (hgroups : s.store.groupsOf id = some groups)
    (hc : c = .updateUser id { groups := some (op.change t o s₀ id groups) }) {v : Stores}
    (hv : StandsFor t o s₀ id s v) : StandsFor t o s₀ id s' (op.applied t o v) := by
  have hgroup : ∀ name, s'.store.getGroup t name = s.store.getGroup t name := by
    intro name
    rw [h.store, hc]
    rfl
  obtain ⟨mine, groups', hmine, hgroups', halike⟩ := hv.groups
  obtain rfl := Option.some.inj (hgroups.symm.trans hgroups')
  refine ⟨hv.kin.applied hkeys op, fun name => ?_, _, op.change t o s₀ id groups,
    groupsOf_applied hv.kin hmine op, ?_, ?_⟩
  · rw [hgroup, ← hv.group name, getGroup_applied hv.kin hkeys]
    cases op with
    | deleteGroup deleted => exact absurd rfl (hop deleted)
    | _ => rfl
  · rw [h.store, hc]
    exact (groupsOf_updateUser hgroups).trans (by rw [if_pos rfl])
  · rw [leaving_eq (h.lefts_eq (.inr hop)) hgroup]
    by_cases hexist : op.groupsThere t v = true
    · rw [if_pos ⟨hfor, hexist⟩]
      exact halike.change (fun _ _ => leaving_congr) op
    · rw [if_neg fun hboth => hexist hboth.2]
      rw [groupsThere_congr hv.group] at hexist
      -- Only the removal from a group that is gone writes then, and the user is not in it.
      cases op with
      | addMember caller name idOrName => exact absurd (hthere rfl) hexist
      | updateUser caller idOrName names => exact absurd (hthere rfl) hexist
      | deleteGroup name => exact absurd rfl (hop name)
      | removeMember caller name idOrName =>
        have hgone : s.store.getGroup t name = none := by
          cases hfound : s.store.getGroup t name with
          | none => rfl
          | some group => exact absurd (by simp [MembershipRequest.groupsThere, hfound]) hexist
        simp only [MembershipRequest.change]
        cases hstart : s₀.getGroup t name with
        | none => exact halike
        | some group =>
          have hout := hdeleted name (by rw [hstart]; rfl) hgone groups hgroups
          have hsame : leaveGroup t group.name groups = groups := by
            refine List.filter_eq_self.2 fun g hg => decide_eq_true ?_
            rw [key_of_getGroup hkeys hstart]
            exact hout g hg
          dsimp only
          rw [hsame]
          split <;> exact halike

/-- The deletion of a group takes it from the user; it acts later. -/
private theorem Answered.agrees_leave (h : Answered t s s' i op tr c) (hkeys : ∀ e ∈ s₀.groups, e.1 = lower t e.2.name)
    {name : Str} (hop : op = .deleteGroup name) (hown : o.readOnlyUsers = false) (hunwritten : wrote id tr = false)
    (hdeleted : InNoDeleted t s₀ id s.store)
    {groups : List Str} (hgroups : s.store.groupsOf id = some groups)
    (hc : c = .updateUser id { groups := some (op.change t o s₀ id groups) }) {v : Stores}
    (hv : StandsFor t o s₀ id s v) : StandsFor t o s₀ id s' v := by
  subst hop
  have hgroup : ∀ name, s'.store.getGroup t name = s.store.getGroup t name := by
    intro name
    rw [h.store, hc]
    rfl
  obtain ⟨code, hlefts⟩ := h.lefts id
  obtain ⟨k, hi⟩ := h.left id
  have hbefore : groupLeft id ⟨.deleteGroup name, tr, .await c k⟩ = none := by simp [groupLeft, hunwritten]
  have hafter : groupLeft id ⟨.deleteGroup name, tr ++ [⟨c, (StoreCall.answer t s.store c).1⟩], code⟩ = some name := by
    subst hc
    simp [groupLeft, StoreCall.writes]
  have hlt := (List.getElem?_eq_some_iff.1 hi).1
  have hkept : ∀ n, some n ∈ s.processes.map (groupLeft id) → some n ∈ s'.processes.map (groupLeft id) := by
    intro n hn
    obtain ⟨j, hj⟩ := List.mem_iff_getElem?.1 hn
    have hij : i ≠ j := by
      rintro rfl
      rw [hi, hbefore] at hj
      cases hj
    rw [hlefts]
    exact List.mem_iff_getElem?.2 ⟨j, by rw [List.getElem?_set_ne hij, hj]⟩
  have hnew : some name ∈ s'.processes.map (groupLeft id) := by
    rw [hlefts, hafter]
    exact List.mem_set hlt _
  have hmono : ∀ g, leaving t o id s g = true → leaving t o id s' g = true := by
    intro g hg
    obtain ⟨-, n, hn, hsome, heq⟩ := leaving_iff.1 hg
    exact leaving_iff.2 ⟨hown, n, hkept n hn, by rw [hgroup]; exact hsome, heq⟩
  obtain ⟨mine, groups', hmine, hgroups', halike⟩ := hv.groups
  obtain rfl := Option.some.inj (hgroups.symm.trans hgroups')
  refine ⟨hv.kin, fun name => (hv.group name).trans (hgroup name).symm, mine,
    (MembershipRequest.deleteGroup name).change t o s₀ id groups, hmine, ?_, ?_⟩
  · rw [h.store, hc]
    exact (groupsOf_updateUser hgroups).trans (by rw [if_pos rfl])
  · refine (halike.mono hmono).trans ?_
    simp only [MembershipRequest.change, hown]
    cases hstart : s₀.getGroup t name with
    | none => rfl
    | some group =>
      show groups.filter _ = (leaveGroup t group.name groups).filter _
      rw [leaveGroup, List.filter_filter]
      refine List.filter_congr fun g hg => ?_
      by_cases heq : lower t g = lower t group.name
      · -- It is leaving this group now, unless the group is gone already.
        rw [key_of_getGroup hkeys hstart] at heq
        cases hfound : s.store.getGroup t name with
        | none => exact absurd heq (hdeleted name (by rw [hstart]; rfl) hfound groups hgroups g hg)
        | some group' =>
          have hleaving : leaving t o id s' g = true :=
            leaving_iff.2 ⟨hown, name, hnew, by rw [hgroup, hfound]; rfl, heq⟩
          simp [hleaving]
      · simp [heq]

/-- The deletion of a group acts when the group is taken out of its store. -/
private theorem Answered.agrees_drop (h : Answered t s s' i op tr c) (hkeys : ∀ e ∈ s₀.groups, e.1 = lower t e.2.name)
    {name key : Str} (hop : op = .deleteGroup name) (hkey : lower t key = lower t name) (hc : c = .deleteGroup key)
    (hstands : ∀ groups, s.store.groupsOf id = some groups →
      o.readOnlyUsers = true ∨ ∀ g ∈ groups, lower t g ≠ lower t key)
    {v : Stores} (hv : StandsFor t o s₀ id s v) : StandsFor t o s₀ id s' (op.applied t o v) := by
  have hgroup : ∀ n, s'.store.getGroup t n = if lower t n = lower t name then none else s.store.getGroup t n := by
    intro n
    rw [h.store, hc, getGroup_dropped, hkey]
  have hlefts : s'.processes.map (groupLeft id) = s.processes.map (groupLeft id) :=
    h.lefts_eq (.inl (by subst hc; rfl))
  have hleaving : ∀ g, leaving t o id s' g = true ↔ leaving t o id s g = true ∧ lower t g ≠ lower t name := by
    intro g
    rw [leaving_iff, leaving_iff, hlefts]
    constructor
    · rintro ⟨hown, n, hn, hsome, heq⟩
      rw [hgroup] at hsome
      split at hsome
      · cases hsome
      · rename_i hne
        exact ⟨⟨hown, n, hn, hsome, heq⟩, heq ▸ hne⟩
    · rintro ⟨⟨hown, n, hn, hsome, heq⟩, hne⟩
      refine ⟨hown, n, hn, ?_, heq⟩
      rw [hgroup, if_neg fun hname => hne (heq.trans hname)]
      exact hsome
  obtain ⟨mine, groups, hmine, hgroups, halike⟩ := hv.groups
  refine ⟨hv.kin.applied hkeys op, fun n => ?_, _, groups, groupsOf_applied hv.kin hmine op, ?_, ?_⟩
  · rw [hgroup, ← hv.group n, getGroup_applied hv.kin hkeys, hop]
  · rw [h.store, hc]
    exact hgroups
  subst hop
  have hsame : (∀ g, leaving t o id s g = true → lower t g ≠ lower t name) → Alike (leaving t o id s') mine groups :=
    fun hne => halike.mono fun g hg => (hleaving g).2 ⟨hg, hne g hg⟩
  rw [groupsThere_congr hv.group]
  cases hfound : s.store.getGroup t name with
  | none =>
    rw [if_neg (by simp [MembershipRequest.groupsThere, hfound])]
    refine hsame fun g hg heq => ?_
    obtain ⟨-, n, -, hsome, hn⟩ := leaving_iff.1 hg
    rw [getGroup_congr (hn.symm.trans heq), hfound] at hsome
    cases hsome
  | some group =>
    have hstart : s₀.getGroup t name = some group := hv.kin.getGroup ((hv.group name).trans hfound)
    rw [if_pos ⟨rfl, by simp [MembershipRequest.groupsThere, hfound]⟩]
    simp only [MembershipRequest.change, hstart]
    rcases hstands groups hgroups with hown | hout
    · rw [if_pos hown]
      refine hsame fun g hg => ?_
      rw [(leaving_iff.1 hg).1] at hown
      cases hown
    · split
      · rename_i hown
        refine hsame fun g hg => ?_
        rw [(leaving_iff.1 hg).1] at hown
        cases hown
      · have hleave : ∀ l : List Str, (leaveGroup t group.name l).filter (!leaving t o id s' ·) =
            leaveGroup t group.name (l.filter (!leaving t o id s ·)) := by
          intro l
          rw [leaveGroup, leaveGroup, List.filter_filter, List.filter_filter]
          refine List.filter_congr fun g _ => ?_
          by_cases heq : lower t g = lower t group.name
          · simp [heq]
          · have hiff : leaving t o id s' g = leaving t o id s g := by
              rw [Bool.eq_iff_iff, hleaving]
              exact and_iff_left (key_of_getGroup hkeys hstart ▸ heq)
            simp [heq, hiff]
        have hgroupsSame : leaveGroup t group.name groups = groups := by
          refine List.filter_eq_self.2 fun g hg => decide_eq_true ?_
          rw [key_of_getGroup hkeys hstart, ← hkey]
          exact hout g hg
        unfold Alike
        rw [hleave, halike, ← hleave, hgroupsSame]

/-- A request that has found nothing to do is for another user, or has found it in the groups that it read last, or had
before. -/
private theorem Idle.found {groups : List Str} (hnot : ¬ Idle t o s₀ id op tr)
    (hgroups : s.store.groupsOf id = some groups)
    (h : Idle t o s₀ id op (tr ++ [⟨c, (StoreCall.answer t s.store c).1⟩])) :
    op.looks = true ∧ op.change t o s₀ id groups = groups := by
  rcases h with hother | ⟨hlooks, read, hseen, hsame⟩
  · exact absurd (.inl hother) hnot
  · rw [seen_append] at hseen
    rcases Option.or_eq_some_iff.1 hseen with hseen | ⟨-, hseen⟩
    · exact absurd (.inr ⟨hlooks, read, hseen, hsame⟩) hnot
    · have hnow := groupsIn_answer hseen
      rw [hgroups] at hnow
      obtain rfl := Option.some.inj hnow
      exact ⟨hlooks, hsame⟩

private theorem not_idle_deleteGroup {name : Str} : ¬ Idle t o s₀ id (.deleteGroup name) tr := by
  rintro (hother | ⟨hlooks, -⟩)
  · cases hother
  · cases hlooks

private theorem acted_deleteGroup {name : Str} {c : StoreCall} (a : c.Answer) :
    (MembershipRequest.deleteGroup name).acted id (tr ++ [⟨c, a⟩]) = (dropped tr || c.drops) := dropped_append c a

/-- What an answer does to the stores, and to where its request stands. -/
theorem Answered.moves (h : Answered t s s' i op tr c) (hkeys : ∀ e ∈ s₀.groups, e.1 = lower t e.2.name)
    (hcall : AtCall t o s₀ id op tr c) (hdeleted : o.readOnlyUsers = false → InNoDeleted t s₀ id s.store)
    {groups : List Str} (hgroups : s.store.groupsOf id = some groups)
    (hstands : ∀ code, Stands t o s₀ id s.store groups ⟨op, tr, code⟩ c) :
    (statusOf t o s₀ id op (tr ++ [⟨c, (StoreCall.answer t s.store c).1⟩]) = statusOf t o s₀ id op tr ∧
      ∀ v, StandsFor t o s₀ id s v → StandsFor t o s₀ id s' v) ∨
    (statusOf t o s₀ id op tr = .pending ∧
      (∀ v, StandsFor t o s₀ id s v → StandsFor t o s₀ id s' (op.applied t o v)) ∧
      (statusOf t o s₀ id op (tr ++ [⟨c, (StoreCall.answer t s.store c).1⟩]) ≠ .took →
        ∀ v, StandsFor t o s₀ id s v → StandsFor t o s₀ id s' v)) := by
  by_cases hwrites : c.writes id = true
  · -- The user's groups are written.
    cases c with
    | updateUser id' changes =>
      obtain ⟨groups', rfl, -, hown, howes⟩ := hcall
      obtain rfl : id' = id := by simpa [StoreCall.writes] using hwrites
      obtain ⟨hunwritten, hbusy, read, hread, rfl⟩ := howes rfl
      obtain ⟨hthere, hsame⟩ := hstands (.done (.ok ())) rfl
      have hsame : op.change t o s₀ id' read = op.change t o s₀ id' groups := hsame read hread
      by_cases hop : ∃ name, op = .deleteGroup name
      · obtain ⟨name, rfl⟩ := hop
        refine .inl ⟨?_, fun v hv =>
          h.agrees_leave hkeys rfl hown hunwritten (hdeleted hown) hgroups (by rw [hsame]) hv⟩
        rw [statusOf, statusOf, acted_deleteGroup, if_neg not_idle_deleteGroup, if_neg not_idle_deleteGroup]
        rw [show StoreCall.drops _ = false from rfl, Bool.or_false]
        rfl
      · have hne : ∀ name, op ≠ .deleteGroup name := fun name heq => hop ⟨name, heq⟩
        have hacted : ∀ tr, op.acted id' tr = wrote id' tr := by
          intro tr
          cases op with
          | deleteGroup name => exact absurd rfl (hne name)
          | _ => rfl
        have hfor : op.isFor t s₀ id' = true := by
          by_contra hother
          exact hbusy (.inl (Bool.eq_false_iff.2 hother))
        refine .inr ⟨statusOf_pending ((hacted _).trans hunwritten) hbusy,
          fun v hv => h.agrees_write hkeys hne hfor (hdeleted hown) hthere hgroups (by rw [hsame]) hv, fun hnot => ?_⟩
        refine absurd (statusOf_took ?_) hnot
        rw [hacted, wrote_append, hwrites, Bool.or_true]
    | _ => cases hwrites
  · by_cases hdrops : c.drops = true
    · -- The group is deleted.
      cases c with
      | deleteGroup key =>
        obtain ⟨hundropped, name, rfl, hkey⟩ := hcall
        refine .inr ⟨statusOf_pending hundropped not_idle_deleteGroup, fun v hv => ?_, fun hnot => ?_⟩
        · refine h.agrees_drop hkeys rfl hkey rfl (fun groups' hgroups' => ?_) hv
          obtain rfl := Option.some.inj (hgroups.symm.trans hgroups')
          exact hstands (.done (.ok ()))
        · refine absurd (statusOf_took ?_) hnot
          rw [acted_deleteGroup]
          exact Bool.or_true _
      | _ => cases hdrops
    · have hnot : c.writes id = false := Bool.eq_false_iff.2 hwrites
      have hnotDrops : c.drops = false := Bool.eq_false_iff.2 hdrops
      have hkeep : ∀ v, StandsFor t o s₀ id s v → StandsFor t o s₀ id s' v :=
        fun v hv => h.agrees hcall hnot hnotDrops hv
      have hacted : op.acted id (tr ++ [⟨c, (StoreCall.answer t s.store c).1⟩]) = op.acted id tr := by
        cases op with
        | deleteGroup name =>
          rw [acted_deleteGroup, hnotDrops, Bool.or_false]
          rfl
        | _ => exact (wrote_append _ _).trans (by rw [hnot, Bool.or_false]; rfl)
      cases hold : op.acted id tr with
      | true => exact .inl ⟨(statusOf_took (hacted.trans hold)).trans (statusOf_took hold).symm, hkeep⟩
      | false =>
        by_cases hidle : Idle t o s₀ id op tr
        · exact .inl ⟨(statusOf_idle (hacted.trans hold) hidle.append).trans (statusOf_idle hold hidle).symm, hkeep⟩
        · by_cases hidle' : Idle t o s₀ id op (tr ++ [⟨c, (StoreCall.answer t s.store c).1⟩])
          · obtain ⟨hlooks, hsame⟩ := hidle'.found hidle hgroups
            refine .inr ⟨statusOf_pending hold hidle, fun v hv => ?_, fun _ => hkeep⟩
            exact hkeep _ (hv.idle hkeys hlooks hgroups hsame)
          · exact .inl ⟨(statusOf_pending (hacted.trans hold) hidle').trans (statusOf_pending hold hidle).symm, hkeep⟩

/-- The user stays in no group that has been deleted. -/
private theorem Answered.inNoDeleted (h : Answered t s s' i op tr c) (hkin : Kin t s₀ s.store)
    (hkeys : ∀ e ∈ s₀.groups, e.1 = lower t e.2.name) (hcall : AtCall t o s₀ id op tr c)
    (hown : o.readOnlyUsers = false) (hdeleted : InNoDeleted t s₀ id s.store) {groups : List Str}
    (hgroups : s.store.groupsOf id = some groups)
    (hstands : ∀ code, Stands t o s₀ id s.store groups ⟨op, tr, code⟩ c) : InNoDeleted t s₀ id s'.store := by
  intro name hstart hgone groups' hgroups'
  rw [h.store] at hgone hgroups'
  cases c with
  | updateUser id' changes =>
    obtain ⟨groups'', rfl, -, -, howes⟩ := hcall
    rw [show (StoreCall.answer t s.store (.updateUser id' { groups := some groups'' })).2.groupsOf id =
      some (if id' = id then groups'' else groups) from groupsOf_updateUser hgroups] at hgroups'
    obtain rfl := Option.some.inj hgroups'
    split
    · rename_i hid
      subst hid
      obtain ⟨-, -, read, hread, rfl⟩ := howes rfl
      obtain ⟨hthere, hsame⟩ := hstands (.done (.ok ())) rfl
      rw [show op.change t o s₀ id' read = op.change t o s₀ id' groups from hsame read hread]
      exact deleted_write hkin hkeys hthere hgone (hdeleted name hstart hgone groups hgroups)
    · exact hdeleted name hstart hgone groups hgroups
  | deleteGroup key =>
    obtain rfl := Option.some.inj (hgroups.symm.trans hgroups')
    rw [getGroup_dropped] at hgone
    split at hgone
    · rename_i heq
      rcases hstands (.done (.ok ())) with hreadOnly | hout
      · rw [hown] at hreadOnly
        cases hreadOnly
      · rw [heq]
        exact hout
    · exact hdeleted name hstart hgone groups hgroups
  | _ => exact hdeleted name hstart hgone groups' hgroups'

end Answered

theorem InSequence.step {s s' : MembershipPool} {a : PoolAction MembershipRequest}
    (hkeys : ∀ e ∈ s₀.groups, e.1 = lower t e.2.name) (hid : id ∈ s₀.users.map User.id)
    (h : InSequence t o s₀ id s) (hstand : ReadsStand t o s₀ id s a)
    (hst : poolStep (StoreCall.answer t) (MembershipRequest.program t o) s a = some s') :
    InSequence t o s₀ id s' := by
  have hkept := h.kept.step (sat_program hkeys) hst
  cases a with
  | start op =>
    obtain rfl := Option.some.inj hst
    have hmarks : (s.processes ++ [(⟨op, [], op.program t o⟩ : MembershipProcess)]).map (groupLeft id) =
        s.processes.map (groupLeft id) ++ [none] := by
      rw [List.map_append]
      congr 2
      cases op <;> rfl
    have hleaving : leaving t o id ⟨s.store, s.processes ++ [⟨op, [], op.program t o⟩]⟩ = leaving t o id s := by
      funext g
      rw [Bool.eq_iff_iff, leaving_iff, leaving_iff, hmarks]
      simp
    have hagrees : ∀ v, StandsFor t o s₀ id s v →
        StandsFor t o s₀ id ⟨s.store, s.processes ++ [⟨op, [], op.program t o⟩]⟩ v := by
      intro v hv
      refine ⟨hv.kin, hv.group, ?_⟩
      rw [hleaving]
      exact hv.groups
    refine ⟨hkept, fun p hp name hop hdropped => ?_, h.deleted, ?_⟩
    · rcases List.mem_append.1 hp with hp | hp
      · exact h.gone p hp name hop hdropped
      · obtain rfl := List.mem_singleton.1 hp
        cases hdropped
    · rw [standings, List.map_append, ← standings]
      have hunacted : op.acted id [] = false := by cases op <;> rfl
      refine (h.sequence.add op ?_ fun hidle v hv => ?_).mono hagrees
      · rw [statusOf, hunacted, if_neg Bool.false_ne_true]
        split <;> exact fun h => by cases h
      · by_cases hnow : Idle t o s₀ id op []
        · rcases hnow with hother | ⟨-, read, hseen, -⟩
          · exact hv.other hkeys hother
          · cases hseen
        · have hpending := hidle.symm.trans (statusOf_pending hunacted hnow)
          cases hpending
  | answer i =>
    obtain ⟨op, tr, c, k, hi, hstore, hprocesses⟩ := poolStep_answer hst
    have hanswered : Answered t s s' i op tr c := ⟨⟨k, hi⟩, hstore, _, hprocesses⟩
    have hcall : AtCall t o s₀ id op tr c := (h.kept.processes _ (List.mem_of_getElem? hi)).1
    obtain ⟨groups, hgroups⟩ : ∃ groups, s.store.groupsOf id = some groups := by
      rw [← h.kept.store.ids] at hid
      obtain ⟨user, huser, rfl⟩ := List.mem_map.1 hid
      exact ⟨user.groups, groupsOf_of_mem huser⟩
    have hstands : ∀ code, Stands t o s₀ id s.store groups ⟨op, tr, code⟩ c := by
      intro code
      have hnow := hstand _ hi c rfl groups hgroups
      cases c <;> exact hnow
    refine ⟨hkept, fun p hp name hop hdropped => ?_, fun hown => ?_, ?_⟩
    · have hstays : ∀ name, s.store.getGroup t name = none → s'.store.getGroup t name = none := by
        intro name hnone
        rw [hstore]
        cases c with
        | deleteGroup key =>
          rw [getGroup_dropped]
          split
          · rfl
          · exact hnone
        | _ => exact hnone
      rw [hprocesses] at hp
      rcases List.mem_or_eq_of_mem_set hp with hp | rfl
      · exact hstays name (h.gone p hp name hop hdropped)
      · rcases Bool.or_eq_true_iff.1 ((dropped_append _ _).symm.trans hdropped) with hbefore | hnow
        · exact hstays name (h.gone _ (List.mem_of_getElem? hi) name hop hbefore)
        · cases c with
          | deleteGroup key =>
            obtain ⟨-, name', hop', hkey⟩ := hcall
            obtain rfl := MembershipRequest.deleteGroup.inj (hop.symm.trans hop')
            rw [hstore, getGroup_dropped, if_pos hkey.symm]
          | _ => cases hnow
    · exact hanswered.inNoDeleted h.kept.store hkeys hcall hown (h.deleted hown) hgroups hstands
    · have hentry : (standings t o s₀ id s)[i]? = some (op, statusOf t o s₀ id op tr) := by
        rw [standings, List.getElem?_map, hi]
        rfl
      have hmoved := h.sequence.move hentry (hanswered.moves hkeys hcall h.deleted hgroups hstands)
      rwa [standings, hprocesses, List.map_set, ← standings]

private theorem code_of_ended {p : MembershipProcess} (h : ended p = true) : ∃ result, p.code = .done result := by
  unfold ended awaited at h
  split at h
  · cases h
  · rename_i result hcode
    exact ⟨result, hcode⟩

private theorem completed_iff {p : MembershipProcess} : completed p = true ↔ p.code = .done (.ok ()) := by
  unfold completed
  split
  · rename_i u hcode
    exact ⟨fun _ => hcode, fun _ => rfl⟩
  · rename_i hnot
    exact ⟨fun h => (by cases h), fun hcode => absurd hcode (hnot ())⟩

/-- Once all are answered, no group is being deleted. -/
private theorem InSequence.leaving_ended {s : MembershipPool} (h : InSequence t o s₀ id s)
    (hended : ∀ p ∈ s.processes, ended p = true) (g : Str) : leaving t o id s g = false := by
  rw [Bool.eq_false_iff, ne_eq, leaving_iff]
  rintro ⟨-, name, hleft, hsome, -⟩
  obtain ⟨p, hp, hleft⟩ := List.mem_map.1 hleft
  obtain ⟨hop, hwrote⟩ : p.op = .deleteGroup name ∧ wrote id p.trace = true := by
    unfold groupLeft at hleft
    split at hleft
    · rename_i name' hop
      split at hleft
      · rename_i hwrote
        exact ⟨hop.trans (congrArg _ (Option.some.inj hleft)), hwrote⟩
      · cases hleft
    · cases hleft
  obtain ⟨result, hcode⟩ := code_of_ended (hended p hp)
  have hend := h.kept.processes p hp
  rw [hcode, hop] at hend
  cases result with
  | error e =>
    rw [hend.1] at hwrote
    cases hwrote
  | ok _ =>
    have hdropped : dropped p.trace = true := hend.resolve_right not_idle_deleteGroup
    rw [h.gone p hp name hop hdropped] at hsome
    cases hsome

/-- Where no write is made of groups read too early or puts the user in a group that is gone, and no group is deleted
that the user is in, the user's groups are in the end those that the requests that were answered without an error leave
one after another, in some order. -/
theorem memberships_sequential {groups₀ : List Str} {s : MembershipPool}
    {ms : List (Move MembershipPool (PoolAction MembershipRequest))}
    (hkeys : ∀ e ∈ s₀.groups, e.1 = lower t e.2.name) (hgroups : s₀.groupsOf id = some groups₀)
    (h : GuardedRun (poolStep (StoreCall.answer t) (MembershipRequest.program t o)) (ReadsStand t o s₀ id) ⟨s₀, []⟩
      ms s)
    (hended : ∀ p ∈ s.processes, ended p = true) :
    ∃ order : List Nat, order.Nodup ∧ (∀ i, i ∈ order ↔ ∃ p, s.processes[i]? = some p ∧ completed p = true) ∧
      s.store.groupsOf id = (inOrder t o s₀ s order).groupsOf id := by
  obtain ⟨user, huser, rfl, rfl⟩ := mem_of_groupsOf hgroups
  have hid : user.id ∈ s₀.users.map User.id := List.mem_map_of_mem huser
  have hinv : InSequence t o s₀ user.id s := by
    refine h.invariant (I := InSequence t o s₀ user.id) ?_ fun _ _ _ hs hstand hst => hs.step hkeys hid hstand hst
    refine ⟨⟨Kin.refl s₀, fun _ hp => (by cases hp)⟩, fun _ hp => (by cases hp), fun _ name hsome hnone => ?_, ?_⟩
    · rw [show s₀.getGroup t name = none from hnone] at hsome
      cases hsome
    · exact linearized_nil ⟨Kin.refl s₀, fun _ => rfl, user.groups, user.groups, hgroups, hgroups, rfl⟩
  obtain ⟨order, hnodup, hmem, hvalue⟩ := hinv.sequence fun i => ∃ p, s.processes[i]? = some p ∧ completed p = true
  have hstanding : ∀ i, (standings t o s₀ user.id s)[i]? =
      (s.processes[i]?).map fun p : MembershipProcess => (p.op, statusOf t o s₀ user.id p.op p.trace) :=
    fun i => by rw [standings, List.getElem?_map]
  have hend : ∀ p ∈ s.processes, ∀ result, p.code = .done result → AtEnd t o s₀ user.id p.op p.trace result := by
    intro p hp result hcode
    have hkept := hinv.kept.processes p hp
    rwa [hcode] at hkept
  refine ⟨order, hnodup, fun i => (hmem i).trans ⟨?_, ?_⟩, ?_⟩
  · rintro ⟨op, status, hentry, hcounts⟩
    rw [hstanding] at hentry
    obtain ⟨p, hp, heq⟩ := Option.map_eq_some_iff.1 hentry
    obtain ⟨rfl, rfl⟩ := Prod.mk.inj heq
    rcases hcounts with htook | ⟨-, hcompleted⟩
    · obtain ⟨result, hcode⟩ := code_of_ended (hended p (List.mem_of_getElem? hp))
      cases result with
      | ok _ => exact ⟨p, hp, completed_iff.2 hcode⟩
      | error e =>
        obtain ⟨hunwritten, hundropped⟩ : wrote user.id p.trace = false ∧ dropped p.trace = false :=
          hend p (List.mem_of_getElem? hp) _ hcode
        have hunacted : p.op.acted user.id p.trace = false := by
          unfold MembershipRequest.acted
          split
          · exact hundropped
          · exact hunwritten
        rw [statusOf, hunacted, if_neg Bool.false_ne_true] at htook
        split at htook <;> cases htook
    · exact hcompleted
  · rintro ⟨p, hp, hcompleted⟩
    refine ⟨p.op, statusOf t o s₀ user.id p.op p.trace, by rw [hstanding, hp]; rfl, ?_⟩
    have hdone : IsDone t o s₀ user.id p.op p.trace :=
      hend p (List.mem_of_getElem? hp) _ (completed_iff.1 hcompleted)
    cases hacted : p.op.acted user.id p.trace with
    | true => exact .inl (statusOf_took hacted)
    | false =>
      have hidle := hdone.resolve_left (by simp [hacted])
      exact .inr ⟨statusOf_idle hacted hidle, p, hp, hcompleted⟩
  · have horder : inOrder t o s₀ s order =
        applyAll (fun op v => op.applied t o v) (standings t o s₀ user.id s) s₀ order := by
      refine List.foldl_ext _ _ _ fun stores i _ => ?_
      rw [hstanding]
      cases s.processes[i]? <;> rfl
    obtain ⟨mine, groups, hmine, hnow, halike⟩ := hvalue.groups
    have hsame : mine = groups := by
      have hall : ∀ l : List Str, l.filter (!leaving t o user.id s ·) = l := fun l =>
        List.filter_eq_self.2 fun g _ => by simp [hinv.leaving_ended hended g]
      rw [← hall mine, ← hall groups, halike]
    rw [horder, hnow, hmine, hsame]

/-- A user without groups, and two groups to join. -/
def oneUser : Stores where
  users := [⟨['u'], ['u'], ['e'], [], false, none⟩]
  groups := [(['a'], ⟨['a'], none, [], false⟩), (['b'], ⟨['b'], none, [], false⟩)]
  tokens := []
  users_nodup := by simp

/-- Three requests begin together: the second reads the user after the first has written it, and the third deletes the
first one's group. -/
theorem memberships_sequential_three :
    let t : CaseTable := fun _ c _ => [c]
    ∃ s : MembershipPool, s.processes.length = 3 ∧ s.store.groupsOf ['u'] = some [['b']] ∧
      ∃ order : List Nat, order.Nodup ∧ (∀ i, i ∈ order ↔ ∃ p, s.processes[i]? = some p ∧ completed p = true) ∧
        s.store.groupsOf ['u'] = (inOrder t {} oneUser s order).groupsOf ['u'] := by
  intro t
  let actions : List (PoolAction MembershipRequest) :=
    [.start (.addMember none ['a'] ['u']), .start (.addMember none ['b'] ['u']), .start (.deleteGroup ['a']),
      .answer 2, .answer 0, .answer 0, .answer 0, .answer 1, .answer 1, .answer 1, .answer 2, .answer 0, .answer 2,
      .answer 2, .answer 1, .answer 2, .answer 2, .answer 2, .answer 0, .answer 1]
  have hexec : (exec (poolStep (StoreCall.answer t) (MembershipRequest.program t {})) ⟨oneUser, []⟩ actions).any
      (fun r => decide (∀ m ∈ r.1, ReadsStand t {} oneUser ['u'] m.pre m.act) && (r.2.processes.all ended &&
        (decide (r.2.processes.length = 3) && decide (r.2.store.groupsOf ['u'] = some [['b']])))) = true := by
    decide +kernel
  obtain ⟨⟨ms, s⟩, hexec, hfacts⟩ := (Option.any_eq_true _ _).1 hexec
  simp only [Bool.and_eq_true, decide_eq_true_eq, List.all_eq_true] at hfacts
  obtain ⟨hstand, hended, hlength, hgroups⟩ := hfacts
  have hkeys : ∀ e ∈ oneUser.groups, e.1 = lower t e.2.name := by decide
  exact ⟨s, hlength, hgroups, memberships_sequential hkeys rfl ((run_of_exec hexec).restrict hstand) hended⟩

/-- Two requests read the user before either of them writes: one group is lost, whatever the order. -/
theorem concurrent_adds_lose_one :
    let t : CaseTable := fun _ c _ => [c]
    ∃ ms, ∃ s : MembershipPool,
      Run (poolStep (StoreCall.answer t) (MembershipRequest.program t {})) ⟨oneUser, []⟩ ms s ∧
      s.processes.map completed = [true, true] ∧ s.store.groupsOf ['u'] = some [['b']] ∧
      ¬ ∃ order : List Nat, order.Nodup ∧ (∀ i, i ∈ order ↔ ∃ p, s.processes[i]? = some p ∧ completed p = true) ∧
        s.store.groupsOf ['u'] = (inOrder t {} oneUser s order).groupsOf ['u'] := by
  intro t
  let actions : List (PoolAction MembershipRequest) :=
    [.start (.addMember none ['a'] ['u']), .start (.addMember none ['b'] ['u']), .answer 0, .answer 0, .answer 1,
      .answer 1, .answer 0, .answer 0, .answer 0, .answer 1, .answer 1, .answer 1]
  have hexec : (exec (poolStep (StoreCall.answer t) (MembershipRequest.program t {})) ⟨oneUser, []⟩ actions).any
      (fun r => decide (r.2.processes.map completed = [true, true]) &&
        (decide (r.2.store.groupsOf ['u'] = some [['b']]) &&
        (decide ((inOrder t {} oneUser r.2 [0, 1]).groupsOf ['u'] ≠ some [['b']]) &&
        decide ((inOrder t {} oneUser r.2 [1, 0]).groupsOf ['u'] ≠ some [['b']])))) = true := by
    decide +kernel
  obtain ⟨⟨ms, s⟩, hexec, hfacts⟩ := (Option.any_eq_true _ _).1 hexec
  simp only [Bool.and_eq_true, decide_eq_true_eq] at hfacts
  obtain ⟨hcompleted, hgroups, hfirst, hsecond⟩ := hfacts
  refine ⟨ms, s, run_of_exec hexec, hcompleted, hgroups, ?_⟩
  rintro ⟨order, hnodup, hmem, hvalue⟩
  have hboth : ∀ i, i ∈ order ↔ i ∈ [0, 1] := by
    intro i
    have hcounts : (∃ p, s.processes[i]? = some p ∧ completed p = true) ↔
        (s.processes.map completed)[i]? = some true := by
      rw [List.getElem?_map, Option.map_eq_some_iff]
    rw [hmem i, hcounts, hcompleted]
    rcases i with _ | _ | i <;> simp
  have hperm : order.Perm [0, 1] := (List.perm_ext_iff_of_nodup hnodup (by decide)).2 hboth
  obtain ⟨x, y, rfl⟩ := List.length_eq_two.1 hperm.length_eq
  have hzero : 0 ∈ [x, y] := hperm.mem_iff.2 (by decide)
  have hone : 1 ∈ [x, y] := hperm.mem_iff.2 (by decide)
  rw [hgroups] at hvalue
  simp only [List.mem_cons, List.not_mem_nil, or_false] at hzero hone
  rcases hzero with rfl | rfl
  · obtain rfl : 1 = y := by omega
    exact hfirst hvalue.symm
  · obtain rfl : 1 = x := by omega
    exact hsecond hvalue.symm

end CliServer
