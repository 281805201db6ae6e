import CliServer.Users.Requests

/-!
# What membership requests read and write

`add_member`, `remove_member`, `delete_group` and `update_user(groups=...)` read a user's groups once, await other
calls, and then write the whole list, made of the groups as they were read.  What every such request keeps to, whatever
the other requests do to the stores meanwhile, is a property of its program (`sat_program`).
-/

namespace CliServer

open Process

variable (t : CaseTable)

/-! ### The groups of one user -/

/-- The groups of the user with an id. -/
def Stores.groupsOf (s : Stores) (id : Str) : Option (List Str) := (s.users.find? (·.id = id)).map User.groups

/-- The groups with one more, unless it is there. -/
def joinGroup (group : Str) (groups : List Str) : List Str :=
  if groups.any fun g => lower t g = lower t group then groups else groups ++ [group]

/-- The groups without one. -/
def leaveGroup (group : Str) (groups : List Str) : List Str := groups.filter fun g => lower t g ≠ lower t group

/-- Whether a request names the user with an id. -/
def IsFor (s : Stores) (id idOrName : Str) : Bool := (s.getUser t idOrName).any fun user => user.id = id

/-- What a request writes for the user with an id when it has read these groups; the groups it names are those of the
stores. -/
def MembershipRequest.change (o : StoreOptions) (s : Stores) (id : Str) (groups : List Str) :
    MembershipRequest → List Str
  | .addMember _ name idOrName =>
    match s.getGroup t name with
    | some group => if IsFor t s id idOrName then joinGroup t group.name groups else groups
    | none => groups
  | .removeMember _ name idOrName =>
    match s.getGroup t name with
    | some group => if IsFor t s id idOrName then leaveGroup t group.name groups else groups
    | none => groups
  | .deleteGroup name =>
    match s.getGroup t name with
    | some group => if o.readOnlyUsers then groups else leaveGroup t group.name groups
    | none => groups
  | .updateUser _ idOrName names =>
    match resolveGroups t s (some names) with
    | .ok resolved => if IsFor t s id idOrName then resolved else groups
    | .error _ => groups

/-- Whether a request is for the user; the deletion of a group is for every user. -/
def MembershipRequest.isFor (s : Stores) (id : Str) : MembershipRequest → Bool
  | .addMember _ _ idOrName | .removeMember _ _ idOrName | .updateUser _ idOrName _ => IsFor t s id idOrName
  | .deleteGroup _ => true

/-! ### What a request has read and written -/

/-- Whether a call writes the groups of a user. -/
def StoreCall.writes (id : Str) : StoreCall → Bool
  | .updateUser id' changes => id' = id && changes.groups.isSome
  | _ => false

/-- Whether a call deletes a group. -/
def StoreCall.drops : StoreCall → Bool
  | .deleteGroup _ => true
  | _ => false

/-- The user's groups in an answer. -/
def groupsIn (id : Str) : ((c : StoreCall) × c.Answer) → Option (List Str)
  | ⟨.getUser _, user⟩ => (user.filter (·.id = id)).map User.groups
  | ⟨.getUsers, users⟩ => (users.find? (·.id = id)).map User.groups
  | _ => none

/-- Whether a request has written the user's groups. -/
def wrote (id : Str) (tr : Trace StoreCall StoreCall.Answer) : Bool := tr.any fun e => e.1.writes id

/-- The user's groups as a request has first read them. -/
def seen (id : Str) (tr : Trace StoreCall StoreCall.Answer) : Option (List Str) := tr.findSome? (groupsIn id)

/-- Whether a request has deleted its group. -/
def dropped (tr : Trace StoreCall StoreCall.Answer) : Bool := tr.any fun e => e.1.drops

/-- Whether a request has done what it is for: deleted its group, or written the user's groups. -/
def MembershipRequest.acted (id : Str) (tr : Trace StoreCall StoreCall.Answer) : MembershipRequest → Bool
  | .deleteGroup _ => dropped tr
  | _ => wrote id tr

/-! ### What the requests keep -/

/-- A user but for the groups. -/
def User.forgetGroups (u : User) : User := { u with groups := [] }

/-- The stores differ from those at the start in users' groups, and in groups that have been deleted. -/
structure Kin (s₀ s : Stores) : Prop where
  users : s.users.map User.forgetGroups = s₀.users.map User.forgetGroups
  groups : ∀ name, s.getGroup t name = none ∨ s.getGroup t name = s₀.getGroup t name

/-- Whether a request looks if there is anything to do for a user. -/
def MembershipRequest.looks : MembershipRequest → Bool
  | .addMember .. | .removeMember .. => true
  | .deleteGroup _ | .updateUser .. => false

/-- The request is for another user, or has found nothing to do. -/
def Idle (o : StoreOptions) (s₀ : Stores) (id : Str) (op : MembershipRequest) (tr : Trace StoreCall StoreCall.Answer) :
    Prop :=
  op.isFor t s₀ id = false ∨
    op.looks = true ∧ ∃ groups, seen id tr = some groups ∧ op.change t o s₀ id groups = groups

/-- What holds when a request makes a call: a write of users is one of groups, of a user store that can be written, and
the user's groups are written once, with what the request makes of those it has read; and only the deletion of a group
deletes it, once. -/
def AtCall (o : StoreOptions) (s₀ : Stores) (id : Str) (op : MembershipRequest)
    (tr : Trace StoreCall StoreCall.Answer) :
    StoreCall → Prop
  | .updateUser id' changes => ∃ groups, changes = { groups := some groups } ∧ id' ∈ s₀.users.map User.id ∧
      o.readOnlyUsers = false ∧ (id' = id → wrote id tr = false ∧ ¬ Idle t o s₀ id op tr ∧
        ∃ read, seen id tr = some read ∧ groups = op.change t o s₀ id read)
  | .deleteGroup key => dropped tr = false ∧ ∃ name, op = .deleteGroup name ∧ lower t key = lower t name
  | _ => True

/-- The request has done what there was to do. -/
def IsDone (o : StoreOptions) (s₀ : Stores) (id : Str) (op : MembershipRequest)
    (tr : Trace StoreCall StoreCall.Answer) : Prop := op.acted id tr = true ∨ Idle t o s₀ id op tr

/-- What holds when a request ends. -/
def AtEnd (o : StoreOptions) (s₀ : Stores) (id : Str) (op : MembershipRequest) {α : Type}
    (tr : Trace StoreCall StoreCall.Answer) : Except UsersApiError α → Prop
  | .ok _ => IsDone t o s₀ id op tr
  | .error _ => wrote id tr = false ∧ dropped tr = false

variable {t} {o : StoreOptions} {s₀ s s' : Stores} {id : Str} {op : MembershipRequest}
  {tr : Trace StoreCall StoreCall.Answer}

/-! ### The stores -/

theorem groupsOf_of_mem {user : User} (h : user ∈ s.users) : s.groupsOf user.id = some user.groups := by
  have hsome : (s.users.find? (·.id = user.id)).isSome := List.find?_isSome.2 ⟨user, h, by simp⟩
  obtain ⟨v, hv⟩ := Option.isSome_iff_exists.1 hsome
  have hid : v.id = user.id := by simpa using List.find?_some hv
  rw [Stores.groupsOf, hv, s.eq_of_id_eq (List.mem_of_find?_eq_some hv) h hid]
  rfl

theorem mem_of_groupsOf {groups : List Str} (h : s.groupsOf id = some groups) :
    ∃ user ∈ s.users, user.id = id ∧ user.groups = groups := by
  obtain ⟨user, huser, hgroups⟩ := Option.map_eq_some_iff.1 h
  exact ⟨user, List.mem_of_find?_eq_some huser, by simpa using List.find?_some huser, hgroups⟩

/-- What a write of a user's groups leaves. -/
theorem groupsOf_updateUser {id' : Str} {groups groups' : List Str} (h : s.groupsOf id = some groups) :
    (s.updateUser id' { groups := some groups' }).groupsOf id = some (if id' = id then groups' else groups) := by
  obtain ⟨user, huser, rfl, rfl⟩ := mem_of_groupsOf h
  by_cases hid : id' = user.id
  · subst hid
    rw [if_pos rfl]
    exact groupsOf_of_mem (Stores.apply_mem_updateUser huser)
  · rw [if_neg hid]
    exact groupsOf_of_mem (Stores.other_mem_updateUser huser fun heq => hid heq.symm)

/-- A call that does not write the user's groups leaves them. -/
theorem groupsOf_answer {c : StoreCall} {groups : List Str} (h : s.groupsOf id = some groups)
    (hwrite : ∀ id' changes, c = .updateUser id' changes → id' ≠ id ∧ ∃ groups', changes = { groups := some groups' }) :
    (StoreCall.answer t s c).2.groupsOf id = some groups := by
  cases c with
  | updateUser id' changes =>
    obtain ⟨hne, groups', rfl⟩ := hwrite id' changes rfl
    exact (groupsOf_updateUser h).trans (by rw [if_neg hne])
  | _ => exact h

/-- What an answer says of the user's groups was so when it was given. -/
theorem groupsIn_answer {c : StoreCall} {groups : List Str}
    (h : groupsIn id ⟨c, (StoreCall.answer t s c).1⟩ = some groups) :
    s.groupsOf id = some groups := by
  cases c with
  | getUser idOrName =>
    obtain ⟨user, hfilter, rfl⟩ := Option.map_eq_some_iff.1 h
    obtain ⟨hfound, hid⟩ := Option.filter_eq_some_iff.1 hfilter
    have hmem : user ∈ s.users := Stores.mem_of_getUser hfound
    rw [← of_decide_eq_true hid]
    exact groupsOf_of_mem hmem
  | getUsers => exact h
  | _ => cases h

/-! ### Stores that differ in memberships and deleted groups -/

theorem Kin.refl (s : Stores) : Kin t s s := ⟨rfl, fun _ => .inr rfl⟩

theorem Kin.ids (h : Kin t s₀ s) : s.users.map User.id = s₀.users.map User.id := by
  have hids := congrArg (List.map User.id) h.users
  simpa [User.forgetGroups, Function.comp_def] using hids

theorem Kin.getGroup (h : Kin t s₀ s) {name : Str} {group : Group} (hgroup : s.getGroup t name = some group) :
    s₀.getGroup t name = some group := by
  rcases h.groups name with hnone | hsame
  · rw [hnone] at hgroup
    cases hgroup
  · rw [← hsame, hgroup]

private theorem find?_forgetGroups {p : User → Bool} (hp : ∀ u, p u.forgetGroups = p u) (users : List User) :
    (users.find? p).map User.forgetGroups = (users.map User.forgetGroups).find? p := by
  rw [List.find?_map, show p ∘ User.forgetGroups = p from funext hp]

/-- A request is for the user that it is for at the start. -/
theorem Kin.getUser (h : Kin t s₀ s) (idOrName : Str) :
    (s.getUser t idOrName).map User.forgetGroups = (s₀.getUser t idOrName).map User.forgetGroups := by
  have hid : ∀ u : User, decide (u.forgetGroups.id = idOrName) = decide (u.id = idOrName) := fun _ => rfl
  have hname : ∀ u : User, decide (lower t u.forgetGroups.name = lower t idOrName) =
      decide (lower t u.name = lower t idOrName) := fun _ => rfl
  rw [Stores.getUser, Stores.getUser, Option.map_or, Option.map_or, find?_forgetGroups hid, find?_forgetGroups hname,
    find?_forgetGroups hid, find?_forgetGroups hname, h.users]

theorem Kin.isFor (h : Kin t s₀ s) {idOrName : Str} {user : User} (huser : s.getUser t idOrName = some user)
    (id : Str) :
    IsFor t s₀ id idOrName = decide (user.id = id) := by
  have hsame := h.getUser idOrName
  rw [huser, Option.map_some] at hsame
  obtain ⟨user₀, huser₀, heq⟩ := Option.map_eq_some_iff.1 hsame.symm
  have hid : user₀.id = user.id := by
    show user₀.forgetGroups.id = user.forgetGroups.id
    rw [heq]
  rw [IsFor, huser₀, Option.any_some, hid]

theorem Kin.mem (h : Kin t s₀ s) {user : User} (huser : user ∈ s.users) : user.id ∈ s₀.users.map User.id := by
  rw [← h.ids]
  exact List.mem_map_of_mem huser

/-- Writes of memberships and deletions of groups keep the stores so. -/
theorem Kin.answer (h : Kin t s₀ s) {c : StoreCall}
    (hwrite : ∀ id changes, c = .updateUser id changes → ∃ groups, changes = { groups := some groups }) :
    Kin t s₀ (StoreCall.answer t s c).2 := by
  cases c with
  | updateUser id changes =>
    obtain ⟨groups, rfl⟩ := hwrite id changes rfl
    refine ⟨?_, h.groups⟩
    rw [← h.users]
    show (s.users.map _).map User.forgetGroups = _
    rw [List.map_map]
    refine List.map_congr_left fun u _ => ?_
    by_cases hid : u.id = id
    · simp [hid, UserChanges.apply, User.forgetGroups]
    · simp [hid]
  | deleteGroup name =>
    refine ⟨h.users, fun name' => ?_⟩
    by_cases heq : lower t name' = lower t name
    · refine .inl ?_
      rw [Stores.getGroup, Option.map_eq_none_iff, List.find?_eq_none]
      intro e he hkey
      have hne := (List.mem_filter.1 he).2
      simp only [decide_eq_true_eq] at hkey hne
      exact hne (hkey.trans heq)
    · have hsame : (StoreCall.answer t s (.deleteGroup name)).2.getGroup t name' = s.getGroup t name' :=
        getGroup_filter rfl heq
      rw [hsame]
      exact h.groups name'
  | _ => exact h

/-- The users stay. -/
private theorem Kin.answers_user (h : Kin t s₀ s) {id' : Str} (changes : UserChanges)
    (hid : id' ∈ s₀.users.map User.id) :
    ∃ user, (StoreCall.answer t s (.updateUser id' changes)).1 = some user := by
  rw [← h.ids] at hid
  obtain ⟨user, huser, rfl⟩ := List.mem_map.1 hid
  refine Option.isSome_iff_exists.1 (List.find?_isSome.2 ⟨_, Stores.apply_mem_updateUser huser, ?_⟩)
  simp [UserChanges.apply]

/-! ### Programs that read -/

/-- A call that neither writes users nor deletes a group. -/
def StoreCall.Quiet : StoreCall → Prop
  | .updateUser _ _ | .deleteGroup _ => False
  | _ => True

/-- A program of such calls. -/
abbrev Reads {α : Type} (m : UsersProcess α) : Prop := m.Only StoreCall.Quiet fun _ => True

/-- One that does not raise, either. -/
abbrev Reports {α : Type} (m : UsersProcess α) : Prop := m.Only StoreCall.Quiet fun result => ∃ a, result = .ok a

theorem Reads.bind {α β : Type} {m : UsersProcess α} {f : α → UsersProcess β} (h : Reads m) (hf : ∀ a, Reads (f a)) :
    Reads (m >>= f) := Only.bind h (fun a _ => hf a) fun _ _ => trivial

private theorem reads_forCaller {caller : Option AuthContext} {check : AuthContext → UsersProcess Unit}
    (h : ∀ ctx, Reads (check ctx)) : Reads (Awaited.forCaller caller check) := by
  cases caller with
  | none => trivial
  | some ctx => exact h ctx

private theorem reads_effectivePermissionsFrom (lists : List (List Str)) (groups : List Str) :
    Reads (Awaited.effectivePermissionsFrom t lists groups) := by
  induction groups generalizing lists with
  | nil => trivial
  | cons name rest ih => exact ⟨trivial, fun group => ih _⟩

private theorem reads_ensureCoversUser (target : User) (ctx : AuthContext) :
    Reads (Awaited.ensureCoversUser t target ctx) := by
  rw [Awaited.ensureCoversUser]
  split
  · trivial
  · refine Reads.bind (reads_effectivePermissionsFrom _ _) fun required => ?_
    split <;> trivial

private theorem reads_ensureCanGrantGroups (groups : List Str) (ctx : AuthContext) :
    Reads (Awaited.ensureCanGrantGroups t groups ctx) :=
  Reads.bind (reads_effectivePermissionsFrom _ _) fun _ => trivial

private theorem reads_leavesNoAdmin (may : Bool) (user : User) : Reads (Awaited.leavesNoAdmin t may user) := by
  rw [Awaited.leavesNoAdmin, Awaited.isLastEnabledAdmin]
  split
  · split
    · trivial
    · exact ⟨trivial, fun _ => trivial⟩
  · trivial

private theorem reads_ensureUnique (name email excludeId : Option Str) :
    Reads (Awaited.ensureUnique t name email excludeId) :=
  ⟨trivial, fun _ => trivial⟩

private theorem reports_publishAll (members : List User) : Reports (Awaited.publishAll members) := by
  induction members with
  | nil => exact ⟨(), rfl⟩
  | cons m rest ih => exact ⟨trivial, fun _ => ih⟩

/-! ### What a request knows on its way -/

@[simp] theorem wrote_append (c : StoreCall) (a : c.Answer) :
    wrote id (tr ++ [⟨c, a⟩]) = (wrote id tr || c.writes id) := by
  simp [wrote]

@[simp] theorem dropped_append (c : StoreCall) (a : c.Answer) :
    dropped (tr ++ [⟨c, a⟩]) = (dropped tr || c.drops) := by
  simp [dropped]

@[simp] theorem seen_append (e : (c : StoreCall) × c.Answer) :
    seen id (tr ++ [e]) = (seen id tr).or (groupsIn id e) := by
  simp [seen, List.findSome?_append]

private theorem StoreCall.Quiet.not_writes {c : StoreCall} (h : c.Quiet) : c.writes id = false := by
  cases c with
  | updateUser id' changes => exact h.elim
  | _ => rfl

private theorem StoreCall.Quiet.not_drops {c : StoreCall} (h : c.Quiet) : c.drops = false := by
  cases c with
  | deleteGroup name => exact h.elim
  | _ => rfl

private theorem StoreCall.Quiet.atCall {c : StoreCall} (h : c.Quiet) : AtCall t o s₀ id op tr c := by
  cases c with
  | updateUser id' changes => exact h.elim
  | deleteGroup name => exact h.elim
  | _ => trivial

/-- The request has read the user with this id, and neither written nor deleted anything. -/
structure HasRead (id : Str) (user : User) (tr : Trace StoreCall StoreCall.Answer) : Prop where
  unwritten : wrote id tr = false
  undropped : dropped tr = false
  read : user.id = id → seen id tr = some user.groups

theorem HasRead.append {user : User} {c : StoreCall} {a : c.Answer} (h : HasRead id user tr) (hc : c.Quiet) :
    HasRead id user (tr ++ [⟨c, a⟩]) where
  unwritten := by rw [wrote_append, h.unwritten, hc.not_writes, Bool.or_self]
  undropped := by rw [dropped_append, h.undropped, hc.not_drops, Bool.or_self]
  read hid := by rw [seen_append, h.read hid, Option.some_or]

theorem Idle.append {e : (c : StoreCall) × c.Answer} (h : Idle t o s₀ id op tr) : Idle t o s₀ id op (tr ++ [e]) := by
  rcases h with hall | ⟨hlooks, groups, hseen, hsame⟩
  · exact .inl hall
  · exact .inr ⟨hlooks, groups, by rw [seen_append, hseen, Option.some_or], hsame⟩

private theorem acted_append {c : StoreCall} {a : c.Answer} (h : op.acted id tr = true) :
    op.acted id (tr ++ [⟨c, a⟩]) = true := by
  cases op with
  | deleteGroup name => exact (dropped_append c a).trans (by rw [show dropped tr = true from h, Bool.true_or])
  | _ => exact (wrote_append c a).trans (by rw [show wrote id tr = true from h, Bool.true_or])

theorem IsDone.append {c : StoreCall} {a : c.Answer} (h : IsDone t o s₀ id op tr) :
    IsDone t o s₀ id op (tr ++ [⟨c, a⟩]) := by
  rcases h with hacted | hidle
  · exact .inl (acted_append hacted)
  · exact .inr hidle.append

section Programs

variable {α β : Type}

/-- What a program of a request satisfies. -/
abbrev Sat (t : CaseTable) (o : StoreOptions) (s₀ : Stores) (id : Str) (op : MembershipRequest)
    (E : Trace StoreCall StoreCall.Answer → Except UsersApiError α → Prop) (tr : Trace StoreCall StoreCall.Answer)
    (m : UsersProcess α) : Prop := Satisfies (StoreCall.answer t) (Kin t s₀) (AtCall t o s₀ id op) E tr m

/-- A program that does not write users keeps what every such call keeps. -/
private theorem sat_only {I : Trace StoreCall StoreCall.Answer → Prop} {Q : Except UsersApiError α → Prop}
    {m : UsersProcess α}
    (h : m.Only StoreCall.Quiet Q)
    (hI : ∀ (tr : Trace StoreCall StoreCall.Answer) (c : StoreCall) (a : c.Answer), c.Quiet → I tr → I (tr ++ [⟨c, a⟩]))
    (h₀ : I tr) : Sat t o s₀ id op (fun tr' result => I tr' ∧ Q result) tr m := by
  refine Satisfies.of_only h (fun tr c hc hI' => ⟨hc.atCall, fun s hs => ⟨hs.answer ?_, hI _ _ _ hc hI'⟩⟩) h₀
  rintro id' changes rfl
  exact hc.elim

/-- A program that reads, before the write. -/
private theorem sat_reads {user : User} {m : UsersProcess α} {f : α → UsersProcess β} (hm : Reads m)
    (h : HasRead id user tr)
    (hf : ∀ tr' a, HasRead id user tr' → Sat t o s₀ id op (AtEnd t o s₀ id op) tr' (f a)) :
    Sat t o s₀ id op (AtEnd t o s₀ id op) tr (m >>= f) := by
  have hkept : Sat t o s₀ id op (fun tr' _ => HasRead id user tr' ∧ True) tr m :=
    sat_only hm (fun _ _ _ hc h => h.append hc) h
  exact hkept.bind (fun tr' a h => hf tr' a h.1) fun tr' e h => ⟨h.1.unwritten, h.1.undropped⟩

/-- What is left after the write. -/
private theorem sat_reports {m : UsersProcess α} (hm : Reports m) (h : IsDone t o s₀ id op tr) :
    Sat t o s₀ id op (AtEnd t o s₀ id op) tr m := by
  have hkept : Sat t o s₀ id op (fun tr' result => IsDone t o s₀ id op tr' ∧ ∃ a, result = .ok a) tr m :=
    sat_only hm (fun _ _ _ _ h => h.append) h
  refine hkept.mono fun tr' result h => ?_
  obtain ⟨hdone, a, rfl⟩ := h
  exact hdone

/-- Nothing has been read, written or deleted. -/
structure Fresh (id : Str) (tr : Trace StoreCall StoreCall.Answer) : Prop where
  unwritten : wrote id tr = false
  undropped : dropped tr = false
  unread : seen id tr = none

private theorem sat_check {result : Except UsersApiError Unit} {f : Unit → UsersProcess β} (h : Fresh id tr)
    (hf : result = .ok () → Sat t o s₀ id op (AtEnd t o s₀ id op) tr (f ())) :
    Sat t o s₀ id op (AtEnd t o s₀ id op) tr (Awaited.check result >>= f) := by
  cases result with
  | ok _ => exact hf rfl
  | error e => exact ⟨h.unwritten, h.undropped⟩

private theorem sat_loadGroup {name : Str} {missing : UsersApiError} {f : Group → UsersProcess β} (h : Fresh id tr)
    (hf : ∀ tr' group, Fresh id tr' → s₀.getGroup t name = some group →
      Sat t o s₀ id op (AtEnd t o s₀ id op) tr' (f group)) :
    Sat t o s₀ id op (AtEnd t o s₀ id op) tr (Awaited.loadGroup name missing >>= f) := by
  refine ⟨trivial, fun s hs => ⟨hs, ?_⟩⟩
  have hfresh : Fresh id (tr ++ [⟨.getGroup name, s.getGroup t name⟩]) :=
    ⟨by rw [wrote_append, h.unwritten]; rfl, by rw [dropped_append, h.undropped]; rfl,
      by rw [seen_append, h.unread]; rfl⟩
  show Sat t o s₀ id op (AtEnd t o s₀ id op) (tr ++ [⟨.getGroup name, s.getGroup t name⟩]) _
  cases hgroup : s.getGroup t name with
  | none =>
    rw [hgroup] at hfresh
    simp only [StoreCall.answer, hgroup]
    exact ⟨hfresh.unwritten, hfresh.undropped⟩
  | some group =>
    rw [hgroup] at hfresh
    simp only [StoreCall.answer, hgroup]
    exact hf _ group hfresh (hs.getGroup hgroup)

private theorem sat_loadUser {idOrName : Str} {f : User → UsersProcess β} (h : Fresh id tr)
    (hf : ∀ tr' user, HasRead id user tr' → user.id ∈ s₀.users.map User.id →
      IsFor t s₀ id idOrName = decide (user.id = id) → Sat t o s₀ id op (AtEnd t o s₀ id op) tr' (f user)) :
    Sat t o s₀ id op (AtEnd t o s₀ id op) tr (Awaited.loadUser idOrName >>= f) := by
  refine ⟨trivial, fun s hs => ⟨hs, ?_⟩⟩
  show Sat t o s₀ id op (AtEnd t o s₀ id op) (tr ++ [⟨.getUser idOrName, s.getUser t idOrName⟩]) _
  have hunwritten : wrote id (tr ++ [⟨.getUser idOrName, s.getUser t idOrName⟩]) = false := by
    rw [wrote_append, h.unwritten]
    rfl
  have hundropped : dropped (tr ++ [⟨.getUser idOrName, s.getUser t idOrName⟩]) = false := by
    rw [dropped_append, h.undropped]
    rfl
  cases huser : s.getUser t idOrName with
  | none =>
    rw [huser] at hunwritten hundropped
    simp only [StoreCall.answer, huser]
    exact ⟨hunwritten, hundropped⟩
  | some user =>
    rw [huser] at hunwritten hundropped
    simp only [StoreCall.answer, huser]
    refine hf _ user ⟨hunwritten, hundropped, fun hid => ?_⟩ (hs.mem (Stores.mem_of_getUser huser)) (hs.isFor huser id)
    rw [seen_append, h.unread, Option.none_or]
    simp [groupsIn, hid]

/-- The write of a user's groups, and the rest of the request. -/
private theorem sat_write {user : User} {groups : List Str} {missing : UsersApiError} {rest : User → UsersProcess β}
    (hacted : ∀ tr, op.acted id tr = wrote id tr) (hown : o.readOnlyUsers = false)
    (hmem : user.id ∈ s₀.users.map User.id) (h : HasRead id user tr)
    (hdue : user.id = id → ¬ Idle t o s₀ id op tr ∧ groups = op.change t o s₀ id user.groups)
    (hother : user.id ≠ id → op.isFor t s₀ id = false) (hrest : ∀ user, Reports (rest user)) :
    Sat t o s₀ id op (AtEnd t o s₀ id op) tr
      (Awaited.updateStored user.id { groups := some groups } missing >>= rest) := by
  have hcall : AtCall t o s₀ id op tr (.updateUser user.id { groups := some groups }) :=
    ⟨groups, rfl, hmem, hown, fun hid => ⟨h.unwritten, (hdue hid).1, user.groups, h.read hid, (hdue hid).2⟩⟩
  refine ⟨hcall, fun s hs => ⟨hs.answer ?_, ?_⟩⟩
  · intro id' changes heq
    obtain ⟨rfl, rfl⟩ := StoreCall.updateUser.inj heq
    exact ⟨groups, rfl⟩
  · obtain ⟨user', huser'⟩ := hs.answers_user { groups := some groups } hmem
    rw [huser']
    refine sat_reports (hrest user') ?_
    by_cases hid : user.id = id
    · refine .inl ?_
      rw [hacted, wrote_append]
      simp [StoreCall.writes, hid]
    · exact .inr (.inl (hother hid))

end Programs

/-! ### The requests -/

private theorem joinGroup_of_inGroup {user : User} {group : Str} (h : inGroup t user group = true) :
    joinGroup t group user.groups = user.groups := if_pos h

private theorem joinGroup_of_not_inGroup {user : User} {group : Str} (h : ¬ inGroup t user group = true) :
    joinGroup t group user.groups = user.groups ++ [group] := if_neg h

private theorem leaveGroup_of_not_inGroup {user : User} {group : Str} (h : ¬ inGroup t user group = true) :
    leaveGroup t group user.groups = user.groups := by
  refine List.filter_eq_self.2 fun g hg => ?_
  have hne : lower t g ≠ lower t group := fun heq => h (inGroup_iff.2 ⟨g, hg, heq⟩)
  simp [hne]

private theorem leaveGroup_ne {user : User} {group : Str} (h : inGroup t user group = true) :
    leaveGroup t group user.groups ≠ user.groups := by
  intro heq
  obtain ⟨g, hg, hlower⟩ := inGroup_iff.1 h
  have hkept := List.filter_eq_self.1 heq g hg
  simp [hlower] at hkept

/-- A request that changes what it has read has not found nothing to do. -/
private theorem not_idle {user : User} (hfor : op.isFor t s₀ id = true) (hread : seen id tr = some user.groups)
    (hne : op.change t o s₀ id user.groups ≠ user.groups) : ¬ Idle t o s₀ id op tr := by
  rintro (hother | ⟨-, groups, hseen, hsame⟩)
  · rw [hother] at hfor
    cases hfor
  · rw [hread] at hseen
    obtain rfl := Option.some.inj hseen
    exact hne hsame

/-- A request that looks and would not change what it has read has found nothing to do. -/
private theorem idle_of_same {user : User} (h : HasRead id user tr) (hlooks : op.looks = true)
    (hsame : user.id = id → op.change t o s₀ id user.groups = user.groups)
    (hother : user.id ≠ id → op.isFor t s₀ id = false) : IsDone t o s₀ id op tr := by
  by_cases hid : user.id = id
  · exact .inr (.inr ⟨hlooks, user.groups, h.read hid, hsame hid⟩)
  · exact .inr (.inl (hother hid))

private theorem fresh_nil : Fresh id [] := ⟨rfl, rfl, rfl⟩

/-- A request that writes users goes on only when they can be written. -/
private theorem writable_of_check (h : storeWrite o true false = .ok ()) : o.readOnlyUsers = false := by
  unfold storeWrite at h
  cases hread : o.readOnlyUsers with
  | false => rfl
  | true => simp [hread] at h

private theorem sat_addMember (caller : Option AuthContext) (name idOrName : Str) :
    Sat t o s₀ id (.addMember caller name idOrName) (AtEnd t o s₀ id (.addMember caller name idOrName)) []
      ((MembershipRequest.addMember caller name idOrName).program t o) := by
  refine sat_check fresh_nil fun hok => sat_loadGroup fresh_nil fun tr group hfresh hgroup => ?_
  refine sat_loadUser hfresh fun tr user hread hmem hfor => ?_
  have hchange : ∀ groups, (MembershipRequest.addMember caller name idOrName).change t o s₀ id groups =
      if user.id = id then joinGroup t group.name groups else groups := by
    intro groups
    simp [MembershipRequest.change, hgroup, hfor]
  have hfor' : (MembershipRequest.addMember caller name idOrName).isFor t s₀ id = decide (user.id = id) := hfor
  have hother : user.id ≠ id → (MembershipRequest.addMember caller name idOrName).isFor t s₀ id = false :=
    fun hid => hfor'.trans (decide_eq_false hid)
  refine sat_reads (reads_forCaller fun ctx => reads_ensureCoversUser user ctx) hread fun tr _ hread => ?_
  refine sat_reads (reads_forCaller fun ctx => reads_ensureCanGrantGroups _ ctx) hread fun tr _ hread => ?_
  split
  · rename_i hin
    exact idle_of_same hread rfl
      (fun hid => (hchange _).trans ((if_pos hid).trans (joinGroup_of_inGroup hin))) hother
  · rename_i hout
    have hjoined : user.id = id → (MembershipRequest.addMember caller name idOrName).change t o s₀ id user.groups =
        user.groups ++ [group.name] :=
      fun hid => (hchange _).trans ((if_pos hid).trans (joinGroup_of_not_inGroup hout))
    refine sat_write (fun _ => rfl) (writable_of_check hok) hmem hread
      (fun hid => ⟨not_idle (hfor'.trans (decide_eq_true hid)) (hread.read hid) ?_, (hjoined hid).symm⟩) hother
      fun _ => ?_
    · rw [hjoined hid]
      simp
    · exact ⟨trivial, fun _ => ⟨trivial, fun _ => ⟨(), rfl⟩⟩⟩

private theorem sat_removeMember (caller : Option AuthContext) (name idOrName : Str) :
    Sat t o s₀ id (.removeMember caller name idOrName) (AtEnd t o s₀ id (.removeMember caller name idOrName)) []
      ((MembershipRequest.removeMember caller name idOrName).program t o) := by
  refine sat_check fresh_nil fun hok => sat_loadGroup fresh_nil fun tr group hfresh hgroup => ?_
  refine sat_loadUser hfresh fun tr user hread hmem hfor => ?_
  have hchange : ∀ groups, (MembershipRequest.removeMember caller name idOrName).change t o s₀ id groups =
      if user.id = id then leaveGroup t group.name groups else groups := by
    intro groups
    simp [MembershipRequest.change, hgroup, hfor]
  have hfor' : (MembershipRequest.removeMember caller name idOrName).isFor t s₀ id = decide (user.id = id) := hfor
  have hother : user.id ≠ id → (MembershipRequest.removeMember caller name idOrName).isFor t s₀ id = false :=
    fun hid => hfor'.trans (decide_eq_false hid)
  refine sat_reads (reads_forCaller fun ctx => reads_ensureCoversUser user ctx) hread fun tr _ hread => ?_
  split
  · rename_i hout
    exact idle_of_same hread rfl
      (fun hid => (hchange _).trans ((if_pos hid).trans (leaveGroup_of_not_inGroup hout))) hother
  · rename_i hin
    refine sat_reads (reads_leavesNoAdmin _ user) hread fun tr last hread => ?_
    split
    · exact ⟨hread.unwritten, hread.undropped⟩
    · have hleft : user.id = id → (MembershipRequest.removeMember caller name idOrName).change t o s₀ id user.groups =
          leaveGroup t group.name user.groups := fun hid => (hchange _).trans (if_pos hid)
      refine sat_write (fun _ => rfl) (writable_of_check hok) hmem hread
        (fun hid => ⟨not_idle (hfor'.trans (decide_eq_true hid)) (hread.read hid) ?_, (hleft hid).symm⟩) hother
        fun _ => ?_
      · rw [hleft hid]
        exact leaveGroup_ne (not_not.1 hin)
      · exact ⟨trivial, fun _ => ⟨trivial, fun _ => ⟨(), rfl⟩⟩⟩

/-- Names are resolved, over several calls, as they were at the start. -/
private theorem sat_resolveFrom {user : User} (out names : List Str) (h : HasRead id user tr) :
    Sat t o s₀ id op (fun tr' result => HasRead id user tr' ∧
      ∀ resolved, result = .ok resolved → resolveFrom t s₀ out names = .ok resolved) tr
      (Awaited.resolveFrom t out names) := by
  induction names generalizing out tr with
  | nil => exact ⟨h, fun _ heq => heq⟩
  | cons raw rest ih =>
    rw [Awaited.resolveFrom, resolveFrom]
    split
    · exact ih out h
    · by_cases hlength : (strip raw).length ≤ nameMax
      · rw [Awaited.findGroup, if_pos hlength, if_pos hlength]
        refine ⟨trivial, fun s hs => ⟨hs, ?_⟩⟩
        have hnext : HasRead id user (tr ++ [⟨.getGroup (strip raw), s.getGroup t (strip raw)⟩]) := h.append trivial
        cases hgroup : s.getGroup t (strip raw) with
        | none =>
          rw [hgroup] at hnext
          simp only [StoreCall.answer, hgroup]
          exact ⟨hnext, fun _ heq => by cases heq⟩
        | some group =>
          rw [hgroup] at hnext
          rw [hs.getGroup hgroup]
          simp only [StoreCall.answer, hgroup]
          show Sat t o s₀ id op _ _ (if _ then _ else _ : UsersProcess (List Str))
          split
          · exact ih out hnext
          · exact ih _ hnext
      · rw [Awaited.findGroup, if_neg hlength, if_neg hlength]
        exact ⟨h, fun _ heq => by cases heq⟩

private theorem sat_resolveGiven {user : User} (names : List Str) (h : HasRead id user tr) :
    Sat t o s₀ id op (fun tr' result => HasRead id user tr' ∧
      ∀ given, result = .ok given → ∃ resolved, given = some resolved ∧
      resolveGroups t s₀ (some names) = .ok resolved) tr
      (Awaited.resolveGiven t (some names)) := by
  refine (sat_resolveFrom [] names h).bind (fun tr' resolved hresolved => ?_) fun tr' e he => ?_
  · refine ⟨hresolved.1, fun given hgiven => ⟨resolved, (Except.ok.inj hgiven).symm, hresolved.2 resolved rfl⟩⟩
  · exact ⟨he.1, fun _ heq => by cases heq⟩

private theorem sat_updateUser (caller : Option AuthContext) (idOrName : Str) (names : List Str) :
    Sat t o s₀ id (.updateUser caller idOrName names) (AtEnd t o s₀ id (.updateUser caller idOrName names)) []
      ((MembershipRequest.updateUser caller idOrName names).program t o) := by
  refine sat_check fresh_nil fun hok => sat_loadUser fresh_nil fun tr user hread hmem hfor => ?_
  refine Satisfies.bind (E := AtEnd t o s₀ id (.updateUser caller idOrName names)) ?_ (fun _ _ h => h) fun _ _ h => h
  show Sat t o s₀ id _ (AtEnd t o s₀ id _) tr (Awaited.resolveGiven t (some names) >>= _)
  refine (sat_resolveGiven names hread).bind (fun tr given hgiven => ?_) fun tr e he =>
    ⟨he.1.unwritten, he.1.undropped⟩
  obtain ⟨hread, hgiven⟩ := hgiven
  obtain ⟨resolved, rfl, hresolved⟩ := hgiven given rfl
  have hchange : ∀ groups, (MembershipRequest.updateUser caller idOrName names).change t o s₀ id groups =
      if user.id = id then resolved else groups := by
    intro groups
    simp [MembershipRequest.change, hresolved, hfor]
  refine sat_reads (reads_forCaller fun ctx => reads_ensureCoversUser user ctx) hread fun tr _ hread => ?_
  refine sat_reads (reads_forCaller fun ctx => ?_) hread fun tr _ hread => ?_
  · dsimp only
    split
    · trivial
    · exact reads_ensureCanGrantGroups _ ctx
  refine sat_reads (reads_ensureUnique _ _ _) hread fun tr _ hread => ?_
  refine sat_reads (reads_leavesNoAdmin _ user) hread fun tr last hread => ?_
  split
  · exact ⟨hread.unwritten, hread.undropped⟩
  · have hfor' : (MembershipRequest.updateUser caller idOrName names).isFor t s₀ id = decide (user.id = id) := hfor
    refine sat_write (fun _ => rfl) (writable_of_check hok) hmem hread
      (fun hid => ⟨?_, ((hchange _).trans (if_pos hid)).symm⟩) (fun hid => hfor'.trans (decide_eq_false hid))
      fun user' => ?_
    · rintro (hother | ⟨hlooks, -⟩)
      · rw [hfor', decide_eq_true hid] at hother
        cases hother
      · cases hlooks
    · exact ⟨trivial, fun _ => ⟨trivial, fun _ => ⟨user', rfl⟩⟩⟩

/-- The members leave the group. -/
private theorem sat_leaveAll {name : Str} {group : Group} (hgroup : s₀.getGroup t name = some group)
    (hown : o.readOnlyUsers = false)
    {members : List User} (hnodup : (members.map User.id).Nodup) (hmem : ∀ m ∈ members, m.id ∈ s₀.users.map User.id)
    (hundropped : dropped tr = false) (hread : ∀ m ∈ members, m.id = id → HasRead id m tr) :
    Sat t o s₀ id (.deleteGroup name) (fun tr' result => dropped tr' = false ∧ ∃ a, result = .ok a) tr
      (Awaited.leaveAll t group members) := by
  have hchange : ∀ groups, (MembershipRequest.deleteGroup name).change t o s₀ id groups =
      leaveGroup t group.name groups := by
    intro groups
    simp [MembershipRequest.change, hgroup, hown]
  induction members generalizing tr with
  | nil => exact ⟨hundropped, (), rfl⟩
  | cons m rest ih =>
    obtain ⟨hnew, hrest⟩ := List.nodup_cons.1 hnodup
    have hm := hmem m List.mem_cons_self
    have hcall : AtCall t o s₀ id (.deleteGroup name) tr
        (.updateUser m.id { groups := some (m.leave t group.name).groups }) := by
      refine ⟨_, rfl, hm, hown, fun hid => ?_⟩
      have hread := hread m List.mem_cons_self hid
      refine ⟨hread.unwritten, ?_, m.groups, hread.read hid, (hchange _).symm⟩
      rintro (hother | ⟨hlooks, -⟩)
      · cases hother
      · cases hlooks
    refine ⟨hcall, fun s hs => ⟨hs.answer ?_, ?_⟩⟩
    · intro id' changes heq
      obtain ⟨rfl, rfl⟩ := StoreCall.updateUser.inj heq
      exact ⟨_, rfl⟩
    · obtain ⟨user', huser'⟩ := hs.answers_user { groups := some (m.leave t group.name).groups } hm
      rw [huser']
      refine ih hrest (fun m' hm' => hmem m' (List.mem_cons_of_mem _ hm')) ?_ fun m' hm' hid' => ?_
      · rw [dropped_append, hundropped]
        rfl
      · have hread := hread m' (List.mem_cons_of_mem _ hm') hid'
        have hne : m.id ≠ id := by
          rw [← hid']
          intro heq
          exact hnew (heq ▸ List.mem_map_of_mem hm')
        refine ⟨?_, ?_, fun _ => ?_⟩
        · rw [wrote_append, hread.unwritten]
          simp [StoreCall.writes, hne]
        · rw [dropped_append, hread.undropped]
          rfl
        · rw [seen_append, hread.read hid', Option.some_or]

theorem key_of_getGroup (hkeys : ∀ e ∈ s.groups, e.1 = lower t e.2.name) {name : Str} {group : Group}
    (h : s.getGroup t name = some group) : lower t group.name = lower t name := by
  obtain ⟨e, he, rfl⟩ := Option.map_eq_some_iff.1 h
  rw [← hkeys e (List.mem_of_find?_eq_some he)]
  simpa using List.find?_some he

private theorem sat_deleteGroup (hkeys : ∀ e ∈ s₀.groups, e.1 = lower t e.2.name) (name : Str) :
    Sat t o s₀ id (.deleteGroup name) (AtEnd t o s₀ id (.deleteGroup name)) []
      ((MembershipRequest.deleteGroup name).program t o) := by
  refine sat_check fresh_nil fun _ => sat_loadGroup fresh_nil fun tr group hfresh hgroup => ?_
  rw [Awaited.deleteGroup]
  split
  · exact ⟨hfresh.unwritten, hfresh.undropped⟩
  · -- the members leave, then the group is deleted
    have hrest : ∀ (tr : Trace StoreCall StoreCall.Answer) (members : List User), dropped tr = false →
        Sat t o s₀ id (.deleteGroup name) (AtEnd t o s₀ id (.deleteGroup name)) tr
          (store (.deleteGroup group.name) >>= fun _ => store (.audit "group_deleted".toList) >>= fun _ =>
            store (.publish "group:deleted".toList) >>= fun _ => Awaited.publishAll members) := by
      intro tr members hundropped
      refine ⟨⟨hundropped, name, rfl, key_of_getGroup hkeys hgroup⟩, fun s hs => ⟨hs.answer ?_, ?_⟩⟩
      · rintro id' changes heq
        cases heq
      · refine sat_reports ⟨trivial, fun _ => ⟨trivial, fun _ => reports_publishAll members⟩⟩ (.inl ?_)
        exact (dropped_append _ _).trans (Bool.or_true _)
    cases hown : o.readOnlyUsers with
    | true => exact hrest tr [] hfresh.undropped
    | false =>
      refine ⟨trivial, fun s hs => ⟨hs, ?_⟩⟩
      let members := s.users.filter fun u => inGroup t u group.name
      show Sat t o s₀ id (.deleteGroup name) (AtEnd t o s₀ id (.deleteGroup name)) (tr ++ [⟨.getUsers, s.users⟩])
        (Awaited.leaveAll t group members >>= _)
      have hunwritten : wrote id (tr ++ [⟨.getUsers, s.users⟩]) = false := by
        rw [wrote_append, hfresh.unwritten]
        rfl
      have hundropped : dropped (tr ++ [⟨.getUsers, s.users⟩]) = false := by
        rw [dropped_append, hfresh.undropped]
        rfl
      have hread : seen id (tr ++ [⟨.getUsers, s.users⟩]) = s.groupsOf id := by
        rw [seen_append, hfresh.unread, Option.none_or]
        rfl
      have hleave : Sat t o s₀ id (.deleteGroup name) (fun tr' result => dropped tr' = false ∧ ∃ a, result = .ok a)
          (tr ++ [⟨.getUsers, s.users⟩]) (Awaited.leaveAll t group members) := by
        refine sat_leaveAll hgroup hown (s.users_nodup.sublist (List.filter_sublist.map _))
          (fun m hm => hs.mem (List.mem_of_mem_filter hm)) hundropped
          fun m hm hid => ⟨hunwritten, hundropped, fun _ => ?_⟩
        rw [hread, ← hid]
        exact groupsOf_of_mem (List.mem_of_mem_filter hm)
      refine hleave.bind (fun tr' _ h => hrest tr' members h.1) fun tr' e h => ?_
      obtain ⟨-, _, he⟩ := h
      cases he

/-- What every request satisfies. -/
theorem sat_program (hkeys : ∀ e ∈ s₀.groups, e.1 = lower t e.2.name) (r : MembershipRequest) :
    Sat t o s₀ id r (AtEnd t o s₀ id r) [] (r.program t o) := by
  cases r with
  | addMember caller name idOrName => exact sat_addMember caller name idOrName
  | removeMember caller name idOrName => exact sat_removeMember caller name idOrName
  | deleteGroup name => exact sat_deleteGroup hkeys name
  | updateUser caller idOrName groups => exact sat_updateUser caller idOrName groups

end CliServer
