import CliServer.Lib.Transition
import CliServer.Users.Effects

/-!
# Groups, their members and the last admin

From seeded stores on, whatever sequence of calls follows, the names in the users' lists are stored names of groups that
exist, each once (`memberships_integrity`), and the admin group is there with `*` and has an enabled member
(`last_admin`).  Under an auth adapter `seed` makes no root user, so that the last part needs an admin to start from.
-/

namespace CliServer

open Transition

/-- What `seed` reads of the options. -/
structure SeedOptions where
  externalAuth : Bool := false
  readOnlyUsers : Bool := false
  readOnlyGroups : Bool := false

variable (t : CaseTable)

/-- The stores of a new server. -/
def emptyStores : Stores := ⟨[], [], [], List.nodup_nil⟩

/-- `InMemoryGroupStore.create_group` of a built-in group, unless there is a group of that name. -/
def seedGroup (s : Stores) (name description : Str) (permissions : List Str) : Stores :=
  if (s.getGroup t name).isSome then s
  else { s with groups := s.groups ++ [(lower t name, ⟨name, some description, permissions, true⟩)] }

/-- `seed`; `rootId` is the id that `root` gets. -/
def seedStores (o : SeedOptions) (rootId : Str) (s : Stores) : Stores :=
  let s :=
    if o.readOnlyGroups then s
    else
      let s := seedGroup t s adminGroup "Administrators".toList [['*']]
      seedGroup t s usersGroup "Default group for new accounts".toList ["commands:execute".toList]
  if o.externalAuth ∨ o.readOnlyUsers then s
  else if h : s.users = [] then
    s.addUser ⟨rootId, "root".toList, "root@localhost".toList, [adminGroup], false, none⟩ (by simp [h])
  else s

/-- The stores a server starts with, under an auth adapter or not. -/
def seeded (externalAuth : Bool) (rootId : Str) : Stores :=
  seedStores t { externalAuth := externalAuth } rootId emptyStores

/-- The admin group is there and grants everything. -/
def AdminGroup (s : Stores) : Prop := ∃ g, s.getGroup t adminGroup = some g ∧ g.permissions = [['*']]

/-- An enabled user is a member of the admin group. -/
def HasAdmin (s : Stores) : Prop := ∃ u ∈ s.users, u.disabled = false ∧ inGroup t u adminGroup = true

/-- The users' lists name groups that exist, as they are stored, each once; the built-in groups are there. -/
structure Memberships (s : Stores) : Prop where
  keys : ∀ e ∈ s.groups, e.1 = lower t e.2.name
  exist : ∀ u ∈ s.users, ∀ g ∈ u.groups, ∃ group, s.getGroup t g = some group ∧ group.name = g
  once : ∀ u ∈ s.users, (u.groups.map (lower t)).Nodup
  builtIn : (s.getGroup t adminGroup).isSome ∧ (s.getGroup t usersGroup).isSome

variable {t} {opts : AuthServiceOptions} {s s' : Stores} {op : UsersOp}

@[simp] theorem lower_adminGroup : lower t adminGroup = adminGroup := rfl

@[simp] theorem lower_usersGroup : lower t usersGroup = usersGroup := rfl

private theorem seeded_local (rootId : Str) : seeded t false rootId = seed rootId := rfl

private theorem seeded_external (rootId : Str) :
    (seeded t true rootId).users = [] ∧ (seeded t true rootId).groups = (seed rootId).groups := ⟨rfl, rfl⟩

private theorem seeded_groups (externalAuth : Bool) (rootId : Str) : (seeded t externalAuth rootId).groups =
    (seed rootId).groups := by
  cases externalAuth <;> rfl

/-! ### Groups by name -/

theorem getGroup_congr {name name' : Str} (h : lower t name = lower t name') :
    s.getGroup t name = s.getGroup t name' := by
  rw [Stores.getGroup, h, ← Stores.getGroup]

theorem getGroup_of_groups (h : s'.groups = s.groups) (name : Str) : s'.getGroup t name = s.getGroup t name := by
  rw [Stores.getGroup, h, ← Stores.getGroup]

/-- A group that is there stays what it is when another one is created. -/
theorem getGroup_append {name : Str} {g : Group} {e : Str × Group} (h : s.getGroup t name = some g) :
    Stores.getGroup t { s with groups := s.groups ++ [e] } name = some g := by
  obtain ⟨e', he', rfl⟩ := Option.map_eq_some_iff.1 h
  simp [Stores.getGroup, List.find?_append, he']

/-- An update keeps the names, and the permissions of every group but the one it is about. -/
private theorem getGroup_update {name key : Str} {g : Group} {description : Option Str} {perms : Option (List Str)}
    (h : s.getGroup t name = some g) :
    ∃ g', (s.updateGroup key description perms).getGroup t name = some g' ∧ g'.name = g.name ∧
      (lower t name ≠ key ∨ perms = none → g'.permissions = g.permissions) := by
  obtain ⟨e, he, rfl⟩ := Option.map_eq_some_iff.1 h
  have hkey : e.1 = lower t name := by simpa using List.find?_some he
  have hfind : (s.updateGroup key description perms).groups.find? (·.1 = lower t name) =
      some (if e.1 = key then (e.1, { e.2 with
        description := description.or e.2.description, permissions := perms.getD e.2.permissions }) else e) := by
    rw [Stores.updateGroup, List.find?_map, Option.map_eq_some_iff]
    refine ⟨e, ?_, rfl⟩
    rw [← he]
    congr 1
    funext x
    simp only [Function.comp_apply]
    split <;> rfl
  rw [Stores.getGroup, hfind]
  by_cases hek : e.1 = key
  · rw [if_pos hek]
    refine ⟨_, rfl, rfl, ?_⟩
    rintro (hne | rfl)
    · exact absurd (hkey.symm.trans hek) hne
    · rfl
  · rw [if_neg hek]
    exact ⟨_, rfl, rfl, fun _ => rfl⟩

/-- Deleting a group leaves the others. -/
theorem getGroup_filter {name key : Str} (hgroups : s'.groups = s.groups.filter (·.1 ≠ key))
    (hne : lower t name ≠ key) : s'.getGroup t name = s.getGroup t name := by
  rw [Stores.getGroup, Stores.getGroup, hgroups, List.find?_filter]
  congr 2
  funext e
  by_cases he : e.1 = lower t name
  · simp [he, hne]
  · simp [he]

theorem Stores.mem_updateUser {id : Str} {c : UserChanges} {u' : User} (h : u' ∈ (s.updateUser id c).users) :
    ∃ u ∈ s.users, (u.id = id ∧ u' = c.apply u) ∨ (u.id ≠ id ∧ u' = u) := by
  obtain ⟨u, hu, rfl⟩ := List.mem_map.1 h
  refine ⟨u, hu, ?_⟩
  by_cases hid : u.id = id
  · exact .inl ⟨hid, if_pos hid⟩
  · exact .inr ⟨hid, if_neg hid⟩

theorem Stores.apply_mem_updateUser {target : User} {c : UserChanges} (h : target ∈ s.users) :
    c.apply target ∈ (s.updateUser target.id c).users := List.mem_map.2 ⟨target, h, if_pos rfl⟩

theorem Stores.other_mem_updateUser {id : Str} {c : UserChanges} {u : User} (h : u ∈ s.users) (hne : u.id ≠ id) :
    u ∈ (s.updateUser id c).users := List.mem_map.2 ⟨u, h, if_neg hne⟩

/-! ### The last admin -/

private theorem not_builtIn {group : Group} (h : isBuiltIn t group = false) :
    lower t group.name ≠ adminGroup ∧ lower t group.name ≠ usersGroup := by
  have hnot : group.builtIn = false ∧ lower t group.name ∉ [adminGroup, usersGroup] := by simpa [isBuiltIn] using h
  simpa using hnot.2

theorem AdminGroup.step (h : AdminGroup t s) (he : UsersEffect t s op s') : AdminGroup t s' := by
  obtain ⟨g, hg, hperms⟩ := h
  cases he with
  | groupCreated group absent => exact ⟨g, getGroup_append hg, hperms⟩
  | groupUpdated group perms admin =>
    obtain ⟨g', hg', -, hkeep⟩ := @getGroup_update t s _ (lower t group.name) g _ perms hg
    refine ⟨g', hg', (hkeep ?_).trans hperms⟩
    by_cases hadmin : lower t group.name = adminGroup
    · exact .inr (admin hadmin)
    · exact .inl fun heq => hadmin (heq.symm.trans lower_adminGroup)
  | groupDeleted group found notBuiltIn hgroups husers =>
    have hne : lower t adminGroup ≠ lower t group.name := fun heq => (not_builtIn notBuiltIn).1 heq.symm
    exact ⟨g, (getGroup_filter hgroups hne).trans hg, hperms⟩
  | unchanged husers hgroups => exact ⟨g, (getGroup_of_groups hgroups _).trans hg, hperms⟩
  | _ => exact ⟨g, hg, hperms⟩

/-- A change of one user leaves an admin when it leaves the user one, or the user was not the last. -/
theorem HasAdmin.updateUser {target : User} {c : UserChanges} (h : HasAdmin t s) (htarget : target ∈ s.users)
    (hkeep : isLastEnabledAdmin t s target = true → target.disabled = false → inGroup t target adminGroup = true →
      (c.apply target).disabled = false ∧ inGroup t (c.apply target) adminGroup = true) :
    HasAdmin t (s.updateUser target.id c) := by
  obtain ⟨a, ha, henabled, hadmin⟩ := h
  by_cases hid : a.id = target.id
  · obtain rfl := s.eq_of_id_eq ha htarget hid
    cases hlast : isLastEnabledAdmin t s a with
    | true =>
      obtain ⟨henabled', hadmin'⟩ := hkeep hlast henabled hadmin
      exact ⟨_, Stores.apply_mem_updateUser ha, henabled', hadmin'⟩
    | false =>
      obtain ⟨b, hb, hne, henabled', hadmin'⟩ := exists_other_admin ha henabled hadmin hlast
      exact ⟨b, Stores.other_mem_updateUser hb hne, henabled', hadmin'⟩
  · exact ⟨a, Stores.other_mem_updateUser ha hid, henabled, hadmin⟩

/-- A user that leaves another group stays in the admin group. -/
private theorem inGroup_leave {u : User} {group : Str} (hne : lower t group ≠ adminGroup)
    (h : inGroup t u adminGroup = true) : inGroup t (u.leave t group) adminGroup = true := by
  obtain ⟨x, hx, heq⟩ := inGroup_iff.1 h
  have hkept : x ∈ (u.leave t group).groups := by
    refine List.mem_filter.2 ⟨hx, ?_⟩
    simp only [decide_eq_true_eq]
    intro hx
    exact hne (hx.symm.trans heq)
  exact inGroup_iff.2 ⟨x, hkept, heq⟩

theorem HasAdmin.step (h : HasAdmin t s) (he : UsersEffect t s op s') : HasAdmin t s' := by
  cases he with
  | userCreated user hid =>
    obtain ⟨a, ha, hadmin⟩ := h
    exact ⟨a, List.mem_append_left _ ha, hadmin⟩
  | userUpdated target c found name email groups unique notLast =>
    refine h.updateUser (s.mem_of_getUser found) fun hlast henabled hadmin => ?_
    have hnot : ¬ (removesAdmin t c.groups = true ∨ c.disabled = some true) := by
      intro hremoves
      rw [notLast hremoves] at hlast
      cases hlast
    constructor
    · cases hd : c.disabled with
      | none => simpa [UserChanges.apply, hd] using henabled
      | some d =>
        cases d with
        | true => exact absurd (.inr hd) hnot
        | false => simp [UserChanges.apply, hd]
    · cases hg : c.groups with
      | none => simpa [UserChanges.apply, hg, inGroup] using hadmin
      | some gs =>
        have hkeeps : removesAdmin t (some gs) = false := Bool.eq_false_iff.2 fun h => hnot (.inl (hg ▸ h))
        obtain ⟨x, hx, heq⟩ : ∃ x ∈ gs, decide (lower t x = adminGroup) = true := by
          simpa [removesAdmin] using hkeeps
        refine inGroup_iff.2 ⟨x, ?_, of_decide_eq_true heq⟩
        simpa [UserChanges.apply, hg] using hx
  | userDeleted target found notLast =>
    obtain ⟨a, ha, henabled, hadmin⟩ := h
    by_cases hid : a.id = target.id
    · obtain rfl := s.eq_of_id_eq ha (s.mem_of_getUser found) hid
      obtain ⟨b, hb, hne, hb'⟩ := exists_other_admin ha henabled hadmin notLast
      exact ⟨b, List.mem_filter.2 ⟨hb, by simpa using hne⟩, hb'⟩
    · exact ⟨a, List.mem_filter.2 ⟨ha, by simpa using hid⟩, henabled, hadmin⟩
  | memberAdded group user foundGroup foundUser absent =>
    refine h.updateUser (s.mem_of_getUser foundUser) fun _ henabled hadmin => ⟨henabled, ?_⟩
    have happend : inGroup t user adminGroup = true → inGroup t
        { user with groups := user.groups ++ [group.name] } adminGroup = true := by
      simp only [inGroup, List.any_append, Bool.or_eq_true]
      exact .inl
    exact happend hadmin
  | memberRemoved group user foundUser notLast =>
    refine h.updateUser (s.mem_of_getUser foundUser) fun hlast henabled hadmin => ⟨henabled, ?_⟩
    refine inGroup_leave (fun hname => ?_) hadmin
    rw [notLast hname] at hlast
    cases hlast
  | groupDeleted group found notBuiltIn hgroups husers =>
    obtain ⟨a, ha, henabled, hadmin⟩ := h
    refine ⟨_, husers ▸ List.mem_map_of_mem ha, ?_⟩
    split
    · exact ⟨henabled, inGroup_leave (not_builtIn notBuiltIn).1 hadmin⟩
    · exact ⟨henabled, hadmin⟩
  | unchanged husers hgroups =>
    rw [HasAdmin, husers]
    exact h
  | _ => exact h

/-! ### Memberships -/

/-- A group is found by its stored name. -/
private theorem Memberships.getGroup_name (h : Memberships t s) {name : Str} {g : Group}
    (hg : s.getGroup t name = some g) :
    s.getGroup t g.name = some g := by
  obtain ⟨e, he, rfl⟩ := Option.map_eq_some_iff.1 hg
  have hkey : e.1 = lower t name := by simpa using List.find?_some he
  rw [← hg]
  exact getGroup_congr ((h.keys e (List.mem_of_find?_eq_some he)).symm.trans hkey)

theorem Memberships.resolved (h : Memberships t s) {groups : List Str}
    (hresolved : ∃ names, resolveGroups t s names = .ok groups) :
    (groups.map (lower t)).Nodup ∧ ∀ g ∈ groups, ∃ group, s.getGroup t g = some group ∧ group.name = g := by
  obtain ⟨names, hnames⟩ := hresolved
  obtain ⟨hnodup, hfound⟩ := resolveGroups_ok hnames
  refine ⟨hnodup, fun g hg => ?_⟩
  obtain ⟨name, group, hgroup, rfl⟩ := hfound g hg
  exact ⟨group, h.getGroup_name hgroup, rfl⟩

/-- A write of the users alone keeps the memberships when the users it writes have good lists. -/
theorem Memberships.users (h : Memberships t s) (hgroups : s'.groups = s.groups)
    (husers : ∀ u ∈ s'.users, u ∈ s.users ∨ (u.groups.map (lower t)).Nodup ∧
      ∀ g ∈ u.groups, ∃ group, s.getGroup t g = some group ∧ group.name = g) : Memberships t s' where
  keys := hgroups ▸ h.keys
  exist := by
    intro u hu g hg
    rw [getGroup_of_groups hgroups]
    rcases husers u hu with hu | ⟨-, hexist⟩
    · exact h.exist u hu g hg
    · exact hexist g hg
  once := by
    intro u hu
    rcases husers u hu with hu | ⟨honce, -⟩
    · exact h.once u hu
    · exact honce
  builtIn := by
    rw [getGroup_of_groups hgroups, getGroup_of_groups hgroups]
    exact h.builtIn

/-- New groups of one user. -/
theorem Memberships.updateUser (h : Memberships t s) {target : User} {c : UserChanges} (htarget : target ∈ s.users)
    (hnew : ∀ groups, c.groups = some groups → (groups.map (lower t)).Nodup ∧
      ∀ g ∈ groups, ∃ group, s.getGroup t g = some group ∧ group.name = g) :
    Memberships t (s.updateUser target.id c) := by
  refine h.users rfl fun u' hu' => ?_
  obtain ⟨u, hu, ⟨hid, rfl⟩ | ⟨-, rfl⟩⟩ := Stores.mem_updateUser hu'
  · obtain rfl := s.eq_of_id_eq hu htarget hid
    right
    cases hg : c.groups with
    | none =>
      have hsame : (c.apply u).groups = u.groups := by simp [UserChanges.apply, hg]
      rw [hsame]
      exact ⟨h.once u hu, h.exist u hu⟩
    | some groups =>
      have hset : (c.apply u).groups = groups := by simp [UserChanges.apply, hg]
      rw [hset]
      exact hnew groups hg
  · exact .inl hu

/-- What deleting a group does to a user's list: it loses the group's stored name and nothing else. -/
theorem Memberships.leave (h : Memberships t s) {u : User} (hu : u ∈ s.users) {name : Str} {group : Group}
    (hfound : s.getGroup t name = some group) :
    (if inGroup t u group.name then u.leave t group.name else u) =
      { u with groups := u.groups.filter fun g => g ≠ group.name } := by
  have hname : ∀ g ∈ u.groups, lower t g = lower t group.name ↔ g = group.name := by
    intro g hg
    refine ⟨fun heq => ?_, fun heq => heq ▸ rfl⟩
    obtain ⟨g', hg', rfl⟩ := h.exist u hu g hg
    rw [getGroup_congr heq, h.getGroup_name hfound] at hg'
    rw [Option.some.inj hg']
  have hfilter : (u.leave t group.name).groups = u.groups.filter fun g => g ≠ group.name :=
    List.filter_congr fun g hg => by simp only [ne_eq, hname g hg]
  by_cases hin : inGroup t u group.name = true
  · rw [if_pos hin, ← hfilter]
    rfl
  · rw [if_neg hin]
    have hall : (u.groups.filter fun g => g ≠ group.name) = u.groups := by
      refine List.filter_eq_self.2 fun g hg => ?_
      have hne : lower t g ≠ lower t group.name := fun heq => hin (inGroup_iff.2 ⟨g, hg, heq⟩)
      simpa using fun heq => hne ((hname g hg).2 heq)
    rw [hall]

theorem Memberships.step (h : Memberships t s) (he : UsersEffect t s op s') : Memberships t s' := by
  cases he with
  | userCreated user hid _ _ _ groups =>
    refine h.users rfl fun u hu => ?_
    rcases List.mem_append.1 hu with hu | hu
    · exact .inl hu
    · obtain rfl := List.mem_singleton.1 hu
      exact .inr (h.resolved groups)
  | userUpdated target c found name email groups =>
    exact h.updateUser (s.mem_of_getUser found) fun gs hgs => h.resolved (groups gs hgs)
  | userDeleted target =>
    exact h.users rfl fun u hu => .inl (List.mem_of_mem_filter hu)
  | groupCreated group absent =>
    refine ⟨fun e he => ?_, fun u hu g hg => ?_, h.once, ?_⟩
    · rcases List.mem_append.1 he with he | he
      · exact h.keys e he
      · obtain rfl := List.mem_singleton.1 he
        rfl
    · obtain ⟨group', hgroup', hname⟩ := h.exist u hu g hg
      exact ⟨group', getGroup_append hgroup', hname⟩
    · obtain ⟨a, ha⟩ := Option.isSome_iff_exists.1 h.builtIn.1
      obtain ⟨b, hb⟩ := Option.isSome_iff_exists.1 h.builtIn.2
      rw [getGroup_append ha, getGroup_append hb]
      exact ⟨rfl, rfl⟩
  | @groupUpdated _ description _ group perms admin =>
    have hkept : ∀ name g, s.getGroup t name = some g →
        ∃ g', (s.updateGroup (lower t group.name) description perms).getGroup t name = some g' ∧ g'.name = g.name := by
      intro name g hg
      obtain ⟨g', hg', hname, -⟩ := @getGroup_update t s _ (lower t group.name) g description perms hg
      exact ⟨g', hg', hname⟩
    refine ⟨fun e' he' => ?_, fun u hu g hg => ?_, h.once, ?_⟩
    · obtain ⟨e, he, rfl⟩ := List.mem_map.1 he'
      have hkey := h.keys e he
      split <;> exact hkey
    · obtain ⟨group', hgroup', hname⟩ := h.exist u hu g hg
      obtain ⟨group'', hgroup'', hname'⟩ := hkept _ _ hgroup'
      exact ⟨group'', hgroup'', hname'.trans hname⟩
    · obtain ⟨a, ha⟩ := Option.isSome_iff_exists.1 h.builtIn.1
      obtain ⟨b, hb⟩ := Option.isSome_iff_exists.1 h.builtIn.2
      obtain ⟨a', ha', -⟩ := hkept _ _ ha
      obtain ⟨b', hb', -⟩ := hkept _ _ hb
      rw [ha', hb']
      exact ⟨rfl, rfl⟩
  | groupDeleted group found notBuiltIn hgroups husers =>
    have hmembers : ∀ u' ∈ s'.users, ∃ u ∈ s.users,
        u'.groups = u.groups.filter fun g => g ≠ group.name := by
      intro u' hu'
      obtain ⟨u, hu, rfl⟩ := List.mem_map.1 (husers ▸ hu')
      exact ⟨u, hu, by rw [h.leave hu found]⟩
    refine ⟨fun e he => ?_, fun u' hu' g hg => ?_, fun u' hu' => ?_, ?_⟩
    · rw [hgroups] at he
      exact h.keys e (List.mem_of_mem_filter he)
    · obtain ⟨u, hu, heq⟩ := hmembers u' hu'
      rw [heq] at hg
      obtain ⟨hg, hne⟩ := List.mem_filter.1 hg
      obtain ⟨group', hgroup', hname⟩ := h.exist u hu g hg
      refine ⟨group', (getGroup_filter hgroups fun hlower => ?_).trans hgroup', hname⟩
      -- A name equal to the deleted one up to case is the deleted group's stored name.
      rw [getGroup_congr hlower, h.getGroup_name found] at hgroup'
      rw [← Option.some.inj hgroup'] at hname
      exact of_decide_eq_true hne hname.symm
    · obtain ⟨u, hu, heq⟩ := hmembers u' hu'
      rw [heq]
      exact (h.once u hu).sublist (List.filter_sublist.map _)
    · obtain ⟨hadmin, husersGroup⟩ := not_builtIn notBuiltIn
      have hkept : ∀ name, lower t name ≠ lower t group.name → s'.getGroup t name = s.getGroup t name :=
        fun _ hne => getGroup_filter hgroups hne
      rw [hkept adminGroup hadmin.symm, hkept usersGroup husersGroup.symm]
      exact h.builtIn
  | memberAdded group user foundGroup foundUser absent =>
    have hmem := s.mem_of_getUser foundUser
    refine h.updateUser hmem fun groups hgroups => ?_
    obtain rfl := Option.some.inj hgroups
    constructor
    · rw [List.map_append, List.nodup_append]
      refine ⟨h.once user hmem, List.nodup_singleton _, ?_⟩
      intro a ha b hb hab
      obtain ⟨g, hg, rfl⟩ := List.mem_map.1 ha
      obtain rfl := List.mem_singleton.1 hb
      exact Bool.eq_false_iff.1 absent (inGroup_iff.2 ⟨g, hg, hab⟩)
    · intro g hg
      rcases List.mem_append.1 hg with hg | hg
      · exact h.exist user hmem g hg
      · obtain rfl := List.mem_singleton.1 hg
        exact ⟨group, h.getGroup_name foundGroup, rfl⟩
  | memberRemoved group user foundUser notLast =>
    have hmem := s.mem_of_getUser foundUser
    refine h.updateUser hmem fun groups hgroups => ?_
    obtain rfl := Option.some.inj hgroups
    exact ⟨(h.once user hmem).sublist (List.filter_sublist.map _),
      fun g hg => h.exist user hmem g (List.mem_of_mem_filter hg)⟩
  | unchanged husers hgroups =>
    exact h.users hgroups fun u hu => .inl (husers ▸ hu)

/-! ### Runs from seeded stores -/

private theorem adminGroup_seeded (externalAuth : Bool) (rootId : Str) :
    AdminGroup t (seeded t externalAuth rootId) := by
  cases externalAuth <;> exact ⟨_, rfl, rfl⟩

private theorem memberships_seeded (externalAuth : Bool) (rootId : Str) :
    Memberships t (seeded t externalAuth rootId) where
  keys := by
    rw [seeded_groups]
    simp [seed]
  exist := by
    cases externalAuth with
    | true => simp [(seeded_external rootId).1]
    | false =>
      rw [seeded_local]
      intro u hu g hg
      obtain rfl := List.mem_singleton.1 hu
      obtain rfl := List.mem_singleton.1 hg
      exact ⟨_, rfl, rfl⟩
  once := by
    cases externalAuth with
    | true => simp [(seeded_external rootId).1]
    | false =>
      rw [seeded_local]
      intro u hu
      obtain rfl := List.mem_singleton.1 hu
      exact List.nodup_singleton _
  builtIn := by cases externalAuth <;> exact ⟨rfl, rfl⟩

theorem Memberships.run {externalAuth : Bool} {rootId : Str} {history : List (Move Stores UsersCall)}
    (h : Run (usersStep t opts) (seeded t externalAuth rootId) history s) : Memberships t s :=
  h.invariant (memberships_seeded externalAuth rootId) fun _ _ _ hs _ hst => hs.step (usersStep_effect hst)

/-- From seeded stores on, the admin group is there and grants `*`, a call never takes the last enabled admin away, and
there is one unless `seed` ran under an auth adapter. -/
theorem last_admin (externalAuth : Bool) (rootId : Str) {history : List (Move Stores UsersCall)}
    (h : Run (usersStep t opts) (seeded t externalAuth rootId) history s) :
    AdminGroup t s ∧ (∀ m ∈ history, HasAdmin t m.pre → HasAdmin t m.post) ∧
      (externalAuth = false → HasAdmin t s) := by
  refine ⟨?_, ?_, ?_⟩
  · exact h.invariant (adminGroup_seeded externalAuth rootId) fun _ _ _ hs _ hst => hs.step (usersStep_effect hst)
  · intro m hm hpre
    obtain ⟨-, -, hst⟩ := h.of_mem trivial (fun _ _ _ _ _ _ => trivial) hm
    exact hpre.step (usersStep_effect hst)
  · rintro rfl
    refine h.invariant ?_ fun _ _ _ hs _ hst => hs.step (usersStep_effect hst)
    exact ⟨_, List.mem_singleton.2 rfl, rfl, rfl⟩

/-- A call of the host that creates a user in the admin group. -/
def createAdmin : UsersCall where
  caller := none
  op := .createUser "a".toList
    { name := "ann".toList, email := "ann@localhost".toList, groups := some [adminGroup] }

theorem last_admin_deleted_root :
    let t : CaseTable := fun _ c _ => [c]
    ∃ history s, Run (usersStep t {}) (seeded t false ['r']) history s ∧ history.length = 2 ∧
      ['r'] ∉ s.users.map User.id ∧ HasAdmin t s := by
  intro t
  have hexec : ∃ history s, exec (usersStep t {}) (seeded t false ['r'])
      [createAdmin, ⟨none, .deleteUser "root".toList⟩] = some (history, s) ∧ history.length = 2 ∧
        ['r'] ∉ s.users.map User.id := ⟨_, _, rfl, by decide, by decide⟩
  obtain ⟨history, s, hexec, hlength, hroot⟩ := hexec
  exact ⟨history, s, run_of_exec hexec, hlength, hroot, (last_admin false ['r'] (run_of_exec hexec)).2.2 rfl⟩

/-- Under an auth adapter the seeded stores have no user, and so no admin. -/
theorem no_admin_under_adapter :
    let t : CaseTable := fun _ c _ => [c]
    Run (usersStep t {}) (seedStores t { externalAuth := true } ['r'] emptyStores) [] (seeded t true ['r']) ∧
      ¬ HasAdmin t (seeded t true ['r']) := by
  intro t
  refine ⟨.start, ?_⟩
  rintro ⟨u, hu, -⟩
  exact absurd hu List.not_mem_nil

/-- The users' lists name groups that exist, as they are stored, each group once; the built-in groups are there; and
deleting a group takes its stored name out of every user's list and changes nothing else of the users. -/
theorem memberships_integrity (externalAuth : Bool) (rootId : Str) {history : List (Move Stores UsersCall)}
    (h : Run (usersStep t opts) (seeded t externalAuth rootId) history s) :
    (∀ u ∈ s.users, (∀ g ∈ u.groups, ∃ group, s.getGroup t g = some group ∧ group.name = g) ∧
      (u.groups.map (lower t)).Nodup) ∧
    (s.getGroup t adminGroup).isSome ∧ (s.getGroup t usersGroup).isSome ∧
    ∀ m ∈ history, ∀ name, m.act.op = .deleteGroup name → ∃ group, m.pre.getGroup t name = some group ∧
      m.post.users = m.pre.users.map fun u => { u with groups := u.groups.filter fun g => g ≠ group.name } := by
  have hs := Memberships.run h
  refine ⟨fun u hu => ⟨hs.exist u hu, hs.once u hu⟩, hs.builtIn.1, hs.builtIn.2, ?_⟩
  intro m hm name hop
  obtain ⟨hpre, -, hst⟩ := h.of_mem (memberships_seeded externalAuth rootId)
    (fun _ _ _ hs _ hst => hs.step (usersStep_effect hst)) hm
  obtain ⟨pre, ⟨caller, op⟩, post⟩ := m
  obtain rfl : op = .deleteGroup name := hop
  obtain ⟨group, hfound, hst⟩ := Option.bind_eq_some_iff.1 hst
  replace hst := ok_of_toOption hst
  obtain ⟨-, -, husers⟩ := deleteGroup_ok hst
  refine ⟨group, hfound, ?_⟩
  rw [husers]
  exact List.map_congr_left fun u hu => hpre.leave hu hfound

/-- Calls of the host: a group, a user in it under another spelling, and the group deleted. -/
def opsCalls : List UsersCall :=
  [⟨none, .createGroup "Ops".toList none (some [])⟩,
   ⟨none, .createUser "b".toList
     { name := "bob".toList, email := "bob@localhost".toList, groups := some ["OPS".toList, usersGroup] }⟩,
   ⟨none, .deleteGroup "oPs".toList⟩]

theorem memberships_integrity_ops :
    let t : CaseTable := fun _ c _ => [c]
    ∃ history s, Run (usersStep t {}) (seeded t false ['r']) history s ∧
      (s.users.map User.groups) = [[adminGroup], [usersGroup]] ∧
      ∀ m ∈ history, ∀ name, m.act.op = .deleteGroup name → ∃ group, m.pre.getGroup t name = some group ∧
        m.post.users = m.pre.users.map fun u => { u with groups := u.groups.filter fun g => g ≠ group.name } := by
  intro t
  have hexec : ∃ history s, exec (usersStep t {}) (seeded t false ['r']) opsCalls = some (history, s) ∧
      (s.users.map User.groups) = [[adminGroup], [usersGroup]] := ⟨_, _, rfl, by decide⟩
  obtain ⟨history, s, hexec, hgroups⟩ := hexec
  exact ⟨history, s, run_of_exec hexec, hgroups, (memberships_integrity false ['r'] (run_of_exec hexec)).2.2.2⟩

end CliServer
