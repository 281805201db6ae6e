import CliServer.Users.Service

/-!
# What a call does

`UsersEffect` says, for each operation that succeeds, which users and groups it writes and which of its checks passed
before.  It is proved once, from the operations (`usersStep_effect`); what holds in every reachable state follows from
it by a case for each kind of write.
-/

namespace CliServer

/-- The stores a call of an operation leaves, and the checks it passed. -/
inductive UsersEffect (t : CaseTable) (s : Stores) : UsersOp → Stores → Prop
  | userCreated {newId : Str} {req : CreateUserRequest} (user : User) (hid : user.id ∉ s.users.map User.id)
      (id : user.id = newId) (name : validateName (strip req.name) = .ok user.name)
      (email : validateEmail (strip req.email) = .ok user.email)
      (groups : ∃ names, resolveGroups t s names = .ok user.groups)
      (unique : ensureUnique t s (some user.name) (some user.email) none = .ok ()) :
      UsersEffect t s (.createUser newId req) (s.addUser user hid)
  | userUpdated {idOrName : Str} {req : UpdateUserRequest} (target : User) (c : UserChanges)
      (found : s.getUser t idOrName = some target) (name : changed validateName req.name target.name = .ok c.name)
      (email : changed validateEmail req.email target.email = .ok c.email)
      (groups : ∀ groups, c.groups = some groups → ∃ names, resolveGroups t s names = .ok groups)
      (unique : ensureUnique t s c.name c.email (some target.id) = .ok ())
      (notLast : removesAdmin t c.groups = true ∨ c.disabled = some true → isLastEnabledAdmin t s target = false) :
      UsersEffect t s (.updateUser idOrName req) (s.updateUser target.id c)
  | userDeleted {idOrName : Str} (target : User) (found : s.getUser t idOrName = some target)
      (notLast : isLastEnabledAdmin t s target = false) :
      UsersEffect t s (.deleteUser idOrName) (s.removeUser target.id)
  | groupCreated {name : Str} {description : Option Str} {permissions : Option (List Str)} (group : Group)
      (absent : s.getGroup t group.name = none) :
      UsersEffect t s (.createGroup name description permissions)
        { s with groups := s.groups ++ [(lower t group.name, group)] }
  | groupUpdated {name : Str} {description : Option Str} {permissions : Option (List Str)} (group : Group)
      (perms : Option (List Str)) (admin : lower t group.name = adminGroup → perms = none) :
      UsersEffect t s (.updateGroup name description permissions)
        (s.updateGroup (lower t group.name) description perms)
  | groupDeleted {name : Str} {s' : Stores} (group : Group) (found : s.getGroup t name = some group)
      (notBuiltIn : isBuiltIn t group = false) (hgroups : s'.groups = s.groups.filter (·.1 ≠ lower t group.name))
      (husers : s'.users = s.users.map fun u => if inGroup t u group.name then u.leave t group.name else u) :
      UsersEffect t s (.deleteGroup name) s'
  | memberAdded {name idOrName : Str} (group : Group) (user : User) (foundGroup : s.getGroup t name = some group)
      (foundUser : s.getUser t idOrName = some user) (absent : inGroup t user group.name = false) :
      UsersEffect t s (.addMember name idOrName)
        (s.updateUser user.id { groups := some (user.groups ++ [group.name]) })
  | memberRemoved {name idOrName : Str} (group : Group) (user : User) (foundUser : s.getUser t idOrName = some user)
      (notLast : lower t group.name = adminGroup → isLastEnabledAdmin t s user = false) :
      UsersEffect t s (.removeMember name idOrName)
        (s.updateUser user.id { groups := some (user.leave t group.name).groups })
  | unchanged {op : UsersOp} {s' : Stores} (husers : s'.users = s.users) (hgroups : s'.groups = s.groups) :
      UsersEffect t s op s'

variable {t : CaseTable} {opts : AuthServiceOptions} {s s' : Stores} {call : UsersCall}

theorem usersStep_effect (h : usersStep t opts s call = some s') : UsersEffect t s call.op s' := by
  obtain ⟨caller, op⟩ := call
  cases op with
  | createUser newId req =>
    simp only [usersStep] at h
    split at h
    · obtain ⟨user, hid, rfl, hnew, -, -, hname, hemail, hgroups, hunique⟩ := createUser_ok (ok_of_toOption h)
      exact .userCreated user hid hnew hname hemail hgroups hunique
    · cases h
  | updateUser idOrName req =>
    obtain ⟨target, hfound, h⟩ := Option.bind_eq_some_iff.1 h
    obtain ⟨c, rfl, -, hgroups, -, hname, hemail, hunique, hlast⟩ := updateUser_ok (ok_of_toOption h)
    exact .userUpdated target c hfound hname hemail (fun groups hg => ⟨_, hgroups groups hg⟩) hunique hlast
  | deleteUser idOrName =>
    obtain ⟨target, hfound, h⟩ := Option.bind_eq_some_iff.1 h
    obtain ⟨rfl, hlast⟩ := deleteUser_ok (ok_of_toOption h)
    exact .userDeleted target hfound hlast
  | createGroup name description permissions =>
    obtain ⟨perms, rfl, -, habsent, -⟩ := createGroup_ok (ok_of_toOption h)
    exact .groupCreated ⟨strip name, description, perms, false⟩ habsent
  | updateGroup name description permissions =>
    obtain ⟨group, -, h⟩ := Option.bind_eq_some_iff.1 h
    obtain ⟨perms, rfl, -, -, -, hadmin⟩ := updateGroup_ok (ok_of_toOption h)
    exact .groupUpdated group perms hadmin
  | deleteGroup name =>
    obtain ⟨group, hfound, h⟩ := Option.bind_eq_some_iff.1 h
    obtain ⟨hbuiltIn, hgroups, husers⟩ := deleteGroup_ok (ok_of_toOption h)
    exact .groupDeleted group hfound hbuiltIn hgroups husers
  | addMember name idOrName =>
    obtain ⟨group, hgroup, h⟩ := Option.bind_eq_some_iff.1 h
    obtain ⟨user, huser, h⟩ := Option.bind_eq_some_iff.1 h
    rcases addMember_ok (ok_of_toOption h) with rfl | ⟨rfl, -, habsent⟩
    · exact .unchanged rfl rfl
    · exact .memberAdded group user hgroup huser habsent
  | removeMember name idOrName =>
    obtain ⟨group, -, h⟩ := Option.bind_eq_some_iff.1 h
    obtain ⟨user, huser, h⟩ := Option.bind_eq_some_iff.1 h
    rcases removeMember_ok (ok_of_toOption h) with rfl | ⟨rfl, hlast⟩
    · exact .unchanged rfl rfl
    · exact .memberRemoved group user huser hlast
  | createToken newId now req =>
    simp only [usersStep] at h
    split at h
    · obtain ⟨ctx, -, h⟩ := Option.bind_eq_some_iff.1 h
      obtain ⟨-, token, rfl, -⟩ := createToken_ok (ok_of_toOption h)
      exact .unchanged rfl rfl
    · cases h
  | revokeToken id =>
    obtain ⟨ctx, -, h⟩ := Option.bind_eq_some_iff.1 h
    obtain ⟨husers, hgroups, -⟩ := revokeToken_ok (ok_of_toOption h)
    exact .unchanged husers hgroups

/-! ### The checks -/

/-- The names `resolve_groups` returns are stored names of groups, each once. -/
theorem resolveGroups_ok {names : Option (List Str)} {groups : List Str} (h : resolveGroups t s names = .ok groups) :
    (groups.map (lower t)).Nodup ∧ ∀ g ∈ groups, ∃ name group, s.getGroup t name = some group ∧ group.name = g := by
  have hfrom : ∀ (rest out : List Str), resolveFrom t s out rest = .ok groups → (out.map (lower t)).Nodup →
      (∀ g ∈ out, ∃ name group, s.getGroup t name = some group ∧ group.name = g) →
      (groups.map (lower t)).Nodup ∧ ∀ g ∈ groups, ∃ name group, s.getGroup t name = some group ∧ group.name = g := by
    intro rest
    induction rest with
    | nil =>
      intro out h hnodup hout
      obtain rfl := Except.ok.inj h
      exact ⟨hnodup, hout⟩
    | cons raw rest ih =>
      intro out h hnodup hout
      simp only [resolveFrom] at h
      split at h
      · exact ih out h hnodup hout
      · split at h
        · cases h
        · rename_i g hg
          have hfound : s.getGroup t (strip raw) = some g := by
            split at hg
            · exact hg
            · cases hg
          split at h
          · exact ih out h hnodup hout
          · rename_i hnew
            refine ih _ h ?_ fun x hx => ?_
            · rw [List.map_append, List.nodup_append]
              refine ⟨hnodup, List.nodup_singleton _, ?_⟩
              intro a ha b hb hab
              obtain ⟨x, hx, rfl⟩ := List.mem_map.1 ha
              obtain rfl := List.mem_singleton.1 hb
              exact hnew (List.any_eq_true.2 ⟨x, hx, by simpa using hab⟩)
            · rcases List.mem_append.1 hx with hx | hx
              · exact hout x hx
              · exact ⟨_, g, hfound, (List.mem_singleton.1 hx).symm⟩
  exact hfrom _ [] h List.nodup_nil fun g hg => absurd hg List.not_mem_nil

/-- A name or email that `_ensure_unique` lets pass is not a name or email of another user. -/
theorem ensureUnique_ok {name email excludeId : Option Str} (h : ensureUnique t s name email excludeId = .ok ()) :
    ∀ u ∈ s.users, excludeId ≠ some u.id →
      (∀ n ∈ name, lower t n ≠ lower t u.name ∧ lower t n ≠ lower t u.email) ∧
      ∀ e ∈ email, lower t e ≠ lower t u.name ∧ lower t e ≠ lower t u.email := by
  have hin : ∀ us : List User, ensureUniqueIn t name email excludeId us = .ok () → ∀ u ∈ us, excludeId ≠ some u.id →
      (∀ n ∈ name, lower t n ≠ lower t u.name ∧ lower t n ≠ lower t u.email) ∧
      ∀ e ∈ email, lower t e ≠ lower t u.name ∧ lower t e ≠ lower t u.email := by
    intro us
    induction us with
    | nil => exact fun _ u hu => absurd hu List.not_mem_nil
    | cons v us ih =>
      intro h u hu hne
      simp only [ensureUniqueIn] at h
      split at h
      · rename_i hexcluded
        rcases List.mem_cons.1 hu with rfl | hu
        · exact absurd hexcluded hne
        · exact ih h u hu hne
      · split at h
        · cases h
        · rename_i hname
          split at h
          · cases h
          · rename_i hemail
            rcases List.mem_cons.1 hu with rfl | hu
            · refine ⟨fun n hn => ?_, fun e he => ?_⟩
              · simpa using Option.filter_eq_none_iff.1 hname n hn
              · simpa using Option.filter_eq_none_iff.1 hemail e he
            · exact ih h u hu hne
  exact hin s.users h

/-- An enabled member of the admin group that is not the last one leaves another. -/
theorem exists_other_admin {user : User} (hmem : user ∈ s.users) (henabled : user.disabled = false)
    (hadmin : inGroup t user adminGroup = true) (h : isLastEnabledAdmin t s user = false) :
    ∃ other ∈ s.users, other.id ≠ user.id ∧ other.disabled = false ∧ inGroup t other adminGroup = true := by
  have hlength : 1 < (s.users.filter fun u => !u.disabled && inGroup t u adminGroup).length := by
    simpa [isLastEnabledAdmin, henabled, hadmin] using h
  have hnodup : (s.users.filter fun u => !u.disabled && inGroup t u adminGroup).Nodup :=
    (List.Nodup.of_map _ s.users_nodup).filter _
  rw [← List.toFinset_card_of_nodup hnodup] at hlength
  obtain ⟨other, hother, hne⟩ := Finset.exists_mem_ne hlength user
  obtain ⟨hother, hboth⟩ := List.mem_filter.1 (List.mem_toFinset.1 hother)
  refine ⟨other, hother, fun hid => hne (s.eq_of_id_eq hother hmem hid), ?_⟩
  simpa using hboth

end CliServer
