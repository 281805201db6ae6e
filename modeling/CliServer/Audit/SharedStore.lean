import Mathlib

/-!
# One audit log for a server

Audit plugins that are mounted on one server.  The first one serves; each other one that is mounted joins it: a store
that was set for it becomes the store of the serving plugin, and it is told the store of the serving plugin, then and
whenever that one is replaced.  A plugin tells its listeners: a users plugin, which records in the store, and the
plugins that joined it. `use_store` calls itself through the listeners, so the model counts the calls that are open;
two are enough (`mountAll_auditStore`).
-/

namespace CliServer.Audit

variable {ι σ φ : Type*}

/-- What a plugin calls when its store is replaced: the function of a plugin that joined it, or `follow_audit_store`
of a users plugin. -/
inductive StoreListener (ι φ : Type*) where
  | joined (plugin : ι)
  | follower (follower : φ)
  deriving DecidableEq

/-- `CliAuditPlugin`; `authorize` and `event_bus` are numbered. -/
structure AuditPlugin (ι σ φ : Type*) where
  store : σ
  storeSet : Bool := false
  authorize : Option Nat := none
  eventBus : Option Nat := none
  listeners : List (StoreListener ι φ) := []

/-- The server, the plugins of its host and the stores in which the followers record. -/
structure AuditServer (ι σ φ : Type*) where
  plugins : ι → AuditPlugin ι σ φ
  follows : φ → σ
  eventBus : Option Nat := none
  serving : Option ι := none

namespace AuditServer

section

variable [DecidableEq ι] [DecidableEq σ] [DecidableEq φ]

/-- A plugin is changed. -/
def setPlugin (s : AuditServer ι σ φ) (self : ι) (plugin : AuditPlugin ι σ φ) : AuditServer ι σ φ :=
  { s with plugins := Function.update s.plugins self plugin }

/-- `use_store`, with at most so many calls open. -/
def useStore : Nat → AuditServer ι σ φ → ι → σ → Bool → Option (AuditServer ι σ φ)
  | 0, _, _, _, _ => none
  | calls + 1, s, self, store, explicit =>
    let plugin := { s.plugins self with storeSet := (s.plugins self).storeSet || explicit }
    if store = plugin.store then some (s.setPlugin self plugin)
    else plugin.listeners.foldlM (fun s listener => match listener with
        | .joined other => useStore calls s other store false
        | .follower f => some { s with follows := Function.update s.follows f store })
      (s.setPlugin self { plugin with store := store })

/-- The second step of `_join`: the check of the caller. -/
def joinAuthorize (s : AuditServer ι σ φ) (self other : ι) : AuditServer ι σ φ :=
  if (s.plugins self).authorize = none ∧ (s.plugins other).authorize ≠ none then
    s.setPlugin self { s.plugins self with authorize := (s.plugins other).authorize }
  else s

/-- `_join`. -/
def join (calls : Nat) (s : AuditServer ι σ φ) (self other : ι) : Option (AuditServer ι σ φ) :=
  let adopted := if (s.plugins other).storeSet then useStore calls s self (s.plugins other).store true else some s
  adopted.bind fun s =>
    let s := s.joinAuthorize self other
    (useStore calls s other (s.plugins self).store false).map fun s =>
      s.setPlugin self { s.plugins self with listeners := (s.plugins self).listeners ++ [.joined other] }

/-- `before_mount`, and whether the routes are added. -/
def beforeMount (calls : Nat) (s : AuditServer ι σ φ) (self : ι) : Option (AuditServer ι σ φ × Bool) :=
  let s := if (s.plugins self).eventBus = none then
    s.setPlugin self { s.plugins self with eventBus := s.eventBus } else s
  match s.serving with
  | none => some ({ s with serving := some self }, true)
  | some serving => if serving ≠ self then (s.join calls serving self).map (·, false) else some (s, false)

/-- The server after plugins are mounted. -/
def mountAll (calls : Nat) (s : AuditServer ι σ φ) (mounts : List ι) : Option (AuditServer ι σ φ) :=
  mounts.foldlM (fun s self => (s.beforeMount calls self).map Prod.fst) s

end

/-- The store that a listener uses. -/
def storeOf (s : AuditServer ι σ φ) : StoreListener ι φ → σ
  | .joined plugin => (s.plugins plugin).store
  | .follower f => s.follows f

end AuditServer

/-- The plugins of a host as they were built: a follower follows one plugin, and no plugin has joined another. -/
structure AuditHost (ι σ φ : Type*) where
  plugin : ι → AuditPlugin ι σ φ
  owner : φ → ι
  built : ∀ p, ∀ l ∈ (plugin p).listeners, ∃ f, l = .follower f ∧ owner f = p
  eventBus : Option Nat := none

namespace AuditHost

variable (host : AuditHost ι σ φ)

/-- The server before the first plugin is mounted. -/
def server : AuditServer ι σ φ where
  plugins := host.plugin
  follows f := (host.plugin (host.owner f)).store
  eventBus := host.eventBus

/-- The log of the server: of the plugins, each where it was mounted first, the store of the last one for which a
store was set, or the store of the first one. -/
def auditStore [DecidableEq ι] (mounts : List ι) : Option σ :=
  (((mounts.eraseDups.filter fun p => (host.plugin p).storeSet).getLast?).or mounts.eraseDups.head?).map
    fun p => (host.plugin p).store

variable [DecidableEq ι] {mounts : List ι} {p : ι}

private theorem auditStore_append_of_mem (hp : p ∈ mounts) :
    host.auditStore (mounts ++ [p]) = host.auditStore mounts := by
  have hdups : (mounts ++ [p]).eraseDups = mounts.eraseDups := by
    rw [List.eraseDups_append]
    simp [List.removeAll, hp]
  rw [auditStore, hdups]
  rfl

private theorem auditStore_append (hp : p ∉ mounts) :
    host.auditStore (mounts ++ [p]) =
      if (host.plugin p).storeSet ∨ mounts = [] then some (host.plugin p).store else host.auditStore mounts := by
  have hdups : (mounts ++ [p]).eraseDups = mounts.eraseDups ++ [p] := by
    rw [List.eraseDups_append]
    simp [List.removeAll, hp, List.eraseDups_cons]
  rw [auditStore, hdups, List.filter_append]
  by_cases hset : (host.plugin p).storeSet = true
  · simp [hset]
  · cases mounts with
    | nil => simp [hset]
    | cons q mounts => simp [hset, auditStore, List.eraseDups_cons]

end AuditHost

/-! ### Listeners -/

/-- The followers among listeners. -/
def followersOf (l : List (StoreListener ι φ)) : List φ :=
  l.filterMap fun listener => match listener with
    | .follower f => some f
    | .joined _ => none

/-- The plugins among listeners. -/
def joinedOf (l : List (StoreListener ι φ)) : List ι :=
  l.filterMap fun listener => match listener with
    | .follower _ => none
    | .joined p => some p

private theorem mem_followersOf {l : List (StoreListener ι φ)} {f : φ} : f ∈ followersOf l ↔ .follower f ∈ l := by
  induction l with
  | nil => simp [followersOf]
  | cons listener l ih =>
    cases listener with
    | joined p => simpa [followersOf] using ih
    | follower g => simpa [followersOf] using or_congr_right ih

private theorem mem_joinedOf {l : List (StoreListener ι φ)} {p : ι} : p ∈ joinedOf l ↔ .joined p ∈ l := by
  induction l with
  | nil => simp [joinedOf]
  | cons listener l ih =>
    cases listener with
    | joined q => simpa [joinedOf] using or_congr_right ih
    | follower f => simpa [joinedOf] using ih

namespace AuditServer

variable {s : AuditServer ι σ φ} {p : ι} {owner : φ → ι}

/-- A plugin's followers record in its store. -/
def Followed (s : AuditServer ι σ φ) (p : ι) : Prop :=
  ∀ f, .follower f ∈ (s.plugins p).listeners → s.follows f = (s.plugins p).store

/-- The listeners of a plugin that serves no others: its own followers, who record in its store. -/
structure Leaf (owner : φ → ι) (s : AuditServer ι σ φ) (p : ι) : Prop where
  own : ∀ l ∈ (s.plugins p).listeners, ∃ f, l = .follower f ∧ owner f = p
  followed : s.Followed p

private theorem Leaf.owner_eq (h : Leaf owner s p) {f : φ} (hf : .follower f ∈ (s.plugins p).listeners) :
    owner f = p := by
  obtain ⟨g, heq, hg⟩ := h.own _ hf
  cases heq
  exact hg

section

variable [DecidableEq ι] {r : ι} {l : List (StoreListener ι φ)}

private theorem setListeners_store :
    ((s.setPlugin p { s.plugins p with listeners := l }).plugins r).store = (s.plugins r).store := by
  by_cases hr : r = p
  · subst hr
    simp [setPlugin]
  · simp [setPlugin, hr]

private theorem setListeners_storeSet :
    ((s.setPlugin p { s.plugins p with listeners := l }).plugins r).storeSet = (s.plugins r).storeSet := by
  by_cases hr : r = p
  · subst hr
    simp [setPlugin]
  · simp [setPlugin, hr]

private theorem setListeners_listeners : ((s.setPlugin p { s.plugins p with listeners := l }).plugins r).listeners =
    if r = p then l else (s.plugins r).listeners := by
  by_cases hr : r = p
  · subst hr
    simp [setPlugin]
  · simp [setPlugin, hr]

end

end AuditServer

/-! ### One store -/

/-- After mounts: the plugin that was mounted first serves; its listeners are its followers and the others that were
mounted, and the listeners of every other plugin are its followers; those that were mounted have one store. -/
structure OneStore (host : AuditHost ι σ φ) (mounts : List ι) (store : Option σ) (s : AuditServer ι σ φ) : Prop where
  serving : s.serving = mounts.head?
  unmounted : ∀ p ∉ mounts, (s.plugins p).store = (host.plugin p).store ∧
    (s.plugins p).storeSet = (host.plugin p).storeSet
  star : ∀ p, ∀ l ∈ (s.plugins p).listeners, (∃ f, l = .follower f ∧ host.owner f = p) ∨
    (s.serving = some p ∧ ∃ q ∈ mounts, l = .joined q ∧ q ≠ p)
  joined : ∀ p, s.serving = some p → ∀ q ∈ mounts, q ≠ p → .joined q ∈ (s.plugins p).listeners
  followed : ∀ p, s.Followed p
  stores : ∀ p ∈ mounts, some (s.plugins p).store = store

namespace OneStore

open AuditServer

variable {host : AuditHost ι σ φ} {mounts : List ι} {kept : Option σ} {s s' : AuditServer ι σ φ} {p q : ι} {f : φ}

theorem start (host : AuditHost ι σ φ) : OneStore host [] none host.server where
  serving := rfl
  unmounted := fun _ _ => ⟨rfl, rfl⟩
  star := fun p l hl => .inl (host.built p l hl)
  joined := fun _ _ _ hq => absurd hq List.not_mem_nil
  followed := by
    intro p f hf
    obtain ⟨g, heq, hg⟩ := host.built p _ hf
    cases heq
    show (host.plugin (host.owner f)).store = _
    rw [hg]
    rfl
  stores := fun _ hp => absurd hp List.not_mem_nil

private theorem mem_of_serving (h : OneStore host mounts kept s) (hp : s.serving = some p) : p ∈ mounts := by
  rw [h.serving] at hp
  exact List.mem_of_head? hp

private theorem owner_eq (h : OneStore host mounts kept s) (hf : .follower f ∈ (s.plugins p).listeners) :
    host.owner f = p := by
  rcases h.star p _ hf with ⟨g, heq, hg⟩ | ⟨-, q, -, heq, -⟩
  · cases heq
    exact hg
  · cases heq

private theorem joined_ne (h : OneStore host mounts kept s) (hq : .joined q ∈ (s.plugins p).listeners) :
    s.serving = some p ∧ q ∈ mounts ∧ q ≠ p := by
  rcases h.star p _ hq with ⟨g, heq, -⟩ | ⟨hp, q, hq, heq, hne⟩
  · cases heq
  · cases heq
    exact ⟨hp, hq, hne⟩

theorem leaf (h : OneStore host mounts kept s) (hp : s.serving ≠ some p) : Leaf host.owner s p where
  own := fun l hl => (h.star p l hl).resolve_right fun hserving => hp hserving.1
  followed := h.followed p

/-- What the stores do not depend on. -/
theorem congr (h : OneStore host mounts kept s) (hserving : s'.serving = s.serving) (hfollows : s'.follows = s.follows)
    (hplugins : ∀ p, (s'.plugins p).store = (s.plugins p).store ∧ (s'.plugins p).listeners = (s.plugins p).listeners)
    (hset : ∀ p ∉ mounts, (s'.plugins p).storeSet = (s.plugins p).storeSet) : OneStore host mounts kept s' where
  serving := hserving.trans h.serving
  unmounted := fun p hp => ⟨(hplugins p).1.trans (h.unmounted p hp).1, (hset p hp).trans (h.unmounted p hp).2⟩
  star := by
    intro p l hl
    rw [(hplugins p).2] at hl
    rw [hserving]
    exact h.star p l hl
  joined := by
    intro p hp
    rw [(hplugins p).2]
    exact h.joined p (hserving ▸ hp)
  followed := by
    intro p f hf
    rw [(hplugins p).2] at hf
    rw [hfollows, (hplugins p).1]
    exact h.followed p f hf
  stores := fun p hp => by rw [(hplugins p).1, h.stores p hp]

/-- The serving plugin is mounted again. -/
theorem again (h : OneStore host mounts kept s) (hserving : s.serving = some p) :
    OneStore host (mounts ++ [p]) kept s := by
  have hp := h.mem_of_serving hserving
  have hmem : ∀ q, q ∈ mounts ++ [p] ↔ q ∈ mounts := by
    intro q
    rw [List.mem_append, List.mem_singleton]
    exact or_iff_left_of_imp fun heq => heq ▸ hp
  refine ⟨?_, fun q hq => h.unmounted q (mt (hmem q).2 hq), ?_, fun q hq r hr => h.joined q hq r ((hmem r).1 hr),
    h.followed, fun q hq => h.stores q ((hmem q).1 hq)⟩
  · rw [h.serving]
    cases mounts with
    | nil => cases hp
    | cons q mounts => rfl
  · intro q l hl
    exact (h.star q l hl).imp_right fun ⟨hq, r, hr, hl⟩ => ⟨hq, r, (hmem r).2 hr, hl⟩

/-- The first plugin is mounted. -/
theorem first (h : OneStore host [] kept s) (p : ι) :
    OneStore host [p] (some (host.plugin p).store) { s with serving := some p } := by
  refine ⟨rfl, fun q _ => h.unmounted q List.not_mem_nil, fun q l hl => ?_, fun q hq r hr hne => ?_, h.followed,
    fun q hq => ?_⟩
  · refine .inl ((h.star q l hl).resolve_right ?_)
    rintro ⟨-, r, hr, -⟩
    cases hr
  · cases hq
    exact absurd (List.mem_singleton.1 hr) hne
  · rw [List.mem_singleton.1 hq]
    exact congrArg some (h.unmounted p List.not_mem_nil).1

variable [DecidableEq ι]

/-- A plugin is changed, but for its store and its listeners. -/
private theorem setPlugin (h : OneStore host mounts kept s) {plugin : AuditPlugin ι σ φ}
    (hstore : plugin.store = (s.plugins p).store)
    (hlisteners : plugin.listeners = (s.plugins p).listeners)
    (hset : p ∉ mounts → plugin.storeSet = (s.plugins p).storeSet) :
      OneStore host mounts kept (s.setPlugin p plugin) := by
  refine h.congr rfl rfl (fun q => ?_) fun q hq => ?_
  · by_cases hqp : q = p
    · subst hqp
      simp [AuditServer.setPlugin, hstore, hlisteners]
    · simp [AuditServer.setPlugin, hqp]
  · by_cases hqp : q = p
    · subst hqp
      simp [AuditServer.setPlugin, hset hq]
    · simp [AuditServer.setPlugin, hqp]

end OneStore

/-! ### What `use_store` does -/

variable [DecidableEq ι] [DecidableEq φ]

namespace AuditServer

variable {s : AuditServer ι σ φ} {store : σ} {p : ι} {f : φ} {owner : φ → ι}

/-- The server when some plugins and some followers have got a store. -/
def told (s : AuditServer ι σ φ) (store : σ) (plugins : List ι) (followers : List φ) : AuditServer ι σ φ :=
  { s with
    plugins := fun p => if p ∈ plugins then { s.plugins p with store := store } else s.plugins p
    follows := fun f => if f ∈ followers then store else s.follows f }

private theorem told_told (plugins plugins' : List ι) (followers followers' : List φ) :
    (s.told store plugins followers).told store plugins' followers' =
      s.told store (plugins ++ plugins') (followers ++ followers') := by
  rw [told, told, told, AuditServer.mk.injEq]
  refine ⟨funext fun p => ?_, funext fun f => ?_, rfl, rfl⟩
  · by_cases hp : p ∈ plugins
    · by_cases hp' : p ∈ plugins' <;> simp [hp, hp']
    · by_cases hp' : p ∈ plugins' <;> simp [hp, hp']
  · by_cases hf : f ∈ followers
    · by_cases hf' : f ∈ followers' <;> simp [hf, hf']
    · by_cases hf' : f ∈ followers' <;> simp [hf, hf']

private theorem setPlugin_store : s.setPlugin p { s.plugins p with store := store } = s.told store [p] [] := by
  rw [setPlugin, told, AuditServer.mk.injEq]
  refine ⟨funext fun q => ?_, funext fun f => ?_, rfl, rfl⟩
  · by_cases hq : q = p
    · subst hq
      simp
    · simp [hq]
  · simp

private theorem update_follows : { s with follows := Function.update s.follows f store } = s.told store [] [f] := by
  rw [told, AuditServer.mk.injEq]
  refine ⟨funext fun q => ?_, funext fun g => ?_, rfl, rfl⟩
  · simp
  · by_cases hg : g = f
    · subst hg
      simp
    · simp [hg]

@[simp] theorem told_listeners (plugins : List ι) (followers : List φ) (p : ι) :
    ((s.told store plugins followers).plugins p).listeners = (s.plugins p).listeners := by
  unfold told
  dsimp only
  split <;> rfl

private theorem told_store (plugins : List ι) (followers : List φ) (p : ι) :
    ((s.told store plugins followers).plugins p).store = if p ∈ plugins then store else (s.plugins p).store := by
  unfold told
  dsimp only
  split <;> rfl

private theorem told_follows (plugins : List ι) (followers : List φ) (f : φ) :
    (s.told store plugins followers).follows f = if f ∈ followers then store else s.follows f := rfl

private theorem told_eq_self {plugins : List ι} {followers : List φ}
    (hplugins : ∀ p ∈ plugins, (s.plugins p).store = store)
    (hfollowers : ∀ f ∈ followers, s.follows f = store) : s.told store plugins followers = s := by
  rw [told, AuditServer.mk.injEq]
  refine ⟨funext fun p => ?_, funext fun f => ?_, rfl, rfl⟩
  · split
    · next hp => rw [← hplugins p hp]
    · rfl
  · split
    · next hf => exact (hfollowers f hf).symm
    · rfl

private theorem Followed.told {plugins : List ι} {followers : List φ} (h : s.Followed p)
    (hcovers : ∀ f, .follower f ∈ (s.plugins p).listeners → (f ∈ followers ↔ p ∈ plugins)) :
    (s.told store plugins followers).Followed p := by
  intro f hf
  rw [told_listeners] at hf
  rw [told_follows, told_store, h f hf]
  by_cases hp : p ∈ plugins
  · rw [if_pos hp, if_pos ((hcovers f hf).2 hp)]
  · rw [if_neg hp, if_neg (mt (hcovers f hf).1 hp)]

private theorem Leaf.told {plugins : List ι} {followers : List φ} (h : Leaf owner s p)
    (hcovers : ∀ f, .follower f ∈ (s.plugins p).listeners → (f ∈ followers ↔ p ∈ plugins)) :
    Leaf owner (s.told store plugins followers) p where
  own := by
    rw [told_listeners]
    exact h.own
  followed := h.followed.told hcovers

variable [DecidableEq σ]

/-- The body of the loop of `use_store`. -/
def tell (calls : Nat) (store : σ) (s : AuditServer ι σ φ) : StoreListener ι φ → Option (AuditServer ι σ φ)
  | .joined other => useStore calls s other store false
  | .follower f => some { s with follows := Function.update s.follows f store }

private theorem useStore_succ (calls : Nat) : useStore (calls + 1) s p store false =
    if store = (s.plugins p).store then some s
    else (s.plugins p).listeners.foldlM (tell calls store) (s.told store [p] []) := by
  have hplugin : { s.plugins p with storeSet := (s.plugins p).storeSet || false } = s.plugins p := by rw [Bool.or_false]
  have hself : s.setPlugin p (s.plugins p) = s := by rw [setPlugin, Function.update_eq_self]
  rw [useStore, hplugin, hself, setPlugin_store]
  rfl

private theorem tell_followers {l : List (StoreListener ι φ)} (calls : Nat)
    (h : ∀ listener ∈ l, ∃ f, listener = .follower f) :
    l.foldlM (tell calls store) s = some (s.told store [] (followersOf l)) := by
  induction l generalizing s with
  | nil =>
    exact congrArg some (told_eq_self (fun _ h => absurd h List.not_mem_nil) fun _ h => absurd h List.not_mem_nil).symm
  | cons listener l ih =>
    obtain ⟨f, rfl⟩ := h _ List.mem_cons_self
    have hstep : tell calls store s (.follower f) = some (s.told store [] [f]) := congrArg some update_follows
    rw [List.foldlM_cons, hstep, Option.bind_eq_bind, Option.bind_some,
      ih fun listener hl => h listener (List.mem_cons_of_mem _ hl), told_told]
    rfl

/-- A plugin that serves no others: it and its followers are told. -/
private theorem Leaf.useStore (h : Leaf owner s p) (calls : Nat) :
    useStore (calls + 1) s p store false = some (s.told store [p] (followersOf (s.plugins p).listeners)) := by
  rw [useStore_succ]
  split
  · next hsame =>
    refine congrArg some (told_eq_self (fun q hq => ?_) fun f hf => ?_).symm
    · rw [List.mem_singleton.1 hq, hsame]
    · rw [h.followed f (mem_followersOf.1 hf), hsame]
  · rw [tell_followers calls fun l hl => (h.own l hl).imp fun f hf => hf.1, told_told]
    rfl

/-- The loop, when the plugins among the listeners serve no others: they and all the followers are told. -/
private theorem tell_listeners {l : List (StoreListener ι φ)} (calls : Nat)
    (hleaf : ∀ p, .joined p ∈ l → Leaf owner s p)
    (hown : ∀ f, .follower f ∈ l → .joined (owner f) ∉ l) :
    ∃ followers, l.foldlM (tell (calls + 1) store) s = some (s.told store (joinedOf l) followers) ∧
      ∀ f, f ∈ followers ↔ .follower f ∈ l ∨ ∃ p, .joined p ∈ l ∧ .follower f ∈ (s.plugins p).listeners := by
  induction l generalizing s with
  | nil =>
    refine ⟨[], congrArg some (told_eq_self (fun _ h => absurd h List.not_mem_nil) fun _ h => absurd h List.not_mem_nil).symm, ?_⟩
    simp
  | cons listener l ih =>
    have hown' : ∀ f, .follower f ∈ l → .joined (owner f) ∉ l := fun f hf hjoined =>
      hown f (List.mem_cons_of_mem _ hf) (List.mem_cons_of_mem _ hjoined)
    cases listener with
    | follower f =>
      have hstep : tell (calls + 1) store s (.follower f) = some (s.told store [] [f]) := congrArg some update_follows
      have hleaf' : ∀ p, .joined p ∈ l → Leaf owner (s.told store [] [f]) p := by
        intro p hp
        have hp' := hleaf p (List.mem_cons_of_mem _ hp)
        refine hp'.told fun g hg => iff_of_false (fun hgf => ?_) List.not_mem_nil
        rw [List.mem_singleton] at hgf
        subst hgf
        refine hown g List.mem_cons_self (List.mem_cons_of_mem _ ?_)
        rw [hp'.owner_eq hg]
        exact hp
      obtain ⟨followers, htold, hmem⟩ := ih hleaf' hown'
      refine ⟨f :: followers, ?_, fun g => ?_⟩
      · rw [List.foldlM_cons, hstep, Option.bind_eq_bind, Option.bind_some, htold, told_told]
        rfl
      · simp only [List.mem_cons, hmem, told_listeners, StoreListener.follower.injEq, reduceCtorEq, false_or, or_assoc]
    | joined p =>
      have hp := hleaf p List.mem_cons_self
      have hstep : tell (calls + 1) store s (.joined p) =
          some (s.told store [p] (followersOf (s.plugins p).listeners)) :=
        hp.useStore calls
      have hleaf' : ∀ q, .joined q ∈ l → Leaf owner (s.told store [p] (followersOf (s.plugins p).listeners)) q := by
        intro q hq
        have hq' := hleaf q (List.mem_cons_of_mem _ hq)
        refine hq'.told fun f hf => ?_
        rw [mem_followersOf, List.mem_singleton]
        constructor
        · intro hfp
          rw [← hq'.owner_eq hf, hp.owner_eq hfp]
        · rintro rfl
          exact hf
      obtain ⟨followers, htold, hmem⟩ := ih hleaf' hown'
      refine ⟨followersOf (s.plugins p).listeners ++ followers, ?_, fun f => ?_⟩
      · rw [List.foldlM_cons, hstep, Option.bind_eq_bind, Option.bind_some, htold, told_told]
        rfl
      · simp only [List.mem_append, mem_followersOf, List.mem_cons, hmem, told_listeners, StoreListener.joined.injEq,
          reduceCtorEq, false_or]
        constructor
        · rintro (hf | hf | ⟨q, hq, hf⟩)
          · exact .inr ⟨p, .inl rfl, hf⟩
          · exact .inl hf
          · exact .inr ⟨q, .inr hq, hf⟩
        · rintro (hf | ⟨q, rfl | hq, hf⟩)
          · exact .inr (.inl hf)
          · exact .inl hf
          · exact .inr (.inr ⟨q, hq, hf⟩)

private theorem useStore_explicit (calls : Nat) : useStore (calls + 1) s p store true =
    useStore (calls + 1) (s.setPlugin p { s.plugins p with storeSet := true }) p store false := by
  simp [useStore, setPlugin]

end AuditServer

/-! ### What a mount keeps -/

namespace OneStore

open AuditServer

variable [DecidableEq σ] {host : AuditHost ι σ φ} {mounts : List ι} {kept : Option σ} {s : AuditServer ι σ φ}
    {store : σ} {p q : ι}

/-- The store of the serving plugin is replaced. -/
private theorem useStore_serving (h : OneStore host mounts kept s) (hp : s.serving = some p) (calls : Nat) (store : σ) :
    ∃ s', useStore (calls + 2) s p store false = some s' ∧ OneStore host mounts (some store) s' ∧
    s'.serving = some p := by
  rw [useStore_succ]
  split
  · next hsame =>
    refine ⟨s, rfl, { h with stores := fun q hq => ?_ }, hp⟩
    rw [hsame, h.stores q hq, h.stores p (h.mem_of_serving hp)]
  · have hleaf : ∀ q, .joined q ∈ (s.plugins p).listeners → Leaf host.owner (s.told store [p] []) q := by
      intro q hq
      obtain ⟨-, -, hne⟩ := h.joined_ne hq
      have hq' : s.serving ≠ some q := by
        rw [hp]
        exact fun heq => hne (Option.some.inj heq).symm
      exact (h.leaf hq').told fun f _ => iff_of_false List.not_mem_nil (mt List.mem_singleton.1 hne)
    have hown : ∀ f, .follower f ∈ (s.plugins p).listeners → .joined (host.owner f) ∉ (s.plugins p).listeners := by
      intro f hf hjoined
      exact (h.joined_ne hjoined).2.2 (h.owner_eq hf)
    obtain ⟨followers, htold, hmem⟩ := tell_listeners calls hleaf hown
    have hplugins : ∀ q, q ∈ [p] ++ joinedOf (s.plugins p).listeners ↔ q = p ∨ .joined q ∈ (s.plugins p).listeners := by
      intro q
      rw [List.mem_append, List.mem_singleton, mem_joinedOf]
    have hcovers : ∀ q f, .follower f ∈ (s.plugins q).listeners →
        (f ∈ [] ++ followers ↔ q ∈ [p] ++ joinedOf (s.plugins p).listeners) := by
      intro q f hf
      simp only [List.nil_append, hmem, hplugins, told_listeners]
      have howner := h.owner_eq hf
      constructor
      · rintro (hfp | ⟨q', hq', hf'⟩)
        · exact .inl (howner.symm.trans (h.owner_eq hfp))
        · rw [← howner, h.owner_eq hf']
          exact .inr hq'
      · rintro (hqp | hq)
        · exact .inl (hqp ▸ hf)
        · exact .inr ⟨q, hq, hf⟩
    refine ⟨_, htold.trans (congrArg some (told_told ..)), ⟨h.serving, fun q hq => ?_, ?_, ?_, fun q => ?_, fun q hq => ?_⟩, hp⟩
    · have hnot : q ∉ [p] ++ joinedOf (s.plugins p).listeners := by
        rw [hplugins]
        rintro (rfl | hjoined)
        · exact hq (h.mem_of_serving hp)
        · exact hq (h.joined_ne hjoined).2.1
      have hsame : (s.told store ([p] ++ joinedOf (s.plugins p).listeners) ([] ++ followers)).plugins q =
          s.plugins q := if_neg hnot
      rw [hsame]
      exact h.unmounted q hq
    · intro q l hl
      rw [told_listeners] at hl
      exact h.star q l hl
    · intro q hq
      rw [told_listeners]
      exact h.joined q hq
    · exact (h.followed q).told (hcovers q)
    · have hmem : q ∈ [p] ++ joinedOf (s.plugins p).listeners := by
        rw [hplugins]
        exact or_iff_not_imp_left.2 fun hne => h.joined p hp q hq hne
      rw [told_store, if_pos hmem]

/-- A plugin joins the serving one. -/
private theorem useStore_joining (h : OneStore host mounts (some store) s) (hserving : s.serving = some p) (hne : q ≠ p)
    (calls : Nat) :
    ∃ s', useStore (calls + 1) s q store false = some s' ∧
      OneStore host (mounts ++ [q]) (some store)
        (s'.setPlugin p { s'.plugins p with listeners := (s'.plugins p).listeners ++ [.joined q] }) := by
  have hq : s.serving ≠ some q := by
    rw [hserving]
    exact fun heq => hne (Option.some.inj heq).symm
  have hleaf := h.leaf hq
  have hcovers : ∀ r f, .follower f ∈ (s.plugins r).listeners →
      (f ∈ followersOf (s.plugins q).listeners ↔ r ∈ [q]) := by
    intro r f hf
    rw [mem_followersOf, List.mem_singleton]
    constructor
    · intro hfq
      rw [← h.owner_eq hf, h.owner_eq hfq]
    · rintro rfl
      exact hf
  refine ⟨_, hleaf.useStore calls, ?_⟩
  have hhead : (mounts ++ [q]).head? = mounts.head? := by
    cases mounts with
    | nil => exact absurd (h.mem_of_serving hserving) List.not_mem_nil
    | cons p mounts => rfl
  have hmem : ∀ r, r ∈ mounts ++ [q] ↔ r ∈ mounts ∨ r = q := fun r => by rw [List.mem_append, List.mem_singleton]
  refine ⟨h.serving.trans hhead.symm, fun r hr => ?_, fun r l hl => ?_, fun r hr m hm hne' => ?_, fun r f hf => ?_,
    fun r hr => ?_⟩
  · rw [hmem, not_or] at hr
    have hsame : (s.told store [q] (followersOf (s.plugins q).listeners)).plugins r = s.plugins r :=
      if_neg (mt List.mem_singleton.1 hr.2)
    rw [setListeners_store, setListeners_storeSet, hsame]
    exact h.unmounted r hr.1
  · rw [setListeners_listeners, told_listeners, told_listeners] at hl
    split at hl
    · next hrp =>
      subst hrp
      rcases List.mem_append.1 hl with hl | hl
      · exact (h.star r l hl).imp_right fun ⟨hr, m, hm, heq, hne⟩ => ⟨hr, m, List.mem_append_left _ hm, heq, hne⟩
      · exact .inr ⟨hserving, q, (hmem q).2 (.inr rfl), List.mem_singleton.1 hl, hne⟩
    · exact (h.star r l hl).imp_right fun ⟨hr, m, hm, heq, hne⟩ => ⟨hr, m, List.mem_append_left _ hm, heq, hne⟩
  · obtain rfl : p = r := Option.some.inj (hserving.symm.trans hr)
    rw [setListeners_listeners, if_pos rfl, told_listeners, List.mem_append, List.mem_singleton]
    rcases (hmem m).1 hm with hm | rfl
    · exact .inl (h.joined p hserving m hm hne')
    · exact .inr rfl
  · have hf : .follower f ∈ (s.plugins r).listeners := by
      rw [setListeners_listeners, told_listeners, told_listeners] at hf
      split at hf
      · next hrp =>
        subst hrp
        exact (List.mem_append.1 hf).resolve_right (by simp)
      · exact hf
    rw [setListeners_store]
    exact (h.followed r).told (hcovers r) f (by rwa [told_listeners])
  · rw [setListeners_store, told_store]
    split
    · rfl
    · next hrq => exact h.stores r (((hmem r).1 hr).resolve_right fun heq => hrq (List.mem_singleton.2 heq))

/-- A plugin that is not the serving one is mounted: with a store that was set for it, which the log does not have
yet, the log is kept in its store. -/
theorem join (h : OneStore host mounts kept s) (hserving : s.serving = some p) (hne : q ≠ p) (calls : Nat) :
    ∃ s', s.join (calls + 2) p q = some s' ∧
      OneStore host (mounts ++ [q]) (if (s.plugins q).storeSet then some (s.plugins q).store else kept) s' := by
  have hp := h.mem_of_serving hserving
  obtain ⟨s₁, store, hfirst, hkept, h₁, hserving₁⟩ : ∃ s₁ store,
      (if (s.plugins q).storeSet then useStore (calls + 2) s p (s.plugins q).store true else some s) = some s₁ ∧
      (if (s.plugins q).storeSet then some (s.plugins q).store else kept) = some store ∧
      OneStore host mounts (some store) s₁ ∧ s₁.serving = some p := by
    by_cases hset : (s.plugins q).storeSet = true
    · have h₀ : OneStore host mounts kept (s.setPlugin p { s.plugins p with storeSet := true }) :=
        h.setPlugin rfl rfl fun hnot => absurd hp hnot
      obtain ⟨s₁, heq, h₁, hserving₁⟩ := h₀.useStore_serving hserving calls (s.plugins q).store
      exact ⟨s₁, (s.plugins q).store, by rw [if_pos hset, useStore_explicit, heq], if_pos hset, h₁, hserving₁⟩
    · exact ⟨s, (s.plugins p).store, if_neg hset, (if_neg hset).trans (h.stores p hp).symm, (h.stores p hp) ▸ h,
        hserving⟩
  have h₂ : OneStore host mounts (some store) (s₁.joinAuthorize p q) := by
    unfold joinAuthorize
    split
    · exact h₁.setPlugin rfl rfl fun _ => rfl
    · exact h₁
  have hserving₂ : (s₁.joinAuthorize p q).serving = some p := by
    rw [h₂.serving, ← h₁.serving, hserving₁]
  have hstore : ((s₁.joinAuthorize p q).plugins p).store = store := Option.some.inj (h₂.stores p hp)
  obtain ⟨s₃, htold, h₃⟩ := h₂.useStore_joining hserving₂ hne (calls + 1)
  rw [hkept]
  refine ⟨_, ?_, h₃⟩
  rw [AuditServer.join, hfirst, Option.bind_some]
  dsimp only
  rw [hstore, htold, Option.map_some]

/-- A mount keeps the log of the server in one store. -/
private theorem beforeMount (h : OneStore host mounts (host.auditStore mounts) s) (p : ι) (calls : Nat) :
    ∃ s' added, s.beforeMount (calls + 2) p = some (s', added) ∧
      OneStore host (mounts ++ [p]) (host.auditStore (mounts ++ [p])) s' := by
  obtain ⟨s₀, hs₀, h₀⟩ : ∃ s₀, (if (s.plugins p).eventBus = none then
      s.setPlugin p { s.plugins p with eventBus := s.eventBus } else s) = s₀ ∧
      OneStore host mounts (host.auditStore mounts) s₀ := by
    refine ⟨_, rfl, ?_⟩
    split
    · exact h.setPlugin rfl rfl fun _ => rfl
    · exact h
  rw [AuditServer.beforeMount, hs₀]
  cases hserving : s₀.serving with
  | none =>
    have hmounts : mounts = [] := List.head?_eq_none_iff.1 (h₀.serving.symm.trans hserving)
    subst hmounts
    refine ⟨_, _, rfl, ?_⟩
    rw [AuditHost.auditStore_append host List.not_mem_nil, if_pos (.inr rfl)]
    exact h₀.first p
  | some p₀ =>
    dsimp only
    by_cases hp : p₀ = p
    · subst hp
      rw [if_neg (by simp)]
      refine ⟨_, _, rfl, ?_⟩
      rw [AuditHost.auditStore_append_of_mem host (h₀.mem_of_serving hserving)]
      exact h₀.again hserving
    · obtain ⟨s', hjoin, h'⟩ := h₀.join hserving (Ne.symm hp) calls
      rw [if_pos hp, hjoin]
      refine ⟨s', _, rfl, ?_⟩
      have hkept : (if (s₀.plugins p).storeSet then some (s₀.plugins p).store else host.auditStore mounts) =
          host.auditStore (mounts ++ [p]) := by
        by_cases hmem : p ∈ mounts
        · rw [h₀.stores p hmem, ite_self, AuditHost.auditStore_append_of_mem host hmem]
        · have hmounts : mounts ≠ [] := List.ne_nil_of_mem (h₀.mem_of_serving hserving)
          rw [(h₀.unmounted p hmem).1, (h₀.unmounted p hmem).2, AuditHost.auditStore_append host hmem]
          simp only [hmounts, or_false]
      rwa [hkept] at h'

/-- Mounts keep the log of the server in one store. -/
private theorem mountAll (host : AuditHost ι σ φ) (mounts : List ι) (calls : Nat) :
    ∃ s, host.server.mountAll (calls + 2) mounts = some s ∧ OneStore host mounts (host.auditStore mounts) s := by
  induction mounts using List.reverseRecOn with
  | nil => exact ⟨_, rfl, OneStore.start host⟩
  | append_singleton mounts p ih =>
    obtain ⟨s, hrun, h⟩ := ih
    obtain ⟨s', added, hmount, h'⟩ := h.beforeMount p calls
    refine ⟨s', ?_, h'⟩
    rw [AuditServer.mountAll] at hrun
    rw [AuditServer.mountAll, List.foldlM_append, hrun, Option.bind_eq_bind, Option.bind_some, List.foldlM_cons, hmount]
    rfl

end OneStore

variable [DecidableEq σ]

/-- Every sequence of mounts ends, and all that were mounted and their listeners use one store: of the plugins, each
where it was mounted first, that of the last one for which a store was set, or that of the first one. -/
theorem mountAll_auditStore (host : AuditHost ι σ φ) (mounts : List ι) (calls : Nat) :
    ∃ s, host.server.mountAll (calls + 2) mounts = some s ∧
      ∀ p ∈ mounts, some (s.plugins p).store = host.auditStore mounts ∧
        ∀ l ∈ (s.plugins p).listeners, some (s.storeOf l) = host.auditStore mounts := by
  obtain ⟨s, hrun, h⟩ := OneStore.mountAll host mounts calls
  refine ⟨s, hrun, fun p hp => ⟨h.stores p hp, fun l hl => ?_⟩⟩
  cases l with
  | joined q => exact h.stores q (h.joined_ne hl).2.1
  | follower f =>
    rw [AuditServer.storeOf, h.followed p f hl]
    exact h.stores p hp

section

/-- Two plugins, with the stores 1 and 2 set for them, and no followers. -/
private def twoPlugins : AuditHost Bool ℕ Empty where
  plugin p := { store := if p then 2 else 1, storeSet := true }
  owner f := f.elim
  built _ _ hl := absurd hl List.not_mem_nil

/-- The first plugin, mounted again after the second one, does not get its store back. -/
theorem remount_keeps_store :
    ¬ ∀ (host : AuditHost Bool ℕ Empty) (mounts : List Bool) (calls : Nat) (s : AuditServer Bool ℕ Empty),
      host.server.mountAll (calls + 2) mounts = some s → ∀ p ∈ mounts, some (s.plugins p).store =
        ((mounts.filter fun p => (host.plugin p).storeSet).getLast?.or mounts.head?).map fun p =>
        (host.plugin p).store := by
  intro hall
  obtain ⟨s, hrun, h⟩ := OneStore.mountAll twoPlugins [false, true, false] 0
  have hstore := hall twoPlugins [false, true, false] 0 s hrun false List.mem_cons_self
  rw [h.stores false List.mem_cons_self] at hstore
  exact absurd hstore (by decide)

end

end CliServer.Audit
