import CliServer.Lib.Dicts
import CliServer.Lib.Transition
import CliServer.Users.Sockets

/-!
# The event bus

`publish` goes through the subscriptions that there are when it is called.  While it waits for a handler, others may
subscribe, unsubscribe and publish, as the handler itself may, and the handler may raise.  A publisher that is not
cancelled calls the handlers that were subscribed before it and match, each once and in the order of their subscription
(`handlers_called`).
-/

namespace CliServer

open Transition

section Events

variable {ν : Type*}

/-- `CliEvent`. -/
structure CliEvent (ν : Type*) where
  type : Str
  timestamp : Str
  data : List (Str × ν)
  audience : CliEventAudience

def typeField : Str := "type".toList

def timestampField : Str := "timestamp".toList

/-- `RESERVED_EVENT_FIELDS`. -/
def reservedEventFields : List Str := [typeField, timestampField]

/-- `to_message`; `ofText` is the value of a text. -/
def CliEvent.toMessage (ofText : Str → ν) (e : CliEvent ν) : List (Str × ν) :=
  (typeField, ofText e.type) :: (timestampField, ofText e.timestamp) ::
    e.data.filter fun m => m.1 ∉ reservedEventFields

/-- The event that `publish` makes at the time `now`; `stamp?` is the text of a date, and of a text that is not
empty. -/
def publishedEvent (stamp? : ν → Option Str) (type : Str) (data : List (Str × ν)) (audience : CliEventAudience)
    (now : Str) : CliEvent ν where
  type := type
  timestamp := ((data.lookup timestampField).bind stamp?).getD now
  data := data.filter fun m => m.1 ∉ reservedEventFields
  audience := audience

/-- `cli_event_pattern_matches`. -/
def cliEventPatternMatches (type pattern : Str) : Bool :=
  if pattern = ['*'] then true
  else if [':', '*'] <:+ pattern then pattern.dropLast <+: type
  else type = pattern

/-! ### The bus -/

/-- An entry of `_subscriptions`, by the number of entries before it. -/
structure Subscription where
  id : Nat
  pattern : Str

/-- Where a call of `publish` is: in its loop, in a handler, or done. -/
inductive PublishPhase where
  | loops
  | awaits
  | returned
  | cancelled
  deriving DecidableEq

/-- A call of `publish`: the subscriptions that are left of its list, and the handlers that it has called. -/
structure Publishing (ν : Type*) where
  event : CliEvent ν
  left : List Subscription
  phase : PublishPhase := .loops
  called : List Nat := []

/-- `CliEventBus`, with the calls of `publish`. -/
structure EventBus (ν : Type*) where
  subscriptions : List Subscription := []
  entries : Nat := 0
  publishings : List (Publishing ν) := []

inductive BusAction (ν : Type*) where
  | subscribe (pattern : Str)
  /-- The function that `subscribe` has returned. -/
  | unsubscribe (id : Nat)
  | publish (type : Str) (data : List (Str × ν)) (audience : CliEventAudience) (now : Str)
  /-- The `i`th call of `publish` goes on in its loop. -/
  | loops (i : Nat)
  /-- A handler has returned, or raised an `Exception`. -/
  | handled (i : Nat) (raised : Bool)
  | cancelled (i : Nat)

/-- A round of the loop. -/
def Publishing.loop (p : Publishing ν) : Option (Publishing ν) :=
  match p.phase, p.left with
  | .loops, [] => some { p with phase := .returned }
  | .loops, sub :: left =>
    if cliEventPatternMatches p.event.type sub.pattern then
      some { p with left := left, phase := .awaits, called := p.called ++ [sub.id] }
    else some { p with left := left }
  | _, _ => none

/-- The handler is done, in this way. -/
def Publishing.after (phase : PublishPhase) (p : Publishing ν) : Option (Publishing ν) :=
  match p.phase with
  | .awaits => some { p with phase := phase }
  | _ => none

/-- The `i`th call of `publish` takes a step. -/
def EventBus.move (s : EventBus ν) (i : Nat) (f : Publishing ν → Option (Publishing ν)) : Option (EventBus ν) :=
  (s.publishings[i]?.bind f).map fun p => { s with publishings := s.publishings.set i p }

def busStep (stamp? : ν → Option Str) (s : EventBus ν) : BusAction ν → Option (EventBus ν)
  | .subscribe pattern =>
    some { s with subscriptions := s.subscriptions ++ [⟨s.entries, pattern⟩], entries := s.entries + 1 }
  | .unsubscribe id => some { s with subscriptions := s.subscriptions.eraseP (·.id = id) }
  | .publish type data audience now =>
    let event := publishedEvent stamp? type data audience now
    some { s with publishings := s.publishings ++ [{ event := event, left := s.subscriptions }] }
  | .loops i => s.move i Publishing.loop
  | .handled i _ => s.move i (Publishing.after .loops)
  | .cancelled i => s.move i (Publishing.after .cancelled)

/-! ### Patterns and fields -/

/-- `*` is for every type, `ns:*` for those that begin with `ns:`, and any other pattern for itself. -/
def Matches (type pattern : Str) : Prop :=
  pattern = ['*'] ∨ (∃ ns, pattern = ns ++ [':', '*'] ∧ ns ++ [':'] <+: type) ∨ type = pattern ∧ ¬[':', '*'] <:+ pattern

private theorem cliEventPatternMatches_iff {type pattern : Str} :
    cliEventPatternMatches type pattern = true ↔ Matches type pattern := by
  have hdrop : ∀ ns : Str, (ns ++ [':', '*']).dropLast = ns ++ [':'] := fun ns => by
    rw [List.dropLast_append_of_ne_nil (List.cons_ne_nil _ _)]
    rfl
  unfold cliEventPatternMatches Matches
  split
  · next hstar => simp [hstar]
  · next hstar =>
    split
    · next hsuffix =>
      obtain ⟨ns, rfl⟩ := hsuffix
      simp [hstar, hdrop]
    · next hsuffix =>
      have hno : ¬∃ ns, pattern = ns ++ [':', '*'] ∧ ns ++ [':'] <+: type := fun ⟨ns, hpattern, _⟩ =>
        hsuffix ⟨ns, hpattern.symm⟩
      simp [hstar, hsuffix, hno]

/-- The publisher's fields are passed on, but for the two that the event itself has. -/
theorem lookup_toMessage (ofText : Str → ν) (stamp? : ν → Option Str) (type : Str) (data : List (Str × ν))
    (audience : CliEventAudience) (now key : Str) :
    ((publishedEvent stamp? type data audience now).toMessage ofText).lookup key =
      if key = typeField then some (ofText type)
      else if key = timestampField then some (ofText (((data.lookup timestampField).bind stamp?).getD now))
      else data.lookup key := by
  have hlookup : (data.filter fun m => m.1 ∉ reservedEventFields).lookup key =
      if key ∉ reservedEventFields then data.lookup key else none := by
    rw [Dict.lookup_filter_key fun name => name ∉ reservedEventFields]
    simp
  have hrest : ((data.filter fun m => m.1 ∉ reservedEventFields).filter fun m => m.1 ∉ reservedEventFields) =
      data.filter fun m => m.1 ∉ reservedEventFields := by simp [List.filter_filter]
  rw [CliEvent.toMessage, List.lookup_cons, List.lookup_cons, publishedEvent, hrest, hlookup]
  by_cases htype : key = typeField
  · simp [htype]
  · by_cases hstamp : key = timestampField
    · have hne : (timestampField == typeField) = false := by decide
      simp [hstamp, hne, show timestampField ≠ typeField by decide]
    · simp [htype, hstamp, reservedEventFields, beq_false_of_ne htype, beq_false_of_ne hstamp]

/-! ### Subscriptions -/

variable {stamp? : ν → Option Str} {s s' : EventBus ν} {a : BusAction ν} {sub : Subscription} {p p' : Publishing ν}
  {ms : List (Move (EventBus ν) (BusAction ν))} {m : Move (EventBus ν) (BusAction ν)} {i : Nat}

/-- The entry was subscribed, and not unsubscribed since. -/
def Subscribed (ms : List (Move (EventBus ν) (BusAction ν))) (sub : Subscription) : Prop :=
  ∃ before m after, ms = before ++ m :: after ∧ m.act = .subscribe sub.pattern ∧ m.pre.entries = sub.id ∧
    ∀ m' ∈ after, m'.act ≠ .unsubscribe sub.id

private theorem not_subscribed_nil : ¬Subscribed ([] : List (Move (EventBus ν) (BusAction ν))) sub := by
  rintro ⟨before, m, after, heq, -⟩
  exact absurd heq.symm (List.append_ne_nil_of_right_ne_nil _ (List.cons_ne_nil _ _))

private theorem subscribed_append : Subscribed (ms ++ [m]) sub ↔
    (Subscribed ms sub ∧ m.act ≠ .unsubscribe sub.id) ∨ m.act = .subscribe sub.pattern ∧ m.pre.entries = sub.id := by
  constructor
  · rintro ⟨before, m', after, heq, hact, hentries, hafter⟩
    rcases List.eq_nil_or_concat after with rfl | ⟨after, m'', rfl⟩
    · obtain ⟨-, hlast⟩ := List.append_inj' heq rfl
      obtain rfl := List.singleton_inj.1 hlast
      exact .inr ⟨hact, hentries⟩
    · rw [List.concat_eq_append, ← List.cons_append, ← List.append_assoc] at heq
      obtain ⟨rfl, hlast⟩ := List.append_inj' heq rfl
      obtain rfl := List.singleton_inj.1 hlast
      rw [List.concat_eq_append] at hafter
      refine .inl ⟨⟨before, m', after, rfl, hact, hentries, fun m'' hm'' => ?_⟩, ?_⟩
      · exact hafter m'' (List.mem_append_left _ hm'')
      · exact hafter m (List.mem_append_right _ (List.mem_singleton_self _))
  · rintro (⟨⟨before, m', after, rfl, hact, hentries, hafter⟩, hne⟩ | ⟨hact, hentries⟩)
    · refine ⟨before, m', after ++ [m], by simp, hact, hentries, fun m'' hm'' => ?_⟩
      rcases List.mem_append.1 hm'' with hm'' | hm''
      · exact hafter m'' hm''
      · exact List.mem_singleton.1 hm'' ▸ hne
    · exact ⟨ms, m, [], rfl, hact, hentries, fun m'' hm'' => absurd hm'' List.not_mem_nil⟩

/-- The entries are in their order, and are those that were subscribed. -/
structure Entered (ms : List (Move (EventBus ν) (BusAction ν))) (s : EventBus ν) : Prop where
  order : s.subscriptions.Pairwise (·.id < ·.id)
  lt : ∀ sub ∈ s.subscriptions, sub.id < s.entries
  mem : ∀ sub, sub ∈ s.subscriptions ↔ Subscribed ms sub

private theorem move_eq_some {f : Publishing ν → Option (Publishing ν)} (h : s.move i f = some s') :
    ∃ p p', s.publishings[i]? = some p ∧ f p = some p' ∧ s' = { s with publishings := s.publishings.set i p' } := by
  obtain ⟨p', hp', rfl⟩ := Option.map_eq_some_iff.1 h
  obtain ⟨p, hp, hf⟩ := Option.bind_eq_some_iff.1 hp'
  exact ⟨p, p', hp, hf, rfl⟩

/-- A step that is neither of the two leaves the entries. -/
private theorem Entered.quiet (h : Entered ms s) (hsubscriptions : s'.subscriptions = s.subscriptions)
    (hentries : s'.entries = s.entries) (hsubscribe : ∀ pattern, m.act ≠ .subscribe pattern)
    (hunsubscribe : ∀ id, m.act ≠ .unsubscribe id) : Entered (ms ++ [m]) s' := by
  refine ⟨hsubscriptions ▸ h.order, fun sub hsub => ?_, fun sub => ?_⟩
  · rw [hsubscriptions] at hsub
    exact hentries ▸ h.lt sub hsub
  · rw [hsubscriptions, h.mem, subscribed_append]
    simp [hsubscribe, hunsubscribe]

private theorem mem_eraseP_id {subs : List Subscription} {id : Nat} (h : subs.Pairwise (·.id < ·.id)) :
    sub ∈ subs.eraseP (·.id = id) ↔ sub ∈ subs ∧ sub.id ≠ id := by
  induction subs with
  | nil => simp
  | cons first subs ih =>
    obtain ⟨hfirst, hrest⟩ := List.pairwise_cons.1 h
    by_cases hid : first.id = id
    · rw [List.eraseP_cons_of_pos (by simpa using hid), List.mem_cons]
      constructor
      · exact fun hsub => ⟨.inr hsub, fun heq => absurd (hfirst sub hsub) (by omega)⟩
      · rintro ⟨rfl | hsub, hne⟩
        · exact absurd hid hne
        · exact hsub
    · rw [List.eraseP_cons_of_neg (by simpa using hid), List.mem_cons, List.mem_cons, ih hrest]
      constructor
      · rintro (rfl | ⟨hsub, hne⟩)
        · exact ⟨.inl rfl, hid⟩
        · exact ⟨.inr hsub, hne⟩
      · rintro ⟨rfl | hsub, hne⟩
        · exact .inl rfl
        · exact .inr ⟨hsub, hne⟩

theorem Entered.step (h : Entered ms s) (hst : busStep stamp? s a = some s') : Entered (ms ++ [⟨s, a, s'⟩]) s' := by
  cases a with
  | subscribe pattern =>
    obtain rfl := Option.some.inj hst
    refine ⟨?_, fun sub hsub => ?_, fun sub => ?_⟩
    · rw [List.pairwise_append]
      refine ⟨h.order, List.pairwise_singleton _ _, fun sub hsub new hnew => ?_⟩
      rw [List.mem_singleton.1 hnew]
      exact h.lt sub hsub
    · rcases List.mem_append.1 hsub with hsub | hsub
      · exact (h.lt sub hsub).trans (Nat.lt_succ_self _)
      · rw [List.mem_singleton.1 hsub]
        exact Nat.lt_succ_self _
    · obtain ⟨id, pattern'⟩ := sub
      rw [subscribed_append, List.mem_append, h.mem]
      simp [eq_comm, and_comm]
  | unsubscribe id =>
    obtain rfl := Option.some.inj hst
    refine ⟨h.order.sublist List.eraseP_sublist, fun sub hsub => h.lt sub (List.mem_of_mem_eraseP hsub), fun sub => ?_⟩
    rw [mem_eraseP_id h.order, h.mem, subscribed_append]
    simp [eq_comm]
  | publish type data audience now =>
    obtain rfl := Option.some.inj hst
    exact h.quiet rfl rfl nofun nofun
  | loops i =>
    obtain ⟨p, p', -, -, rfl⟩ := move_eq_some hst
    exact h.quiet rfl rfl nofun nofun
  | handled i raised =>
    obtain ⟨p, p', -, -, rfl⟩ := move_eq_some hst
    exact h.quiet rfl rfl nofun nofun
  | cancelled i =>
    obtain ⟨p, p', -, -, rfl⟩ := move_eq_some hst
    exact h.quiet rfl rfl nofun nofun

/-! ### Calls of `publish` -/

/-- It has called the handlers that match of those that are not left. -/
def Publishing.Through (subs : List Subscription) (p : Publishing ν) : Prop :=
  (∃ done, subs = done ++ p.left ∧
    p.called = (done.filter fun sub => cliEventPatternMatches p.event.type sub.pattern).map Subscription.id) ∧
  (p.phase = .returned → p.left = [])

theorem Publishing.Through.loop {subs : List Subscription} (h : p.Through subs) (hp : p.loop = some p') :
    p'.event = p.event ∧ p'.Through subs := by
  obtain ⟨⟨done, hsubs, hcalled⟩, -⟩ := h
  unfold Publishing.loop at hp
  split at hp
  · next hphase hleft =>
    obtain rfl := Option.some.inj hp
    exact ⟨rfl, ⟨done, hsubs, hcalled⟩, fun _ => hleft⟩
  · next sub left hphase hleft =>
    rw [hleft, List.append_cons] at hsubs
    split at hp
    · next hmatches =>
      obtain rfl := Option.some.inj hp
      refine ⟨rfl, ⟨done ++ [sub], hsubs, ?_⟩, nofun⟩
      simp [hcalled, hmatches]
    · next hmatches =>
      obtain rfl := Option.some.inj hp
      refine ⟨rfl, ⟨done ++ [sub], hsubs, ?_⟩, fun hreturned => ?_⟩
      · simp [hcalled, hmatches]
      · rw [hphase] at hreturned
        cases hreturned
  · cases hp

theorem Publishing.Through.after {subs : List Subscription} {phase : PublishPhase} (h : p.Through subs)
    (hp : p.after phase = some p') (hphase : phase ≠ .returned) : p'.event = p.event ∧ p'.Through subs := by
  unfold Publishing.after at hp
  split at hp
  · obtain rfl := Option.some.inj hp
    exact ⟨rfl, h.1, fun hreturned => absurd hreturned hphase⟩
  · cases hp

private theorem Publishing.Through.prefix_called {subs : List Subscription} (h : p.Through subs) :
    p.called <+:
      (subs.filter fun sub => cliEventPatternMatches p.event.type sub.pattern).map Subscription.id := by
  obtain ⟨⟨done, hsubs, hcalled⟩, -⟩ := h
  rw [hcalled, hsubs, List.filter_append, List.map_append]
  exact List.prefix_append _ _

private theorem Publishing.Through.called_eq {subs : List Subscription} (h : p.Through subs)
    (hreturned : p.phase = .returned) :
    p.called = (subs.filter fun sub => cliEventPatternMatches p.event.type sub.pattern).map Subscription.id := by
  obtain ⟨⟨done, hsubs, hcalled⟩, hleft⟩ := h
  rw [hcalled, hsubs, hleft hreturned, List.append_nil]

/-- The call was made by this move, and is through with what was subscribed then. -/
def Publishing.MadeBy (i : Nat) (p : Publishing ν) (stamp? : ν → Option Str)
    (m : Move (EventBus ν) (BusAction ν)) : Prop :=
  m.pre.publishings.length = i ∧ p.Through m.pre.subscriptions ∧
    ∃ type data audience now, m.act = .publish type data audience now ∧
      p.event = publishedEvent stamp? type data audience now

/-- Every call of `publish` was made by a move. -/
def AllMade (stamp? : ν → Option Str) (ms : List (Move (EventBus ν) (BusAction ν))) (s : EventBus ν) : Prop :=
  ∀ i (p : Publishing ν), s.publishings[i]? = some p → ∃ m ∈ ms, p.MadeBy i stamp? m

private theorem AllMade.quiet (h : AllMade stamp? ms s) (heq : s'.publishings = s.publishings) :
    AllMade stamp? (ms ++ [m]) s' := fun i p hp => by
  rw [heq] at hp
  obtain ⟨m', hm', hmade⟩ := h i p hp
  exact ⟨m', List.mem_append_left _ hm', hmade⟩

/-- One of the calls goes on. -/
theorem AllMade.set (h : AllMade stamp? ms s) {f : Publishing ν → Option (Publishing ν)} (hst : s.move i f = some s')
    (hf : ∀ subs p p', p.Through subs → f p = some p' → p'.event = p.event ∧ p'.Through subs) :
    AllMade stamp? (ms ++ [m]) s' := fun j q hq => by
  obtain ⟨p, p', hp, hp', rfl⟩ := move_eq_some hst
  rw [List.getElem?_set] at hq
  split at hq
  · next hij =>
    subst hij
    split at hq
    · obtain rfl := Option.some.inj hq
      obtain ⟨m', hm', hlength, hthrough, hevent⟩ := h i p hp
      obtain ⟨heq, hthrough⟩ := hf _ _ _ hthrough hp'
      exact ⟨m', List.mem_append_left _ hm', hlength, hthrough, heq ▸ hevent⟩
    · cases hq
  · obtain ⟨m', hm', hmade⟩ := h j q hq
    exact ⟨m', List.mem_append_left _ hm', hmade⟩

theorem AllMade.step (h : AllMade stamp? ms s) (hst : busStep stamp? s a = some s') :
    AllMade stamp? (ms ++ [⟨s, a, s'⟩]) s' := by
  cases a with
  | subscribe pattern =>
    obtain rfl := Option.some.inj hst
    exact h.quiet rfl
  | unsubscribe id =>
    obtain rfl := Option.some.inj hst
    exact h.quiet rfl
  | publish type data audience now =>
    obtain rfl := Option.some.inj hst
    intro i p hp
    rw [List.getElem?_append] at hp
    split at hp
    · obtain ⟨m, hm, hmade⟩ := h i p hp
      exact ⟨m, List.mem_append_left _ hm, hmade⟩
    · next hlarge =>
      obtain ⟨hi, heq⟩ := List.getElem?_eq_some_iff.1 hp
      rw [List.length_singleton] at hi
      rw [List.getElem_singleton] at heq
      obtain rfl := heq
      refine ⟨_, List.mem_append_right _ (List.mem_singleton_self _), ?_, ⟨⟨[], rfl, rfl⟩, nofun⟩, ?_⟩
      · show s.publishings.length = i
        omega
      · exact ⟨type, data, audience, now, rfl, rfl⟩
  | loops i => exact h.set hst fun _ _ _ hthrough hp => hthrough.loop hp
  | handled i raised => exact h.set hst fun _ _ _ hthrough hp => hthrough.after hp nofun
  | cancelled i => exact h.set hst fun _ _ _ hthrough hp => hthrough.after hp nofun

/-- A call of `publish` calls handlers that were subscribed when it was made and match, each once and in the order of
their subscription; when it returns, it has called all of them, whatever the handlers and the other publishers did
meanwhile. -/
theorem handlers_called (h : Run (busStep stamp?) {} ms s) (hp : s.publishings[i]? = some p) :
    ∃ before m after, ms = before ++ m :: after ∧ m.pre.publishings.length = i ∧
      (∃ type data audience now, m.act = .publish type data audience now ∧
        p.event = publishedEvent stamp? type data audience now) ∧
      p.called.Pairwise (· < ·) ∧
      (∀ id ∈ p.called, ∃ pattern, Subscribed before ⟨id, pattern⟩ ∧ Matches p.event.type pattern) ∧
      (p.phase = .returned → ∀ sub, Subscribed before sub → Matches p.event.type sub.pattern → sub.id ∈ p.called) := by
  have hmade : AllMade stamp? ms s := h.history (I := AllMade stamp?) nofun fun _ _ _ _ hs _ hst => hs.step hst
  obtain ⟨m, hm, hlength, hthrough, hevent⟩ := hmade i p hp
  obtain ⟨before, after, rfl⟩ := List.append_of_mem hm
  have hbefore : Run (busStep stamp?) {} before m.pre := h.at_move.1
  have hentered : Entered before m.pre := by
    refine hbefore.history (I := Entered) ⟨.nil, nofun, fun sub => ?_⟩ fun _ _ _ _ hs _ hst => hs.step hst
    exact iff_of_false List.not_mem_nil not_subscribed_nil
  refine ⟨before, m, after, rfl, hlength, hevent, ?_, fun id hid => ?_, fun hreturned sub hsub hmatches => ?_⟩
  · refine List.Pairwise.sublist hthrough.prefix_called.sublist ?_
    rw [List.pairwise_map]
    exact hentered.order.filter _
  · obtain ⟨sub, hsub, rfl⟩ := List.mem_map.1 (hthrough.prefix_called.subset hid)
    obtain ⟨hsub, hmatches⟩ := List.mem_filter.1 hsub
    exact ⟨sub.pattern, (hentered.mem sub).1 hsub, cliEventPatternMatches_iff.1 hmatches⟩
  · rw [hthrough.called_eq hreturned]
    exact List.mem_map_of_mem (List.mem_filter.2 ⟨(hentered.mem sub).2 hsub, cliEventPatternMatches_iff.2 hmatches⟩)

/-- The first handler unsubscribes the second, and raises; the second is called nevertheless, and the third, which is
for another type, is not. -/
theorem handlers_called_unsubscribed : ∃ (ms before after : List (Move (EventBus Nat) (BusAction Nat)))
    (m : Move (EventBus Nat) (BusAction Nat)) (s : EventBus Nat) (p : Publishing Nat),
    s.publishings[0]? = some p ∧ p.phase = .returned ∧ p.called = [0, 1] ∧ ms = before ++ m :: after ∧
      ∀ id ∈ p.called, ∃ pattern, Subscribed before ⟨id, pattern⟩ ∧ Matches p.event.type pattern := by
  have hexec : (exec (busStep fun _ : Nat => none) {}
      [.subscribe ['*'], .subscribe ['a', ':', '*'], .subscribe ['b'], .publish ['a', ':', 'b'] [] {} [], .loops 0,
        .unsubscribe 1, .handled 0 true, .loops 0, .handled 0 false, .loops 0, .loops 0]).any (fun r =>
        r.2.publishings[0]?.any fun p => p.phase = .returned && p.called = [0, 1]) = true := by
    decide +kernel
  obtain ⟨⟨ms, s⟩, hexec, hany⟩ := (Option.any_eq_true _ _).1 hexec
  obtain ⟨p, hp, hboth⟩ := (Option.any_eq_true _ _).1 hany
  obtain ⟨hreturned, hcalled⟩ := Bool.and_eq_true_iff.1 hboth
  obtain ⟨before, m, after, heq, -, -, -, hsubscribed, -⟩ := handlers_called (run_of_exec hexec) hp
  exact ⟨ms, before, after, m, s, p, hp, of_decide_eq_true hreturned, of_decide_eq_true hcalled, heq, hsubscribed⟩

end Events

end CliServer
