import Mathlib

/-!
# Process tables

The processes of a system under their numbers, as they fork, replace their programs, start groups and sessions, and end.
A number is not given to a new process while a process has it, or a group or a session goes by it.  Whoever has been
born keeps its birth, and the births that it comes from, so that a process can be told from a later one of its number.

A group has one session (`Formed`).  What comes from a process that has started a session of its own never comes into
that of another process (`Apart`), nor therefore into a group of it.
-/

namespace ProcessTable

variable {ε : Type*}

/-- A process; in `line` are the births of the processes that it comes from. -/
structure Proc (ε : Type*) where
  birth : Nat
  line : List Nat
  parent : Nat
  group : Nat
  session : Nat
  environ : ε

/-- The process of a birth, or one that comes from it. -/
def Proc.Of (p : Proc ε) (root : Nat) : Prop := p.birth = root ∨ root ∈ p.line

/-- The processes by their numbers, and how many have been born. -/
structure ProcTable (ε : Type*) where
  proc : Nat → Option (Proc ε)
  births : Nat

inductive Event (ε : Type*) where
  | fork (pid child : Nat)
  | exec (pid : Nat) (environ : ε)
  | setsid (pid : Nat)
  | setpgid (pid group : Nat)
  | exit (pid reaper : Nat)

namespace ProcTable

variable (t : ProcTable ε)

/-- A process is put under a number. -/
def set (pid : Nat) (p : Proc ε) : ProcTable ε := { t with proc := Function.update t.proc pid (some p) }

/-- The processes that are `gone` end, and their children are left to the `reaper`. -/
def ended (gone : Nat → Proc ε → Bool) (reaper : Nat) : ProcTable ε :=
  { t with
    proc := fun q => (t.proc q).bind fun p =>
      if gone q p then none
      else if (t.proc p.parent).any (gone p.parent) then some { p with parent := reaper }
      else some p }

def step : Event ε → Option (ProcTable ε)
  | .fork pid child => (t.proc pid).map fun p =>
    { t.set child { p with birth := t.births, line := p.birth :: p.line, parent := pid } with births := t.births + 1 }
  | .exec pid environ => (t.proc pid).map fun p => t.set pid { p with environ := environ }
  | .setsid pid => (t.proc pid).map fun p => t.set pid { p with group := pid, session := pid }
  | .setpgid pid group => (t.proc pid).map fun p => t.set pid { p with group := group }
  | .exit pid reaper => (t.proc pid).map fun _ => t.ended (fun q _ => q = pid) reaper

/-- The number can be given to a new process. -/
def Free (child : Nat) : Prop :=
  1 < child ∧ t.proc child = none ∧ ∀ q p, t.proc q = some p → p.group ≠ child ∧ p.session ≠ child

/-- The system lets it happen. -/
def Permits : Event ε → Prop
  | .fork _ child => t.Free child
  | .setsid pid => ∀ q p, t.proc q = some p → p.group ≠ pid
  | .setpgid pid group => group = pid ∨
    ∃ q p p', t.proc pid = some p ∧ t.proc q = some p' ∧ p'.group = group ∧ p'.session = p.session
  | .exec .. | .exit .. => True

/-- A system of one process. -/
def first (pid : Nat) (environ : ε) : ProcTable ε :=
  ⟨fun q => if q = pid then some ⟨0, [], 0, pid, pid, environ⟩ else none, 1⟩

/-- A process forks a child, and the child starts a session. -/
def spawn (pid child : Nat) : Option (ProcTable ε) := (t.step (.fork pid child)).bind fun t => t.step (.setsid child)

/-- Births are unique, and the members of a group are in one session, which is that of the process it goes by. -/
structure Formed : Prop where
  births : ∀ q p root, t.proc q = some p → p.Of root → root < t.births
  unique : ∀ q q' p p', t.proc q = some p → t.proc q' = some p' → p.birth = p'.birth → q = q'
  groups : ∀ q q' p p', t.proc q = some p → t.proc q' = some p' → p.group = p'.group → p.session = p'.session
  leaders : ∀ q p p', t.proc q = some p → t.proc p.group = some p' → p'.session = p.session

end ProcTable

variable {t t' : ProcTable ε} {e : Event ε} {pid child q reaper root : Nat} {p p' : Proc ε} {gone : Nat → Proc ε → Bool}

theorem ProcTable.Formed.birth_lt (h : t.Formed) (hp : t.proc q = some p) : p.birth < t.births :=
  h.births q p p.birth hp (.inl rfl)

private theorem ProcTable.proc_set (t : ProcTable ε) (pid q : Nat) (p : Proc ε) :
    (t.set pid p).proc q = if q = pid then some p else t.proc q := Function.update_apply ..

/-- What is still there after an end was there before, and has at most another parent. -/
theorem ProcTable.proc_ended (h : (t.ended gone reaper).proc q = some p) :
    ∃ parent, t.proc q = some { p with parent := parent } ∧ gone q { p with parent := parent } = false := by
  obtain ⟨p₀, hp₀, hp⟩ := Option.bind_eq_some_iff.1 h
  split at hp
  · cases hp
  · next hgone =>
    split at hp
    · obtain rfl := Option.some.inj hp
      exact ⟨p₀.parent, hp₀, by simpa using hgone⟩
    · obtain rfl := Option.some.inj hp
      exact ⟨p₀.parent, hp₀, by simpa using hgone⟩

/-- What a forked process comes from. -/
private theorem of_forked {births : Nat}
    (h : Proc.Of { p with birth := births, line := p.birth :: p.line, parent := pid } root) :
    root = births ∨ p.Of root := by
  rcases h with hbirth | hline
  · exact .inl hbirth.symm
  · exact .inr ((List.mem_cons.1 hline).imp_left Eq.symm)

/-! ### Groups and sessions -/

theorem ProcTable.proc_first {environ : ε} (h : (first pid environ).proc q = some p) :
    q = pid ∧ ⟨0, [], 0, pid, pid, environ⟩ = p :=
  (Option.ite_none_right_eq_some.1 h).imp_right Option.some.inj

theorem ProcTable.formed_first (pid : Nat) (environ : ε) : (first pid environ).Formed where
  births q p root hp hof := by
    obtain ⟨-, rfl⟩ := proc_first hp
    rcases hof with rfl | hline
    · exact Nat.zero_lt_one
    · cases hline
  unique q q' p p' hp hp' _ := (proc_first hp).1.trans (proc_first hp').1.symm
  groups q q' p p' hp hp' _ := by
    obtain ⟨-, rfl⟩ := proc_first hp
    obtain ⟨-, rfl⟩ := proc_first hp'
    rfl
  leaders q p p' hp hp' := by
    obtain ⟨-, rfl⟩ := proc_first hp
    obtain ⟨-, rfl⟩ := proc_first hp'
    rfl

theorem ProcTable.Formed.ended (h : t.Formed) (gone : Nat → Proc ε → Bool) (reaper : Nat) :
    (t.ended gone reaper).Formed where
  births q p root hp hof := by
    obtain ⟨parent, hp, -⟩ := proc_ended hp
    exact h.births q _ root hp hof
  unique q q' p p' hp hp' hbirth := by
    obtain ⟨parent, hp, -⟩ := proc_ended hp
    obtain ⟨parent', hp', -⟩ := proc_ended hp'
    exact h.unique q q' _ _ hp hp' hbirth
  groups q q' p p' hp hp' hgroup := by
    obtain ⟨parent, hp, -⟩ := proc_ended hp
    obtain ⟨parent', hp', -⟩ := proc_ended hp'
    have hsession := h.groups q q' _ _ hp hp' hgroup
    exact hsession
  leaders q p p' hp hp' := by
    obtain ⟨parent, hp, -⟩ := proc_ended hp
    obtain ⟨parent', hp', -⟩ := proc_ended hp'
    have hsession := h.leaders q _ _ hp hp'
    exact hsession

theorem ProcTable.set_cases (h : (t.set pid p').proc q = some p) :
    (q = pid ∧ p = p') ∨ (q ≠ pid ∧ t.proc q = some p) := by
  rw [proc_set] at h
  split at h
  · next hq => exact .inl ⟨hq, (Option.some.inj h).symm⟩
  · next hq => exact .inr ⟨hq, h⟩

/-- A process is put under a number, with a birth of its own, in a group of its session; and so is its number the
group of others only if they are in its session. -/
theorem ProcTable.Formed.set (h : t.Formed) {births : Nat} (hbirths : t.births ≤ births)
    (hbirth : ∀ root, p'.Of root → root < births)
    (hunique : ∀ q p, q ≠ pid → t.proc q = some p → p.birth ≠ p'.birth)
    (hmembers : ∀ q p, q ≠ pid → t.proc q = some p → p.group = p'.group → p.session = p'.session)
    (hleader : ∀ p, p'.group ≠ pid → t.proc p'.group = some p → p.session = p'.session)
    (hled : ∀ q p, q ≠ pid → t.proc q = some p → p.group = pid → p'.session = p.session) :
    ({ t.set pid p' with births := births } : ProcTable ε).Formed where
  births q p root hp hof := by
    rcases set_cases hp with ⟨-, hnew⟩ | ⟨-, hold⟩
    · rw [hnew] at hof
      exact hbirth root hof
    · exact (h.births q p root hold hof).trans_le hbirths
  unique q q' p p₁ hp hp₁ heq := by
    rcases set_cases hp with ⟨hq, hnew⟩ | ⟨hq, hold⟩
    · rcases set_cases hp₁ with ⟨hq₁, -⟩ | ⟨hq₁, hold₁⟩
      · rw [hq, hq₁]
      · exact absurd (heq.symm.trans (congrArg Proc.birth hnew)) (hunique q' p₁ hq₁ hold₁)
    · rcases set_cases hp₁ with ⟨-, hnew₁⟩ | ⟨-, hold₁⟩
      · exact absurd (heq.trans (congrArg Proc.birth hnew₁)) (hunique q p hq hold)
      · exact h.unique q q' p p₁ hold hold₁ heq
  groups q q' p p₁ hp hp₁ heq := by
    rcases set_cases hp with ⟨-, hnew⟩ | ⟨hq, hold⟩
    · rcases set_cases hp₁ with ⟨-, hnew₁⟩ | ⟨hq₁, hold₁⟩
      · rw [hnew, hnew₁]
      · rw [hnew] at heq ⊢
        exact (hmembers q' p₁ hq₁ hold₁ heq.symm).symm
    · rcases set_cases hp₁ with ⟨-, hnew₁⟩ | ⟨-, hold₁⟩
      · rw [hnew₁] at heq ⊢
        exact hmembers q p hq hold heq
      · exact h.groups q q' p p₁ hold hold₁ heq
  leaders q p p₁ hp hp₁ := by
    rcases set_cases hp with ⟨-, hnew⟩ | ⟨hq, hold⟩
    · rw [hnew] at hp₁ ⊢
      rcases set_cases hp₁ with ⟨-, hnew₁⟩ | ⟨hgroup, hold₁⟩
      · rw [hnew₁]
      · exact hleader p₁ hgroup hold₁
    · rcases set_cases hp₁ with ⟨hgroup, hnew₁⟩ | ⟨-, hold₁⟩
      · rw [hnew₁]
        exact hled q p hq hold hgroup
      · exact h.leaders q p p₁ hold hold₁

theorem ProcTable.Formed.step (h : t.Formed) (hpermits : t.Permits e) (hst : t.step e = some t') : t'.Formed := by
  cases e with
  | fork pid child =>
    obtain ⟨p, hp, rfl⟩ := Option.map_eq_some_iff.1 hst
    obtain ⟨-, -, hfree⟩ := hpermits
    refine h.set (Nat.le_succ _) (fun root hof => ?_) (fun q p₁ _ hp₁ => ?_) (fun q p₁ _ hp₁ hgroup => ?_)
      (fun p₁ _ hp₁ => ?_) fun q p₁ _ hp₁ hgroup => ?_
    · rcases of_forked hof with rfl | hparent
      · exact Nat.lt_succ_self _
      · exact (h.births pid p root hp hparent).trans (Nat.lt_succ_self _)
    · exact (h.birth_lt hp₁).ne
    · exact h.groups q pid p₁ p hp₁ hp hgroup
    · exact h.leaders pid p p₁ hp hp₁
    · exact absurd hgroup (hfree q p₁ hp₁).1
  | exec pid environ =>
    obtain ⟨p, hp, rfl⟩ := Option.map_eq_some_iff.1 hst
    refine h.set le_rfl (h.births pid p · hp) (fun q p₁ hq hp₁ => ?_) (fun q p₁ _ hp₁ hgroup => ?_)
      (fun p₁ _ hp₁ => ?_) fun q p₁ _ hp₁ hgroup => ?_
    · exact fun heq => hq (h.unique q pid p₁ p hp₁ hp heq)
    · exact h.groups q pid p₁ p hp₁ hp hgroup
    · exact h.leaders pid p p₁ hp hp₁
    · exact h.leaders q p₁ p hp₁ (hgroup ▸ hp)
  | setsid pid =>
    obtain ⟨p, hp, rfl⟩ := Option.map_eq_some_iff.1 hst
    refine h.set le_rfl (h.births pid p · hp) (fun q p₁ hq hp₁ => ?_) (fun q p₁ _ hp₁ hgroup => ?_)
      (fun p₁ hne _ => absurd rfl hne) fun q p₁ _ hp₁ hgroup => ?_
    · exact fun heq => hq (h.unique q pid p₁ p hp₁ hp heq)
    · exact absurd hgroup (hpermits q p₁ hp₁)
    · exact absurd hgroup (hpermits q p₁ hp₁)
  | setpgid pid group =>
    obtain ⟨p, hp, rfl⟩ := Option.map_eq_some_iff.1 hst
    have hled : ∀ q p₁, t.proc q = some p₁ → p₁.group = pid → p.session = p₁.session := fun q p₁ hp₁ hgroup =>
      h.leaders q p₁ p hp₁ (hgroup ▸ hp)
    refine h.set le_rfl (h.births pid p · hp) (fun q p₁ hq hp₁ => ?_) (fun q p₁ _ hp₁ hgroup => ?_)
      (fun p₁ hne hp₁ => ?_) fun q p₁ _ hp₁ hgroup => hled q p₁ hp₁ hgroup
    · exact fun heq => hq (h.unique q pid p₁ p hp₁ hp heq)
    · rcases hpermits with rfl | ⟨q', p₂, p', hp₂, hp', rfl, hsession⟩
      · exact (hled q p₁ hp₁ hgroup).symm
      · obtain rfl : p₂ = p := Option.some.inj (hp₂.symm.trans hp)
        exact (h.groups q q' p₁ p' hp₁ hp' hgroup).trans hsession
    · rcases hpermits with rfl | ⟨q', p₂, p', hp₂, hp', rfl, hsession⟩
      · exact absurd rfl hne
      · obtain rfl : p₂ = p := Option.some.inj (hp₂.symm.trans hp)
        exact (h.leaders q' p' p₁ hp' hp₁).trans hsession
  | exit pid reaper =>
    obtain ⟨p, -, rfl⟩ := Option.map_eq_some_iff.1 hst
    exact h.ended _ _

/-! ### Births -/

theorem ProcTable.births_le_step (hst : t.step e = some t') : t.births ≤ t'.births := by
  cases e with
  | fork pid child =>
    obtain ⟨p, -, rfl⟩ := Option.map_eq_some_iff.1 hst
    exact Nat.le_succ _
  | exec pid environ =>
    obtain ⟨p, -, rfl⟩ := Option.map_eq_some_iff.1 hst
    exact le_rfl
  | setsid pid =>
    obtain ⟨p, -, rfl⟩ := Option.map_eq_some_iff.1 hst
    exact le_rfl
  | setpgid pid group =>
    obtain ⟨p, -, rfl⟩ := Option.map_eq_some_iff.1 hst
    exact le_rfl
  | exit pid reaper =>
    obtain ⟨p, -, rfl⟩ := Option.map_eq_some_iff.1 hst
    exact le_rfl

/-- Who was born before was there before, under the same number. -/
theorem ProcTable.old_of_step (hst : t.step e = some t') (hp : t'.proc q = some p') (hborn : p'.birth < t.births) :
    ∃ p, t.proc q = some p ∧ p.birth = p'.birth := by
  have hset : ∀ {pid : Nat} {p₁ p₂ : Proc ε}, t.proc pid = some p₁ → (t.set pid p₂).proc q = some p' →
      p₂.birth = p₁.birth → ∃ p, t.proc q = some p ∧ p.birth = p'.birth := by
    intro pid p₁ p₂ hp₁ hp' hbirth
    rcases set_cases hp' with ⟨rfl, rfl⟩ | ⟨-, hold⟩
    · exact ⟨p₁, hp₁, hbirth.symm⟩
    · exact ⟨p', hold, rfl⟩
  cases e with
  | fork pid child =>
    obtain ⟨p₁, -, rfl⟩ := Option.map_eq_some_iff.1 hst
    rcases set_cases hp with ⟨-, rfl⟩ | ⟨-, hold⟩
    · exact absurd hborn (lt_irrefl _)
    · exact ⟨p', hold, rfl⟩
  | exec pid environ =>
    obtain ⟨p₁, hp₁, rfl⟩ := Option.map_eq_some_iff.1 hst
    exact hset hp₁ hp rfl
  | setsid pid =>
    obtain ⟨p₁, hp₁, rfl⟩ := Option.map_eq_some_iff.1 hst
    exact hset hp₁ hp rfl
  | setpgid pid group =>
    obtain ⟨p₁, hp₁, rfl⟩ := Option.map_eq_some_iff.1 hst
    exact hset hp₁ hp rfl
  | exit pid reaper =>
    obtain ⟨p₁, -, rfl⟩ := Option.map_eq_some_iff.1 hst
    obtain ⟨parent, hold, -⟩ := proc_ended hp
    exact ⟨_, hold, rfl⟩

/-! ### What comes from a process -/

/-- A process that is watched over has this session and this group, and what comes from the root has none of its
numbers. -/
structure Apart (t : ProcTable ε) (watcher session group root : Nat) : Prop where
  born : root < t.births
  watcher : ∃ own, t.proc watcher = some own ∧ own.session = session ∧ own.group = group ∧ ¬own.Of root
  apart : ∀ q p, t.proc q = some p → p.Of root → 1 < q ∧ q ≠ session ∧ p.session ≠ session

/-- The event is none of this process, unless it forks. -/
def Event.Spares (pid : Nat) : Event ε → Prop
  | .fork .. => True
  | .exec pid' _ | .setsid pid' | .setpgid pid' _ | .exit pid' _ => pid' ≠ pid

namespace Apart

variable {watcher session group : Nat}

/-- What comes from the root is neither the watcher nor in its group. -/
theorem ne (h : Apart t watcher session group root) (hformed : t.Formed) (hp : t.proc q = some p) (hof : p.Of root) :
    q ≠ watcher ∧ p.group ≠ group := by
  obtain ⟨own, hown, hsession, hgroup, hnot⟩ := h.watcher
  obtain ⟨-, -, hapart⟩ := h.apart q p hp hof
  constructor
  · rintro rfl
    rw [hown] at hp
    exact hnot (Option.some.inj hp ▸ hof)
  · intro heq
    exact hapart ((hformed.groups q watcher p own hp hown (heq.trans hgroup.symm)).trans hsession)

theorem group_eq (h : Apart t watcher session group root) {own : Proc ε} (hown : t.proc watcher = some own) :
    own.group = group := by
  obtain ⟨own', hown', -, hgroup, -⟩ := h.watcher
  obtain rfl := Option.some.inj (hown.symm.trans hown')
  exact hgroup

theorem ended (h : Apart t watcher session group root) {gone : Nat → Proc ε → Bool}
    (hgone : ∀ own, t.proc watcher = some own → gone watcher own = false) (reaper : Nat) :
    Apart (t.ended gone reaper) watcher session group root where
  born := h.born
  watcher := by
    obtain ⟨own, hown, hsession, hgroup, hnot⟩ := h.watcher
    by_cases hparent : (t.proc own.parent).any (gone own.parent) = true
    · refine ⟨{ own with parent := reaper }, ?_, hsession, hgroup, hnot⟩
      simp [ProcTable.ended, hown, hgone own hown, hparent]
    · refine ⟨own, ?_, hsession, hgroup, hnot⟩
      simp [ProcTable.ended, hown, hgone own hown, hparent]
  apart q p hp hof := by
    obtain ⟨parent, hold, -⟩ := ProcTable.proc_ended hp
    have hapart := h.apart q _ hold hof
    exact hapart

/-- A process other than the watcher goes on with its line. -/
theorem set (h : Apart t watcher session group root) (hne : pid ≠ watcher) {births : Nat} (hbirths : t.births ≤ births)
    (hof : p'.Of root → 1 < pid ∧ pid ≠ session ∧ p'.session ≠ session) :
    Apart ({ t.set pid p' with births := births } : ProcTable ε) watcher session group root where
  born := h.born.trans_le hbirths
  watcher := by
    obtain ⟨own, hown, hrest⟩ := h.watcher
    refine ⟨own, ?_, hrest⟩
    show (t.set pid p').proc watcher = some own
    rw [ProcTable.proc_set, if_neg hne.symm, hown]
  apart q p hp hroot := by
    rcases ProcTable.set_cases hp with ⟨rfl, rfl⟩ | ⟨-, hold⟩
    · exact hof hroot
    · exact h.apart q p hold hroot

theorem step (h : Apart t watcher session group root) (hpermits : t.Permits e) (hspares : e.Spares watcher)
    (hst : t.step e = some t') : Apart t' watcher session group root := by
  cases e with
  | fork pid child =>
    obtain ⟨p, hp, rfl⟩ := Option.map_eq_some_iff.1 hst
    obtain ⟨hlarge, hnone, hfree⟩ := hpermits
    obtain ⟨own, hown, hsession, -⟩ := h.watcher
    refine h.set ?_ (Nat.le_succ _) fun hof => ?_
    · rintro rfl
      rw [hnone] at hown
      cases hown
    · have hparent : p.Of root := (of_forked hof).resolve_left h.born.ne
      exact ⟨hlarge, fun heq => (hfree watcher own hown).2 (hsession.trans heq.symm), (h.apart pid p hp hparent).2.2⟩
  | exec pid environ =>
    obtain ⟨p, hp, rfl⟩ := Option.map_eq_some_iff.1 hst
    exact h.set hspares le_rfl fun hof => h.apart pid p hp hof
  | setsid pid =>
    obtain ⟨p, hp, rfl⟩ := Option.map_eq_some_iff.1 hst
    refine h.set hspares le_rfl fun hof => ?_
    obtain ⟨hlarge, hne, -⟩ := h.apart pid p hp hof
    exact ⟨hlarge, hne, hne⟩
  | setpgid pid group =>
    obtain ⟨p, hp, rfl⟩ := Option.map_eq_some_iff.1 hst
    exact h.set hspares le_rfl fun hof => h.apart pid p hp hof
  | exit pid reaper =>
    obtain ⟨p, -, rfl⟩ := Option.map_eq_some_iff.1 hst
    exact h.ended (fun _ _ => decide_eq_false hspares.symm) _

/-- What comes from a process that has just been spawned is that process. -/
theorem of_spawn {own : Proc ε} (h : t.Formed) (hfree : t.Free child) (hown : t.proc pid = some own)
    (hst : t.spawn pid child = some t') : t'.Formed ∧ Apart t' pid own.session own.group t.births := by
  obtain ⟨t₁, hfork, hsetsid⟩ := Option.bind_eq_some_iff.1 hst
  obtain ⟨p, hp, heq⟩ := Option.map_eq_some_iff.1 hfork
  obtain ⟨p₁, hp₁, rfl⟩ := Option.map_eq_some_iff.1 hsetsid
  obtain rfl : p = own := Option.some.inj (hp.symm.trans hown)
  obtain ⟨hlarge, hnone, hnot⟩ := hfree
  have hne : pid ≠ child := by
    rintro rfl
    rw [hnone] at hown
    cases hown
  have hcases : ∀ q p₂, t₁.proc q = some p₂ → q = child ∧ p₂.group = p.group ∨ q ≠ child ∧ t.proc q = some p₂ := by
    rintro q p₂ hp₂
    rw [← heq] at hp₂
    exact (ProcTable.set_cases hp₂).imp_left fun ⟨hq, hnew⟩ => ⟨hq, hnew ▸ rfl⟩
  have hpermits : t₁.Permits (.setsid child) := by
    intro q p₂ hp₂
    rcases hcases q p₂ hp₂ with ⟨-, hgroup⟩ | ⟨-, hold⟩
    · rw [hgroup]
      exact (hnot pid p hp).1
    · exact (hnot q p₂ hold).1
  have hold : ∀ q p₂, t.proc q = some p₂ → ¬p₂.Of t.births := fun q p₂ hp₂ hof =>
    absurd (h.births q p₂ _ hp₂ hof) (lt_irrefl _)
  refine ⟨(h.step (e := .fork pid child) ⟨hlarge, hnone, hnot⟩ hfork).step hpermits hsetsid, ?_, ?_, ?_⟩
  · rw [← heq]
    exact Nat.lt_succ_self _
  · refine ⟨p, ?_, rfl, rfl, hold pid p hp⟩
    rw [ProcTable.proc_set, if_neg hne, ← heq]
    exact (ProcTable.proc_set ..).trans ((if_neg hne).trans hp)
  · intro q p₂ hp₂ hof
    rcases ProcTable.set_cases hp₂ with ⟨rfl, rfl⟩ | ⟨hq, hp₂⟩
    · exact ⟨hlarge, (hnot pid p hp).2.symm, (hnot pid p hp).2.symm⟩
    · rcases hcases q p₂ hp₂ with ⟨rfl, -⟩ | ⟨-, hp₂⟩
      · exact absurd rfl hq
      · exact absurd hof (hold q p₂ hp₂)

end Apart

end ProcessTable
