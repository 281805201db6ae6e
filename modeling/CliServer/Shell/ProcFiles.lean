import CliServer.Lib.Words
import CliServer.Shell.Environment
import CliServer.Shell.Processes

/-!
# The files of `/proc`

The processes are read from `/proc/<pid>/stat`, and those with a marker from `/proc/<pid>/environ`.  The name of a
process stands in `stat` as it is, so it may be any bytes, parentheses and blanks and line breaks among them.  What is
collected for a shell from these files are the processes it is to be of the system (`collected_from_files`).
-/

namespace CliServer.Shell

open Relation Words

/-- What follows the last parenthesis. -/
def afterParenthesis (text : Str) : Option Str :=
  if ')' ∈ text then some (text.rtakeWhile (· ≠ ')')) else none

/-- `_parse_proc_stat`. -/
def parseProcStat (pid : ℤ) (text : Str) : Option ProcInfo := do
  match words isSpace (← afterParenthesis text) with
  | _ :: ppid :: pgid :: sid :: _ => some ⟨pid, ← intOfText? ppid, ← intOfText? pgid, ← intOfText? sid⟩
  | _ => none

/-- A file of every process, `none` if it cannot be opened. -/
abbrev ProcFiles := List (ℤ × Option (List UInt8))

/-- `_list_processes`.  The carriage returns that text mode replaces separate words as the line feeds do. -/
def listProcesses (files : ProcFiles) : List ProcInfo :=
  files.filterMap fun file => file.2.bind fun bytes => parseProcStat file.1 (Utf8.decode bytes)

/-- `_marked_pids`. -/
def markedPids (files : ProcFiles) (shellId : Str) : Finset ℤ :=
  ((files.filter fun file => file.2.any (environHasMarker · shellId)).map Prod.fst).toFinset

/-! ### The processes of the system -/

/-- A process: what its `stat` has, with its other fields in `rest`, and the entries of its environment, if the server
may read them. -/
structure SystemProcess where
  pid : Nat
  comm : List UInt8
  state : Char
  ppid : Nat
  pgrp : Nat
  session : Nat
  rest : Str
  environ : Option (List (List UInt8))
  ids_lt : ppid < 2 ^ 31 ∧ pgrp < 2 ^ 31 ∧ session < 2 ^ 31
  state_word : isSpace state = false ∧ state ≠ ')'
  rest_fields : ')' ∉ rest ∧ (rest = [] ∨ ∃ fields, rest = ' ' :: fields)
  environ_entries : ∀ entries, environ = some entries → ∀ entry ∈ entries, 0 ∉ entry

namespace SystemProcess

variable (p : SystemProcess)

/-- The fields after the name. -/
def fieldsText : Str :=
  ' ' :: p.state :: ' ' :: (intText p.ppid ++ ' ' :: (intText p.pgrp ++ ' ' :: (intText p.session ++ p.rest)))

/-- `/proc/<pid>/stat`. -/
def statBytes : List UInt8 := Utf8.encode (intText p.pid ++ " (".toList) ++ p.comm ++ Utf8.encode (')' :: p.fieldsText)

def info : ProcInfo := ⟨p.pid, p.ppid, p.pgrp, some p.session⟩

end SystemProcess

/-! ### Numbers -/

private theorem decimalValue_of_isDigit {c : Char} (h : c.isDigit = true) :
    decimalValue c = some (c.toNat - '0'.toNat) := by
  obtain ⟨hlower, hupper⟩ : 48 ≤ c.toNat ∧ c.toNat ≤ 57 := by
    rw [Char.isDigit_iff_toNat] at h
    exact h
  have hzero : (decide (0x30 ≤ c.toNat) && decide (c.toNat ≤ 0x30 + 9)) = true := by
    rw [Bool.and_eq_true]
    exact ⟨decide_eq_true hlower, decide_eq_true hupper⟩
  have hfind : (decimalZeros.find? fun z => z ≤ c.toNat && c.toNat ≤ z + 9) = some 0x30 :=
    List.find?_cons_of_pos (p := fun z => decide (z ≤ c.toNat) && decide (c.toNat ≤ z + 9)) hzero
  rw [decimalValue, hfind]
  rfl

private theorem mapM_decimalValue {s : Str} (h : ∀ c ∈ s, c.isDigit = true) :
    s.mapM decimalValue = some (s.map fun c => c.toNat - '0'.toNat) := by
  induction s with
  | nil => rfl
  | cons c s ih =>
    rw [List.mapM_cons, decimalValue_of_isDigit (h c List.mem_cons_self),
      ih fun d hd => h d (List.mem_cons_of_mem _ hd)]
    rfl

private theorem intText_ne_nil (n : Nat) : intText n ≠ [] := by
  have htext : intText n = Nat.toDigits 10 n := Nat.toList_repr
  rw [htext]
  exact List.length_pos_iff.1 Nat.length_toDigits_pos

private theorem length_intText_le {n : Nat} (h : n < 2 ^ 31) : (intText n).length ≤ maxStrDigits := by
  have htext : intText n = Nat.toDigits 10 n := Nat.toList_repr
  have hten : (Nat.toDigits 10 n).length ≤ 10 := by
    rw [Nat.length_toDigits_le_iff (by omega) (by omega)]
    omega
  rw [htext]
  exact hten.trans (by decide)

/-- A number of 31 bits is read as it was written. -/
private theorem intOfText?_intText {n : Nat} (h : n < 2 ^ 31) : intOfText? (intText n) = some (n : ℤ) := by
  have hdigit : ∀ c ∈ intText n, c.isDigit = true := fun c hc => isDigit_of_mem_intText hc
  have hgroups : (intText n).splitOn '_' = [intText n] :=
    List.splitOn_eq_singleton fun hmem => absurd (hdigit _ hmem) (by decide)
  have hvalue : digitsToNat ((intText n).map fun c => c.toNat - '0'.toNat) = n := by
    rw [digitsToNat, List.foldl_map, ← Nat.ofDigitChars_eq_foldl, ofDigitChars_intText]
  have hnat : natOfDigits? (intText n) = some n := by
    rw [natOfDigits?, hgroups]
    simp only [List.mapM_cons, List.mapM_nil, if_neg (intText_ne_nil n), mapM_decimalValue hdigit]
    simpa [length_intText_le h] using hvalue
  unfold intOfText?
  split
  · next s heq => exact absurd (hdigit '-' (heq ▸ List.mem_cons_self)) (by decide)
  · next s heq => exact absurd (hdigit '+' (heq ▸ List.mem_cons_self)) (by decide)
  · rw [hnat]
    rfl

/-! ### The fields of a process -/

private theorem isSpace_intText {n : Nat} : ∀ c ∈ intText n, isSpace c = false := by
  intro c hc
  obtain ⟨hlower, hupper⟩ : 48 ≤ c.toNat ∧ c.toNat ≤ 57 := by
    have hdigit := isDigit_of_mem_intText hc
    rw [Char.isDigit_iff_toNat] at hdigit
    exact hdigit
  have hlarge : ∀ n, 0x80 ≤ n → c.toNat ≠ n := fun n hn heq => by omega
  simp only [isSpace, Bool.or_eq_false_iff, Bool.and_eq_false_iff, decide_eq_false_iff_not, beq_eq_false_iff_ne]
  omega

private theorem words_intText_append {n : Nat} {s : Str} (hs : s = [] ∨ ∃ t, s = ' ' :: t) :
    words isSpace (intText n ++ s) = intText n :: words isSpace s :=
  words_append (intText_ne_nil n) isSpace_intText (hs.imp_right fun ⟨t, ht⟩ => ⟨' ', t, ht, by decide⟩)

private theorem parenthesis_notMem_intText (n : Nat) : ')' ∉ intText n := fun h => by cases isDigit_of_mem_intText h

private theorem afterParenthesis_append {s : Str} (h : ')' ∉ s) (before : Str) :
    afterParenthesis (before ++ ')' :: s) = some s := by
  have hs : ∀ c ∈ s, decide (c ≠ ')') = true := fun c hc => decide_eq_true fun heq => h (heq ▸ hc)
  have hmem : ')' ∈ before ++ ')' :: s := List.mem_append_right _ List.mem_cons_self
  rw [afterParenthesis, if_pos hmem, List.append_cons, List.rtakeWhile, List.reverse_append,
    List.takeWhile_append_of_pos fun c hc => hs c (List.mem_reverse.1 hc)]
  simp

namespace SystemProcess

variable (p : SystemProcess)

private theorem words_fieldsText : words isSpace p.fieldsText =
    [p.state] :: intText p.ppid :: intText p.pgrp :: intText p.session :: words isSpace p.rest := by
  have hspace : isSpace ' ' = true := by decide
  have hstate : ∀ c ∈ [p.state], isSpace c = false := fun c hc => List.mem_singleton.1 hc ▸ p.state_word.1
  have hsplit : p.state :: ' ' :: (intText p.ppid ++ ' ' :: (intText p.pgrp ++ ' ' :: (intText p.session ++ p.rest))) =
      [p.state] ++ ' ' :: (intText p.ppid ++ ' ' :: (intText p.pgrp ++ ' ' :: (intText p.session ++ p.rest))) := rfl
  rw [fieldsText, words_cons hspace, hsplit, words_append (List.cons_ne_nil _ _) hstate (.inr ⟨_, _, rfl, hspace⟩),
    words_cons hspace, words_intText_append (.inr ⟨_, rfl⟩), words_cons hspace, words_intText_append (.inr ⟨_, rfl⟩),
    words_cons hspace, words_intText_append p.rest_fields.2]

private theorem parenthesis_notMem_fieldsText : ')' ∉ p.fieldsText := by
  have hstate : ')' ≠ p.state := p.state_word.2.symm
  simp [fieldsText, parenthesis_notMem_intText, hstate, p.rest_fields.1]

/-- Whatever the name of a process is, its fields are read. -/
private theorem parseProcStat_statBytes : parseProcStat p.pid (Utf8.decode p.statBytes) = some p.info := by
  have hbyte : Utf8.encode (')' :: p.fieldsText) = 0x29 :: Utf8.encode p.fieldsText := rfl
  have htext : Utf8.decode p.statBytes =
      Utf8.decode (Utf8.encode (intText p.pid ++ " (".toList) ++ p.comm) ++ ')' :: p.fieldsText := by
    rw [statBytes, hbyte, Utf8.decode_append_ascii (by decide), Utf8.decode_encode]
    rfl
  have hfields := p.words_fieldsText
  rw [parseProcStat, htext, afterParenthesis_append p.parenthesis_notMem_fieldsText]
  simp [hfields, intOfText?_intText p.ids_lt.1, intOfText?_intText p.ids_lt.2.1, intOfText?_intText p.ids_lt.2.2, info]

end SystemProcess

/-! ### What is collected -/

/-- A file of a process that is listed; one that has ended meanwhile has only its number. -/
def procFile (file : SystemProcess → Option (List UInt8)) : Nat ⊕ SystemProcess → ℤ × Option (List UInt8)
  | .inl pid => (pid, none)
  | .inr p => (p.pid, file p)

def statFiles (listed : List (Nat ⊕ SystemProcess)) : ProcFiles := listed.map (procFile fun p => some p.statBytes)

def environFiles (listed : List (Nat ⊕ SystemProcess)) : ProcFiles :=
  listed.map (procFile fun p => p.environ.map environBytes)

theorem mem_listProcesses {listed : List (Nat ⊕ SystemProcess)} {proc : ProcInfo} :
    proc ∈ listProcesses (statFiles listed) ↔ ∃ p, .inr p ∈ listed ∧ p.info = proc := by
  rw [listProcesses, List.mem_filterMap]
  constructor
  · rintro ⟨file, hfile, hproc⟩
    obtain ⟨pid | p, hmem, rfl⟩ := List.mem_map.1 hfile
    · exact absurd hproc (Option.some_ne_none _).symm
    · rw [procFile, Option.bind_some, p.parseProcStat_statBytes] at hproc
      exact ⟨p, hmem, Option.some.inj hproc⟩
  · rintro ⟨p, hmem, rfl⟩
    refine ⟨_, List.mem_map_of_mem hmem, ?_⟩
    rw [procFile, Option.bind_some, p.parseProcStat_statBytes]

/-- The environment can be read and has the marker of the session. -/
def SystemProcess.Marked (p : SystemProcess) (shellId : Str) : Prop :=
  ∃ entries, p.environ = some entries ∧ marker shellId ∈ entries

theorem mem_markedPids {listed : List (Nat ⊕ SystemProcess)} {shellId : Str} {t : ℤ} :
    t ∈ markedPids (environFiles listed) shellId ↔ ∃ p, .inr p ∈ listed ∧ p.pid = t ∧ p.Marked shellId := by
  rw [markedPids, List.mem_toFinset, List.mem_map]
  constructor
  · rintro ⟨file, hfile, rfl⟩
    obtain ⟨hfile, hmarker⟩ := List.mem_filter.1 hfile
    obtain ⟨pid | p, hmem, rfl⟩ := List.mem_map.1 hfile
    · exact absurd hmarker Bool.false_ne_true
    · obtain ⟨bytes, hbytes, hmarker⟩ := (Option.any_eq_true _ _).1 hmarker
      obtain ⟨entries, hentries, rfl⟩ := Option.map_eq_some_iff.1 hbytes
      exact ⟨p, hmem, rfl, entries, hentries, (environHasMarker_iff (p.environ_entries _ hentries) _).1 hmarker⟩
  · rintro ⟨p, hmem, rfl, entries, hentries, hmarker⟩
    have hfound := (environHasMarker_iff (p.environ_entries _ hentries) _).2 hmarker
    refine ⟨_, List.mem_filter.2 ⟨List.mem_map_of_mem hmem, ?_⟩, rfl⟩
    rw [procFile, hentries]
    exact hfound

/-- A process of the system is the child of another. -/
def ChildOf (listed : List (Nat ⊕ SystemProcess)) (parent pid : ℤ) : Prop :=
  ∃ p : SystemProcess, .inr p ∈ listed ∧ p.ppid = parent ∧ p.pid = pid

private theorem parentLink_eq (listed : List (Nat ⊕ SystemProcess)) :
    ParentLink (listProcesses (statFiles listed)) = ChildOf listed := by
  funext parent pid
  refine propext ⟨?_, ?_⟩
  · rintro ⟨proc, hproc, hparent, hpid⟩
    obtain ⟨p, hmem, rfl⟩ := mem_listProcesses.1 hproc
    exact ⟨p, hmem, hparent, hpid⟩
  · rintro ⟨p, hmem, hparent, hpid⟩
    exact ⟨p.info, mem_listProcesses.2 ⟨p, hmem, rfl⟩, hparent, hpid⟩

/-- What is collected from the files: of the processes that are neither the first one nor the server nor of its group,
the shell and the descendants that it had, the members of its group and of its session, and those that have its marker
when the environments are read; whatever bytes the names of the processes are, and whichever of them have ended. -/
theorem collected_from_files (server : ServerProcess) (listed later : List (Nat ⊕ SystemProcess)) (pid : ℤ)
    (shellId : Str) (includeTree : Bool) (t : ℤ) :
    t ∈ collectTargets server (listProcesses (statFiles listed)) (markedPids (environFiles later)) pid (some shellId)
        includeTree ↔
      (1 < t ∧ t ≠ server.ownPid ∧
        ∀ p : SystemProcess, .inr p ∈ listed → (p.pgrp : ℤ) = server.ownGroup → (p.pid : ℤ) ≠ t) ∧
      ((includeTree = true ∧ ReflTransGen (ChildOf listed) pid t) ∨
        (∃ p : SystemProcess, .inr p ∈ listed ∧ p.pid = t ∧ ((p.pgrp : ℤ) = pid ∨ (p.session : ℤ) = pid)) ∨
        (shellId ≠ [] ∧ ∃ p : SystemProcess, .inr p ∈ later ∧ p.pid = t ∧ p.Marked shellId)) := by
  have hmay : server.MaySignal (listProcesses (statFiles listed)) t ↔ 1 < t ∧ t ≠ server.ownPid ∧
      ∀ p : SystemProcess, .inr p ∈ listed → (p.pgrp : ℤ) = server.ownGroup → (p.pid : ℤ) ≠ t := by
    refine and_congr_right fun _ => and_congr_right fun _ => ⟨fun h p hp => ?_, fun h proc hproc => ?_⟩
    · exact h p.info (mem_listProcesses.2 ⟨p, hp, rfl⟩)
    · obtain ⟨p, hp, rfl⟩ := mem_listProcesses.1 hproc
      exact h p hp
  have htree : (t = pid ∨ t ∈ descendants (listProcesses (statFiles listed)) pid) ↔
      ReflTransGen (ChildOf listed) pid t := by
    rw [mem_descendants, parentLink_eq]
    constructor
    · rintro (rfl | ⟨-, hreach⟩)
      · exact ReflTransGen.refl
      · exact hreach
    · exact fun hreach => or_iff_not_imp_left.2 fun hne => ⟨hne, hreach⟩
  have hmembers : (∃ proc ∈ listProcesses (statFiles listed), proc.pid = t ∧ (proc.pgid = pid ∨ proc.sid = some pid)) ↔
      ∃ p : SystemProcess, .inr p ∈ listed ∧ p.pid = t ∧ ((p.pgrp : ℤ) = pid ∨ (p.session : ℤ) = pid) := by
    constructor
    · rintro ⟨proc, hproc, hpid, hmember⟩
      obtain ⟨p, hp, rfl⟩ := mem_listProcesses.1 hproc
      exact ⟨p, hp, hpid, hmember.imp_right Option.some.inj⟩
    · rintro ⟨p, hp, hpid, hmember⟩
      exact ⟨p.info, mem_listProcesses.2 ⟨p, hp, rfl⟩, hpid, hmember.imp_right (congrArg some)⟩
  have hmarked : (∃ id, some shellId = some id ∧ id ≠ [] ∧ t ∈ markedPids (environFiles later) id) ↔
      shellId ≠ [] ∧ ∃ p : SystemProcess, .inr p ∈ later ∧ p.pid = t ∧ p.Marked shellId := by
    simp only [Option.some_inj, exists_eq_left', mem_markedPids]
  rw [mem_collectTargets, hmay, htree, hmembers, hmarked]

end CliServer.Shell
