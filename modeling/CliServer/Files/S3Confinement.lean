import CliServer.Files.S3Pages

/-!
# The keys the S3 provider uses

Whatever the path, every key and every list prefix that an operation passes to the client starts with the configured
prefix: the keys of a recursive `remove` are those of a listing under such a prefix.  So no run of operations, however
their calls are interleaved, changes an object outside of it (`calls_confined`).
-/

namespace CliServer

open Process Transition

/-- The keys and the list prefix that a call is given. -/
def S3Call.keys : S3Call → List Str
  | .listObjectsV2 keyPrefix _ _ => [keyPrefix]
  | .getObject key | .putObject key _ | .headObject key | .deleteObject key => [key]
  | .deleteObjects keys => keys
  | .copyObject source key => [source, key]

/-- The keys of the objects that a call writes or deletes. -/
def S3Call.changed : S3Call → List Str
  | .putObject key _ | .deleteObject key | .copyObject _ key => [key]
  | .deleteObjects keys => keys
  | _ => []

/-- A listing has only objects whose keys start with the prefix that was asked for. -/
def S3Call.ListsBelow : (c : S3Call) → c.Answer → Prop
  | .listObjectsV2 keyPrefix _ _, .ok listing => ∀ object ∈ listing.contents, keyPrefix <+: object.key
  | _, _ => True

def S3Call.Confined (pre : Str) (c : S3Call) : Prop := ∀ key ∈ c.keys, pre <+: key

namespace S3

variable {pre norm path src dest : Str} {option : Option Str}

/-! ### Keys -/

private theorem toKey_of_ne_nil (hnorm : norm ≠ []) : toKey pre norm = pre ++ norm := if_neg hnorm

private theorem pre_prefix_toKey (hnorm : norm ≠ []) : pre <+: toKey pre norm := by
  rw [toKey_of_ne_nil hnorm]
  exact List.prefix_append pre norm

private theorem pre_prefix_dirKey (hnorm : norm ≠ []) : pre <+: dirKey pre norm := by
  unfold dirKey
  dsimp only
  split
  · exact pre_prefix_toKey hnorm
  · exact (pre_prefix_toKey hnorm).trans (List.prefix_append _ _)

private theorem pre_prefix_dirPrefix (norm : Str) : pre <+: dirPrefix pre norm := by
  unfold dirPrefix
  split
  · exact List.prefix_refl pre
  · rw [List.append_assoc]
    exact List.prefix_append _ _

theorem changed_subset_keys (c : S3Call) : ∀ key ∈ c.changed, key ∈ c.keys := by
  cases c <;> simp [S3Call.changed, S3Call.keys]

/-! ### The operations -/

section Confines

variable {σ : Type} {client : S3Client σ} {objects : σ → Str → Option (List UInt8)} {bucket : σ}

/-- The calls made so far were confined. -/
def TraceConfined (pre : Str) (tr : Trace S3Call S3Call.Answer) : Prop := ∀ m ∈ tr, m.1.Confined pre

/-- The objects outside of the prefix are those of the bucket. -/
def KeptOutside (objects : σ → Str → Option (List UInt8)) (pre : Str) (bucket s : σ) : Prop :=
  ∀ key, ¬pre <+: key → objects s key = objects bucket key

/-- After confined calls the program makes only confined calls, and keeps the objects outside of the prefix. -/
def Confines {α : Type} (client : S3Client σ) (objects : σ → Str → Option (List UInt8)) (bucket : σ) (pre : Str)
    (m : S3Process α) : Prop :=
  ∀ tr, TraceConfined pre tr → Satisfies client (KeptOutside objects pre bucket)
    (fun tr c => TraceConfined pre tr ∧ c.Confined pre) (fun tr _ => TraceConfined pre tr) tr m

variable {α β : Type}

theorem Confines.done (result : Except S3Error α) : Confines client objects bucket pre (.done result) :=
  fun _ htr => htr

theorem Confines.bind {m : S3Process α} {f : α → S3Process β} (h : Confines client objects bucket pre m)
    (hf : ∀ a, Confines client objects bucket pre (f a)) : Confines client objects bucket pre (m >>= f) :=
  fun tr htr => (h tr htr).bind (fun tr' a htr' => hf a tr' htr') fun _ _ htr' => htr'

private theorem Confines.returning {m : S3Process α} (h : Confines client objects bucket pre m) (g : α → β) :
    Confines client objects bucket pre (m >>= fun a => pure (g a)) := h.bind fun a => .done (.ok (g a))

theorem Confines.request (answer : Except Str α) : Confines client objects bucket pre (request answer) := by
  cases answer with
  | ok a => exact .done _
  | error code => exact .done _

variable (hlist : ∀ s c, S3Call.ListsBelow c (client s c).1)
  (hframe : ∀ s c key, key ∉ c.changed → objects (client s c).2 key = objects s key)

include hlist hframe

/-- A confined call, and then what is done with an answer that lists only what was asked for. -/
theorem Confines.call {c : S3Call} {f : c.Answer → S3Process α} (hc : c.Confined pre)
    (hf : ∀ a, S3Call.ListsBelow c a → Confines client objects bucket pre (f a)) :
    Confines client objects bucket pre (Process.call c >>= f) := by
  intro tr htr
  refine ⟨⟨htr, hc⟩, fun s hs => ⟨fun key hkey => ?_, ?_⟩⟩
  · have hkept : key ∉ c.changed := fun hmem => hkey (hc key (changed_subset_keys c key hmem))
    rw [hframe s c key hkept]
    exact hs key hkey
  · refine hf _ (hlist s c) _ fun m hm => ?_
    rcases List.mem_append.1 hm with hm | hm
    · exact htr m hm
    · obtain rfl := List.mem_singleton.1 hm
      exact hc

theorem Confines.head {key : Str} {f : Except Str (Option Nat) → S3Process α} (hkey : pre <+: key)
    (hf : ∀ a, Confines client objects bucket pre (f a)) : Confines client objects bucket pre (headObject key >>= f) :=
  .call hlist hframe (fun k hk => by rw [List.mem_singleton.1 hk]; exact hkey) fun a _ => hf a

private theorem confines_isFile (hnorm : norm ≠ []) : Confines client objects bucket pre (isFile pre norm) := by
  refine .head hlist hframe (pre_prefix_toKey hnorm) fun a => ?_
  cases a <;> exact .done _

theorem Confines.listing {dir : Str} {delimiter : Option Char} {maxKeys : Option Nat} {f : S3Listing → S3Process α}
    (hdir : pre <+: dir)
    (hf : ∀ listing : S3Listing, (∀ object ∈ listing.contents, dir <+: object.key) →
      Confines client objects bucket pre (f listing)) :
    Confines client objects bucket pre
      (listObjectsV2 dir delimiter maxKeys >>= fun response => S3.request response >>= f) := by
  refine .call hlist hframe (fun k hk => by rw [List.mem_singleton.1 hk]; exact hdir) fun a ha => ?_
  cases a with
  | ok listing => exact hf listing ha
  | error code => exact .done _

private theorem confines_list (path : Str) : Confines client objects bucket pre (list pre path) := by
  refine .listing hlist hframe (pre_prefix_dirPrefix _) fun listing _ => ?_
  split
  · split
    · exact .done _
    · next hnorm =>
      refine (confines_isFile hlist hframe hnorm).bind fun isFile => ?_
      split <;> exact .done _
  · exact .done _

private theorem confines_getBody (path : Str) : Confines client objects bucket pre (getBody pre path) := by
  unfold getBody
  dsimp only
  split
  · exact .done _
  · next hnorm =>
    refine .call hlist hframe (fun k hk => by rw [List.mem_singleton.1 hk]; exact pre_prefix_toKey hnorm) fun a _ => ?_
    cases a with
    | ok body => exact .done _
    | error code => dsimp only; split <;> exact .done _

private theorem confines_writeFile (path : Str) (content : Content) :
    Confines client objects bucket pre (writeFile pre path content) := by
  unfold writeFile
  dsimp only
  split
  · exact .done _
  · next hnorm =>
    refine .call hlist hframe (fun k hk => by rw [List.mem_singleton.1 hk]; exact pre_prefix_toKey hnorm) fun a _ => ?_
    exact .request a

private theorem confines_stat (path : Str) : Confines client objects bucket pre (stat pre path) := by
  unfold stat
  dsimp only
  split
  · exact .done _
  · next hnorm =>
    refine .head hlist hframe (pre_prefix_toKey hnorm) fun a => ?_
    cases a with
    | ok length => exact .done _
    | error code =>
      dsimp only
      split
      · refine .head hlist hframe (pre_prefix_dirKey hnorm) fun a => ?_
        cases a with
        | ok length => exact .done _
        | error code =>
          dsimp only
          split
          · refine .listing hlist hframe (pre_prefix_dirPrefix _) fun listing _ => ?_
            split <;> exact .done _
          · exact .done _
      · exact .done _

private theorem confines_mkdir (path : Str) : Confines client objects bucket pre (mkdir pre path) := by
  unfold mkdir
  dsimp only
  split
  · exact .done _
  · next hnorm =>
    refine .call hlist hframe (fun k hk => by rw [List.mem_singleton.1 hk]; exact pre_prefix_dirKey hnorm) fun a _ => ?_
    exact .request a

/-- What is deleted was listed. -/
private theorem confines_removeDirectory (path norm : Str) (recursive : Bool) :
    Confines client objects bucket pre (removeDirectory pre path norm recursive) := by
  refine .listing hlist hframe (pre_prefix_dirPrefix _) fun listing hbelow => ?_
  split
  · exact .done _
  · next object objects hcontents =>
    split
    · exact .done _
    · split
      · exact .done _
      · refine .call hlist hframe (fun key hkey => ?_) fun a _ => .request a
        obtain ⟨o, ho, rfl⟩ := List.mem_map.1 hkey
        exact (pre_prefix_dirPrefix norm).trans (hbelow o (hcontents ▸ ho))

private theorem confines_remove (path : Str) (recursive : Bool) :
    Confines client objects bucket pre (remove pre path recursive) := by
  unfold remove
  dsimp only
  split
  · exact .done _
  · next hnorm =>
    refine (confines_isFile hlist hframe hnorm).bind fun isFile => ?_
    split
    · refine .call hlist hframe (fun k hk => by rw [List.mem_singleton.1 hk]; exact pre_prefix_toKey hnorm) fun a _ => ?_
      exact .request a
    · exact confines_removeDirectory hlist hframe path _ recursive

private theorem confines_copy (src dest : Str) : Confines client objects bucket pre (copy pre src dest) := by
  unfold copy
  dsimp only
  split
  · exact .done _
  · next hsrc =>
    split
    · exact .done _
    · next hdest =>
      refine .call hlist hframe (fun key hkey => ?_) fun a _ => ?_
      · rcases List.mem_pair.1 hkey with rfl | rfl
        · exact pre_prefix_toKey hsrc
        · exact pre_prefix_toKey hdest
      · cases a with
        | ok _ => exact .done _
        | error code => dsimp only; split <;> exact .done _

/-- The key that `move` deletes at last is that of the source, of which `copy` has found that it is not the root. -/
private theorem confines_move (src dest : Str) : Confines client objects bucket pre (move pre src dest) := by
  by_cases hsrc : normalize src = []
  · have hrefused : move pre src dest = notFound src := by simp [move, copy, hsrc, notFound]
    rw [hrefused]
    exact .done _
  · refine (confines_copy hlist hframe src dest).bind fun _ => ?_
    refine .call hlist hframe (fun k hk => by rw [List.mem_singleton.1 hk]; exact pre_prefix_toKey hsrc) fun a _ => ?_
    exact .request a

private theorem confines_exists (path : Str) : Confines client objects bucket pre (exists_ pre path) := by
  unfold exists_
  dsimp only
  split
  · exact .done _
  · next hnorm =>
    refine (confines_isFile hlist hframe hnorm).bind fun isFile => ?_
    split
    · exact .done _
    · refine .head hlist hframe (pre_prefix_dirKey hnorm) fun a => ?_
      cases a with
      | ok _ => exact .done _
      | error _ => exact .listing hlist hframe (pre_prefix_dirPrefix _) fun listing _ => .done _

theorem confines_program (op : FileOp) : Confines client objects bucket pre (program pre op) := by
  cases op with
  | list path => exact (confines_list hlist hframe path).returning _
  | readFile path => exact ((confines_getBody hlist hframe path).returning _).returning _
  | writeFile path content => exact (confines_writeFile hlist hframe path content).returning _
  | stat path => exact (confines_stat hlist hframe path).returning _
  | exists_ path => exact (confines_exists hlist hframe path).returning _
  | mkdir path _ => exact (confines_mkdir hlist hframe path).returning _
  | remove path recursive => exact (confines_remove hlist hframe path recursive).returning _
  | copy src dest => exact (confines_copy hlist hframe src dest).returning _
  | move src dest => exact (confines_move hlist hframe src dest).returning _
  | getDownloadStream path => exact ((confines_getBody hlist hframe path).returning _).returning _
  | uploadFile path content => exact (confines_writeFile hlist hframe path (.bytes content)).returning _

/-- In every run of operations, with their calls in any order, each key and list prefix that was passed to the client
starts with the configured prefix, without the slashes at its ends, and a slash; and the objects outside of it are as
they were. -/
theorem calls_confined {s : Pool σ FileOp S3Call S3Call.Answer S3Error FileOutcome}
    {history : List (Move (Pool σ FileOp S3Call S3Call.Answer S3Error FileOutcome) (PoolAction FileOp))}
    (h : Run (poolStep client (program (configuredPrefix option))) ⟨bucket, []⟩ history s)
    (hset : stripSlashes (option.getD []) ≠ []) :
    (∀ p ∈ s.processes, ∀ m ∈ p.trace, ∀ key ∈ m.1.keys, stripSlashes (option.getD []) ++ ['/'] <+: key) ∧
      ∀ key, ¬stripSlashes (option.getD []) ++ ['/'] <+: key → objects s.store key = objects bucket key := by
  have hpre : configuredPrefix option = stripSlashes (option.getD []) ++ ['/'] := if_neg hset
  rw [← hpre]
  have hkept := h.satisfies (R := KeptOutside objects (configuredPrefix option) bucket) (fun _ _ => rfl)
    fun op => confines_program hlist hframe op [] fun _ hm => by cases hm
  refine ⟨fun p hp => ?_, hkept.store⟩
  have hp' := hkept.processes p hp
  cases hcode : p.code with
  | done result => rw [hcode] at hp'; exact hp'
  | await c k => rw [hcode] at hp'; exact hp'.1.1

end Confines

/-! ### With a bucket -/

theorem bucket_listsBelow (pageSize : Nat) (s : Bucket) (c : S3Call) :
    S3Call.ListsBelow c (Bucket.client pageSize s c).1 := by
  cases c with
  | listObjectsV2 keyPrefix delimiter maxKeys =>
    intro object hobject
    obtain ⟨e, he, heq⟩ := List.mem_filterMap.1 hobject
    obtain ⟨key, body, -, hbelow, rfl⟩ := Bucket.mem_bucketListing.1 (List.mem_of_mem_take he)
    have hkey : object.key = key := by
      unfold rollUp at heq
      dsimp only at heq
      split at heq
      · exact congrArg S3Object.key (Option.some.inj heq).symm
      · split at heq
        · cases heq
        · exact congrArg S3Object.key (Option.some.inj heq).symm
    rwa [hkey]
  | _ => trivial

private theorem bucket_frame (pageSize : Nat) (s : Bucket) (c : S3Call) (key : Str) (h : key ∉ c.changed) :
    Bucket.objects (Bucket.client pageSize s c).2 key = Bucket.objects s key := by
  have hput : ∀ other body, key ≠ other → Bucket.objects (Bucket.put s other body) key = Bucket.objects s key := by
    intro other body hne
    have hne' : (key == other) = false := beq_eq_false_iff_ne.2 hne
    rw [Bucket.objects, Bucket.put, List.lookup_cons, hne', Bucket.lookup_discard, if_neg (by simpa using hne),
      Bucket.objects]
  cases c with
  | putObject other body => exact hput other body fun heq => h (List.mem_singleton.2 heq)
  | deleteObject other => exact (Bucket.lookup_discard s [other] key).trans (if_neg h)
  | deleteObjects keys => exact (Bucket.lookup_discard s keys key).trans (if_neg h)
  | copyObject source other =>
    dsimp only [Bucket.client]
    split
    · exact hput other _ fun heq => h (List.mem_singleton.2 heq)
    · rfl
  | _ => rfl

/-- A file is written above the root, and a directory removed, with their calls in turns. -/
theorem calls_confined_bucket : ∃ ms, ∃ s : Pool Bucket FileOp S3Call S3Call.Answer S3Error FileOutcome,
    Run (poolStep (Bucket.client 1000) (program (configuredPrefix (some "data".toList))))
      ⟨[("other".toList, [1]), ("data/d/y".toList, [2])], []⟩ ms s ∧
      s.store = [("data/x".toList, []), ("other".toList, [1])] ∧
      (∀ p ∈ s.processes, ∀ m ∈ p.trace, ∀ key ∈ m.1.keys, "data/".toList <+: key) ∧
      Bucket.objects s.store "other".toList = some [1] := by
  let actions : List (PoolAction FileOp) :=
    [PoolAction.start (FileOp.writeFile "/../../x".toList (Content.bytes [])),
      PoolAction.start (FileOp.remove "d/.".toList true), PoolAction.answer 1, PoolAction.answer 0, PoolAction.answer 1,
      PoolAction.answer 1]
  have hexec : (exec (poolStep (Bucket.client 1000) (program (configuredPrefix (some "data".toList))))
      ⟨[("other".toList, [1]), ("data/d/y".toList, [2])], []⟩ actions).any
      (fun r => decide (r.2.store = [("data/x".toList, []), ("other".toList, [1])])) = true := by
    decide +kernel
  obtain ⟨⟨ms, s⟩, hexec, hstore⟩ := (Option.any_eq_true _ _).1 hexec
  obtain ⟨hconfined, hkept⟩ :=
    calls_confined (bucket_listsBelow 1000) (bucket_frame 1000) (run_of_exec hexec) (by decide)
  exact ⟨ms, s, run_of_exec hexec, of_decide_eq_true hstore, hconfined, hkept "other".toList (by decide)⟩

/-- A slash before the configured prefix is not part of the keys. -/
theorem slash_not_kept : ∃ ms, ∃ s : Pool Bucket FileOp S3Call S3Call.Answer S3Error FileOutcome,
    Run (poolStep (Bucket.client 1000) (program (configuredPrefix (some "/data".toList)))) ⟨[], []⟩ ms s ∧
      ¬∀ p ∈ s.processes, ∀ m ∈ p.trace, ∀ key ∈ m.1.keys, "/data".toList ++ ['/'] <+: key := by
  let actions : List (PoolAction FileOp) :=
    [PoolAction.start (FileOp.writeFile "x".toList (Content.bytes [])), PoolAction.answer 0]
  have hexec : (exec (poolStep (Bucket.client 1000) (program (configuredPrefix (some "/data".toList)))) ⟨[], []⟩ actions).any
      (fun r => decide (¬∀ p ∈ r.2.processes, ∀ m ∈ p.trace, ∀ key ∈ m.1.keys, "/data".toList ++ ['/'] <+: key)) =
      true := by
    decide +kernel
  obtain ⟨⟨ms, s⟩, hexec, houtside⟩ := (Option.any_eq_true _ _).1 hexec
  exact ⟨ms, s, run_of_exec hexec, of_decide_eq_true houtside⟩

end S3

end CliServer
