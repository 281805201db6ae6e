import CliServer.Files.S3Confinement
import CliServer.Lib.Isolation

/-!
# Several prefixes in one bucket

Several S3 providers share a bucket, each with a prefix of its own; their operations run at once, and the calls of all
of them come in any order.  A provider whose prefix does not begin with the prefix of another one, nor the other way
round, cannot tell that the others are there: its operations make the calls that they make by themselves and get the
same answers (`prefix_undisturbed`).  Since a prefix ends with a slash, `data` and `data2` are such prefixes.
-/

namespace CliServer

open Process Transition

namespace S3

section Isolation

variable {σ τ ι : Type} {client : S3Client σ} {part : Str → σ → τ} {bucket bucket' : σ} {option : ι → Option Str}

/-- An operation of one of the providers. -/
def providerProgram (option : ι → Option Str) (request : ι × FileOp) : S3Process FileOutcome :=
  program (configuredPrefix (option request.1)) request.2

variable (hlist : ∀ s c, S3Call.ListsBelow c (client s c).1)

include hlist

/-- Whatever is in the bucket, the calls of an operation are confined to the prefix. -/
private theorem program_confined (bucket : σ) (pre : Str) (op : FileOp) :
    Satisfies client (KeptOutside (fun _ _ => none) pre bucket) (fun tr c => TraceConfined pre tr ∧ c.Confined pre)
      (fun tr _ => TraceConfined pre tr) [] (program pre op) :=
  confines_program hlist (fun _ _ _ _ => rfl) op [] fun _ hm => absurd hm List.not_mem_nil

/-- A client answers calls below a prefix from the objects there, and changes no others.  Then in every run of the
operations of all providers, those of a provider whose prefix is not comparable with another's are in a run without the
others, on any bucket with the same objects below the prefix: with the same calls and answers, and the same objects left
there. -/
theorem prefix_undisturbed [DecidableEq ι]
    {s : Pool σ (ι × FileOp) S3Call S3Call.Answer S3Error FileOutcome}
    {history : List (Move (Pool σ (ι × FileOp) S3Call S3Call.Answer S3Error FileOutcome) (PoolAction (ι × FileOp)))}
    (hlocal : ∀ pre c, c.Confined pre → LocalCall client (part pre) c)
    (hframe : ∀ pre c, (∀ key ∈ c.changed, ¬pre <+: key) → SparingCall client (part pre) c)
    (h : Run (poolStep client (providerProgram option)) ⟨bucket, []⟩ history s) (i : ι)
    (hapart : ∀ j, j ≠ i → ¬configuredPrefix (option i) <+: configuredPrefix (option j) ∧
      ¬configuredPrefix (option j) <+: configuredPrefix (option i))
    (hpart : part (configuredPrefix (option i)) bucket = part (configuredPrefix (option i)) bucket') :
    ∃ alone, ∃ t : Pool σ (ι × FileOp) S3Call S3Call.Answer S3Error FileOutcome,
      Run (poolStep client (providerProgram option)) ⟨bucket', []⟩ alone t ∧
      t.processes = s.processes.filter (fun p => p.op.1 = i) ∧
      part (configuredPrefix (option i)) t.store = part (configuredPrefix (option i)) s.store := by
  have hsees : ∀ request : ι × FileOp, decide (request.1 = i) = true →
      Sees client (part (configuredPrefix (option i))) (providerProgram option request) := by
    intro request hmine
    obtain rfl := of_decide_eq_true hmine
    exact (program_confined hlist bucket _ request.2).sees (fun _ _ _ => rfl) fun _ c hc => hlocal _ c hc.2
  have hspares : ∀ request : ι × FileOp, decide (request.1 = i) = false →
      Spares client (part (configuredPrefix (option i))) (providerProgram option request) := by
    intro request hother
    obtain ⟨hleft, hright⟩ := hapart request.1 (of_decide_eq_false hother)
    refine (program_confined hlist bucket _ request.2).spares (fun _ _ _ => rfl) fun _ c hc => ?_
    refine hframe _ c fun key hkey hbelow => ?_
    have hkey' := hc.2 key (changed_subset_keys c key hkey)
    rcases List.prefix_or_prefix_of_prefix hbelow hkey' with hle | hle
    · exact hleft hle
    · exact hright hle
  obtain ⟨alone, t, hrun, hprojected⟩ := h.projected hpart hsees hspares
  exact ⟨alone, t, hrun, hprojected.processes, hprojected.store.symm⟩

end Isolation

/-! ### With a bucket -/

/-- The objects below a prefix. -/
def below (pre : Str) (b : Bucket) : Bucket := b.filter fun object => pre.isPrefixOf object.1

variable {pre key : Str} {b : Bucket}

private theorem lookup_below (hkey : pre <+: key) : (below pre b).lookup key = b.lookup key := by
  induction b with
  | nil => rfl
  | cons object b ih =>
    obtain ⟨other, body⟩ := object
    unfold below at ih ⊢
    rw [List.filter_cons]
    split
    · rw [List.lookup_cons, List.lookup_cons, ih]
    · next hother =>
      have hne : (key == other) = false := by
        rw [beq_eq_false_iff_ne]
        rintro rfl
        exact hother (List.isPrefixOf_iff_prefix.2 hkey)
      rw [ih, List.lookup_cons, hne]

private theorem below_discard (keys : List Str) : below pre (b.discard keys) = (below pre b).discard keys := by
  unfold below Bucket.discard
  rw [List.filter_filter, List.filter_filter]
  exact List.filter_congr fun _ _ => Bool.and_comm _ _

private theorem below_put (hkey : pre <+: key) (body : List UInt8) :
    below pre (b.put key body) = (below pre b).put key body := by
  unfold Bucket.put
  rw [← below_discard]
  exact List.filter_cons_of_pos (List.isPrefixOf_iff_prefix.2 hkey)

private theorem listing_below {keyPrefix : Str} (hkey : pre <+: keyPrefix) (delimiter : Option Char) :
    (below pre b).listing keyPrefix delimiter = b.listing keyPrefix delimiter := by
  unfold Bucket.listing
  have hkeys : ((below pre b).map Prod.fst).filter (fun key => keyPrefix.isPrefixOf key) =
      (b.map Prod.fst).filter fun key => keyPrefix.isPrefixOf key := by
    unfold below
    rw [List.filter_map, List.filter_map, List.filter_filter]
    congr 1
    refine List.filter_congr fun object _ => ?_
    cases hkeyed : keyPrefix.isPrefixOf object.1 with
    | false => simp [hkeyed]
    | true =>
      have hpre : pre.isPrefixOf object.1 = true :=
        List.isPrefixOf_iff_prefix.2 (hkey.trans (List.isPrefixOf_iff_prefix.1 hkeyed))
      simp [hkeyed, hpre]
  rw [hkeys]
  congr 1
  refine List.map_congr_left fun key hmem => ?_
  rw [lookup_below (hkey.trans (List.isPrefixOf_iff_prefix.1 (List.mem_filter.1 hmem).2))]

/-- A confined call is answered from the objects below the prefix. -/
private theorem client_below (pageSize : Nat) (b : Bucket) {c : S3Call} (hc : c.Confined pre) :
    (Bucket.client pageSize (below pre b) c).1 = (Bucket.client pageSize b c).1 ∧
      (Bucket.client pageSize (below pre b) c).2 = below pre (Bucket.client pageSize b c).2 := by
  cases c with
  | listObjectsV2 keyPrefix delimiter maxKeys =>
    dsimp only [Bucket.client]
    rw [listing_below (hc keyPrefix (by simp [S3Call.keys]))]
    exact ⟨rfl, rfl⟩
  | getObject key =>
    dsimp only [Bucket.client]
    rw [lookup_below (hc key (by simp [S3Call.keys]))]
    exact ⟨rfl, rfl⟩
  | putObject key body => exact ⟨rfl, (below_put (hc key (by simp [S3Call.keys])) body).symm⟩
  | headObject key =>
    dsimp only [Bucket.client]
    rw [lookup_below (hc key (by simp [S3Call.keys]))]
    exact ⟨rfl, rfl⟩
  | deleteObject key => exact ⟨rfl, (below_discard [key]).symm⟩
  | deleteObjects keys => exact ⟨rfl, (below_discard keys).symm⟩
  | copyObject source key =>
    dsimp only [Bucket.client]
    rw [lookup_below (hc source (by simp [S3Call.keys]))]
    cases b.lookup source with
    | some body => exact ⟨rfl, (below_put (hc key (by simp [S3Call.keys])) body).symm⟩
    | none => exact ⟨rfl, rfl⟩

private theorem bucket_local (pageSize : Nat) (pre : Str) (c : S3Call) (hc : c.Confined pre) :
    LocalCall (Bucket.client pageSize) (below pre) c := by
  intro s t hst
  obtain ⟨hs, hs'⟩ := client_below pageSize s hc
  obtain ⟨ht, ht'⟩ := client_below pageSize t hc
  rw [← hs, ← ht, ← hs', ← ht', hst]
  exact ⟨rfl, rfl⟩

private theorem below_discard_outside {keys : List Str} (h : ∀ key ∈ keys, ¬pre <+: key) :
    below pre (b.discard keys) = below pre b := by
  unfold below Bucket.discard
  rw [List.filter_filter]
  refine List.filter_congr fun object _ => ?_
  cases hbelow : pre.isPrefixOf object.1 with
  | false => rfl
  | true =>
    have hmem : object.1 ∉ keys := fun hmem => h object.1 hmem (List.isPrefixOf_iff_prefix.1 hbelow)
    simp [hmem]

private theorem below_put_outside (h : ¬pre <+: key) (body : List UInt8) :
    below pre (b.put key body) = below pre b := by
  have hkey : ∀ other ∈ [key], ¬pre <+: other := fun other hmem => by rwa [List.mem_singleton.1 hmem]
  have hout : ¬pre.isPrefixOf key = true := by rwa [List.isPrefixOf_iff_prefix]
  calc below pre (b.put key body) = below pre (b.discard [key]) := List.filter_cons_of_neg hout
    _ = below pre b := below_discard_outside hkey

private theorem bucket_sparing (pageSize : Nat) (pre : Str) (c : S3Call) (h : ∀ key ∈ c.changed, ¬pre <+: key) :
    SparingCall (Bucket.client pageSize) (below pre) c := by
  intro s
  cases c with
  | putObject key body => exact below_put_outside (h key (by simp [S3Call.changed])) body
  | deleteObject key => exact below_discard_outside h
  | deleteObjects keys => exact below_discard_outside h
  | copyObject source key =>
    dsimp only [Bucket.client]
    split
    · exact below_put_outside (h key (by simp [S3Call.changed])) _
    · rfl
  | _ => rfl

/-- A directory below `data` is removed while one of that name is written below `data2`. -/
theorem prefix_undisturbed_two : ∃ history, ∃ s : Pool Bucket (Bool × FileOp) S3Call S3Call.Answer S3Error FileOutcome,
    Run (poolStep (Bucket.client 1000) (providerProgram fun i => some (if i then "data" else "data2").toList))
      ⟨[("data/d/y".toList, [1]), ("data2/d/y".toList, [2])], []⟩ history s ∧
      s.store = [("data2/d/x".toList, [3]), ("data2/d/y".toList, [2])] ∧
      ∃ alone, ∃ t : Pool Bucket (Bool × FileOp) S3Call S3Call.Answer S3Error FileOutcome,
        Run (poolStep (Bucket.client 1000) (providerProgram fun i => some (if i then "data" else "data2").toList))
          ⟨[("data2/d/y".toList, [2])], []⟩ alone t ∧
        t.processes = s.processes.filter (fun p => p.op.1 = false) ∧
        below "data2/".toList t.store = below "data2/".toList s.store := by
  let actions : List (PoolAction (Bool × FileOp)) :=
    [PoolAction.start (true, FileOp.remove "d".toList true),
      PoolAction.start (false, FileOp.writeFile "d/x".toList (Content.bytes [3])), PoolAction.answer 0,
      PoolAction.answer 0, PoolAction.answer 1, PoolAction.answer 0]
  have hexec : (exec (poolStep (Bucket.client 1000)
      (providerProgram fun i => some (if i then "data" else "data2").toList))
      ⟨[("data/d/y".toList, [1]), ("data2/d/y".toList, [2])], []⟩ actions).any
      (fun r => decide (r.2.store = [("data2/d/x".toList, [3]), ("data2/d/y".toList, [2])])) = true := by
    decide +kernel
  obtain ⟨⟨history, s⟩, hexec, hstore⟩ := (Option.any_eq_true _ _).1 hexec
  have hpart : below "data2/".toList [("data/d/y".toList, [1]), ("data2/d/y".toList, [2])] =
      below "data2/".toList [("data2/d/y".toList, [2])] := by
    decide
  obtain ⟨alone, t, hrun, hprocesses, hpart⟩ := prefix_undisturbed (bucket_listsBelow 1000) (bucket_local 1000)
    (bucket_sparing 1000) (run_of_exec hexec) false (by decide) hpart
  exact ⟨history, s, run_of_exec hexec, of_decide_eq_true hstore, alone, t, hrun, hprocesses, hpart⟩

end S3

end CliServer
