import CliServer.Jobs.Registration
import CliServer.Lib.PercentEncoding
import CliServer.Lib.Utf8
import CliServer.Server.Router

/-!
# Addresses of the jobs

The ids that `register` gives are distinct, and a request of the jobs API with a job's id in its path, percent-encoded,
reaches the handler of its route with that job, whatever characters the id has, but for two: `GET /jobs/executions` and
`GET /jobs/stats` are routes of their own, declared before `GET /jobs/{job_id}`, and `register` accepts these ids
(`jobs_addressable_iff`).
-/

namespace CliServer

/-! ### The registrations -/

/-- What `register` is called with: `options.id`, `options.name` and the job with the name of its class. -/
structure JobDeclaration (J : Type*) where
  id : Option Str
  name : Str
  typeName : Str
  job : J

/-- `options.name`, by default the class's name. -/
def JobDeclaration.jobName {J : Type*} (d : JobDeclaration J) : Str := if d.name = [] then d.typeName else d.name

variable {J : Type*}

/-- `register`, as far as the id is concerned. -/
def registerJob (registered : List (Str × J)) (d : JobDeclaration J) : Except RegisterError (List (Str × J)) :=
  (registerId (registered.map Prod.fst) d.id d.jobName).map fun id => registered ++ [(id, d.job)]

/-- `_registrations` after some calls of `register`; one that raises adds nothing. -/
def registrations (declarations : List (JobDeclaration J)) : List (Str × J) :=
  declarations.foldl (fun registered d => (registerJob registered d).toOption.getD registered) []

private theorem registrations_concat (declarations : List (JobDeclaration J)) (d : JobDeclaration J) :
    registrations (declarations ++ [d]) = registrations declarations ∨
    ∃ id, registerId ((registrations declarations).map Prod.fst) d.id d.jobName = .ok id ∧
      registrations (declarations ++ [d]) = registrations declarations ++ [(id, d.job)] := by
  have hstep : registrations (declarations ++ [d]) =
      (registerJob (registrations declarations) d).toOption.getD (registrations declarations) := by
    simp [registrations, List.foldl_append]
  rw [hstep, registerJob]
  cases hid : registerId ((registrations declarations).map Prod.fst) d.id d.jobName with
  | error e => exact .inl rfl
  | ok id => exact .inr ⟨id, rfl, rfl⟩

/-- The ids of the jobs are distinct. -/
private theorem nodup_registrations (declarations : List (JobDeclaration J)) :
    ((registrations declarations).map Prod.fst).Nodup := by
  induction declarations using List.reverseRecOn with
  | nil => exact List.nodup_nil
  | append_singleton declarations d ih =>
    rcases registrations_concat declarations d with hsame | ⟨id, hid, hadded⟩
    · rw [hsame]
      exact ih
    · rw [hadded, List.map_append, List.map_singleton, List.nodup_append]
      refine ⟨ih, List.nodup_singleton id, fun id₁ h₁ id₂ h₂ heq => ?_⟩
      rw [heq, List.mem_singleton.1 h₂] at h₁
      exact registerId_notMem hid h₁

private theorem safe_registrations (declarations : List (JobDeclaration J)) :
    ∀ p ∈ registrations declarations, ∀ c ∈ p.1, c ∉ unsafeIdChars := by
  induction declarations using List.reverseRecOn with
  | nil =>
    intro p hp
    cases hp
  | append_singleton declarations d ih =>
    rcases registrations_concat declarations d with hsame | ⟨id, hid, hadded⟩
    · rw [hsame]
      exact ih
    · rw [hadded]
      intro p hp
      rcases List.mem_append.1 hp with hp | hp
      · exact ih p hp
      · rw [List.mem_singleton.1 hp]
        exact registerId_safe hid

/-! ### Requests -/

/-- The handler of a request to the jobs API. -/
def jobsDispatch (method : Method) (path : Str) : Option Handler :=
  (jobsRoutes.find? (·.takes method path)).map Route.handler

/-- `job_id` in the path of a request: what is between the prefix and the next `/`. -/
def jobIdParam (path : Str) : Str := (path.drop (jobsPrefix.length + 1)).takeWhile (· ≠ '/')

/-- The path that the router gets for the target of a request. -/
def requestPath (target : List UInt8) : Str := Utf8.decode (PercentEncoding.decode target)

/-- The end of a path, with values for its parameters: texts without `/` that are not empty. -/
def fillPath : List Part → List Str → Option Str
  | [], [] => some []
  | .text s :: parts, values => (fillPath parts values).map (s ++ ·)
  | .param :: parts, value :: values => if value ≠ [] ∧
    '/' ∉ value then (fillPath parts values).map (value ++ ·) else none
  | _, _ => none

/-- Every request for a job, its path percent-encoded in whatever way, reaches the handler of its route with the job. -/
def Addressable (jobs : List (Str × J)) (id : Str) (job : J) : Prop :=
  ∀ method rest handler, Route.ofJob method rest handler ∈ jobsRoutes →
    ∀ values tail, fillPath rest values = some tail → ∀ keep, keep PercentEncoding.percent = false →
    let path := requestPath (PercentEncoding.encode keep (Utf8.encode (jobsPrefix ++ '/' :: (id ++ tail))))
    jobsDispatch method path = some handler ∧ jobs.lookup (jobIdParam path) = some job

/-- The ids whose path is that of another route; a route's path may also be followed by a newline. -/
def reservedIds : List Str := ["executions".toList, "stats".toList, "executions\n".toList, "stats\n".toList]

private theorem requestPath_encode {keep : UInt8 → Bool} (hkeep : keep PercentEncoding.percent = false) (path : Str) :
    requestPath (PercentEncoding.encode keep (Utf8.encode path)) = path := by
  rw [requestPath, PercentEncoding.decode_encode hkeep, Utf8.decode_encode]

/-! ### The routes of one job -/

/-- The routes of one job: the method, what follows the id, and the handler. -/
def jobRoutes : List (Method × List Part × Handler) :=
  [(.get, [], .getJob),
    (.post, [.text "/trigger".toList], .triggerJob),
    (.post, [.text "/pause".toList], .pauseJob),
    (.post, [.text "/resume".toList], .resumeJob),
    (.post, [.text "/stop".toList], .stopJob),
    (.post, [.text "/cancel".toList], .cancelJob),
    (.put, [], .updateJob),
    (.get, [.text "/history".toList], .getHistory),
    (.get, [.text "/history/".toList, .param], .getExecution),
    (.delete, [.text "/history/".toList, .param], .deleteExecution),
    (.delete, [.text "/history".toList], .deleteExecutions)]

/-- The other routes. -/
def otherRoutes : List Route :=
  [.fixed .get jobsPrefix .listJobs,
    .fixed .get (jobsPrefix ++ '/' :: "executions".toList) .listExecutions,
    .fixed .get (jobsPrefix ++ '/' :: "stats".toList) .getStats]

private theorem jobsRoutes_eq : jobsRoutes = otherRoutes ++ jobRoutes.map fun r => .ofJob r.1 r.2.1 r.2.2 := rfl

private theorem mem_jobRoutes {method : Method} {rest : List Part} {handler : Handler}
    (h : Route.ofJob method rest handler ∈ jobsRoutes) : (method, rest, handler) ∈ jobRoutes := by
  rw [jobsRoutes_eq] at h
  rcases List.mem_append.1 h with h | h
  · have hparts : ∀ m p h', Route.ofJob method rest handler ≠ .fixed m p h' := fun m p h' heq => by
      cases congrArg (fun r => r.path.length) heq
    simp only [otherRoutes, List.mem_cons, List.not_mem_nil, or_false] at h
    rcases h with h | h | h <;> exact absurd h (hparts _ _ _)
  · obtain ⟨⟨m, parts, h'⟩, hmem, heq⟩ := List.mem_map.1 h
    simp only [Route.ofJob, Route.mk.injEq, List.cons.injEq, true_and] at heq
    obtain ⟨rfl, rfl, rfl⟩ := heq
    exact hmem

/-- What follows the id starts with `/`, if anything follows. -/
private theorem jobRoutes_rest {r : Method × List Part × Handler} (hr : r ∈ jobRoutes) :
    r.2.1 = [] ∨ ∃ s parts, r.2.1 = .text ('/' :: s) :: parts := by
  simp only [jobRoutes, List.mem_cons, List.not_mem_nil, or_false] at hr
  rcases hr with rfl | rfl | rfl | rfl | rfl | rfl | rfl | rfl | rfl | rfl | rfl <;>
    first | exact .inl rfl | exact .inr ⟨_, _, rfl⟩

private theorem leaves_jobRoutes {r : Method × List Part × Handler} (hr : r ∈ jobRoutes) :
    ∀ w ∈ (compilePath r.2.1).lang, Regex.Leaves (· ≠ '/') w := by
  intro w hw
  rcases jobRoutes_rest hr with hparts | ⟨s, parts, hparts⟩
  · rw [hparts] at hw
    have hempty : w = [] := hw
    rw [hempty]
    exact fun c hc => by cases hc
  · rw [hparts] at hw
    obtain ⟨u, hu, v, -, rfl⟩ := Regex.mem_lang_cat.1 hw
    rw [Regex.mem_lang_lit.1 hu]
    exact fun c hc => by cases hc; rfl

private theorem ne_slash {s : Str} (h : '/' ∉ s) : ∀ c ∈ s, decide (c ≠ '/') = true := by
  intro c hc
  rw [decide_eq_true_eq]
  rintro rfl
  exact h hc

/-- A route of one job takes a path by what follows the id. -/
private theorem takes_ofJob {r : Method × List Part × Handler} (hr : r ∈ jobRoutes) {id tail : Str} (hne : id ≠ [])
    (hid : '/' ∉ id) (htail : Regex.Leaves (· ≠ '/') tail) (method : Method) :
    (Route.ofJob r.1 r.2.1 r.2.2).takes method (jobsPrefix ++ '/' :: (id ++ tail)) =
      (decide (r.1 = method) && Regex.acceptsLine '\n' (compilePath r.2.1) tail) := by
  have hpath : jobsPrefix ++ '/' :: (id ++ tail) = (jobsPrefix ++ ['/']) ++ (id ++ tail) := by simp
  rw [Route.takes, Route.ofJob, hpath, compilePath, compilePath,
    Regex.acceptsLine_cat_lit _ _ (List.append_ne_nil_of_left_ne_nil hne _),
    Regex.acceptsLine_cat_plus (leaves_jobRoutes hr) (ne_slash hid) hne htail]

/-- A route without parameters takes its own path, with or without a newline. -/
private theorem takes_fixed {m method : Method} {s path : Str} {handler : Handler}
    (h : (Route.fixed m (jobsPrefix ++ s) handler).takes method (jobsPrefix ++ path) = true) :
    path = s ∨ path = s ++ ['\n'] := by
  rw [Route.takes, Bool.and_eq_true] at h
  rcases acceptsLine_fixed h.2 with heq | heq
  · exact .inl (List.append_cancel_left heq)
  · rw [List.append_assoc] at heq
    exact .inr (List.append_cancel_left heq)

/-- The other routes take no path of a job but the reserved ones. -/
private theorem not_takes_otherRoutes {r : Route} (hr : r ∈ otherRoutes) {path : Str} (hpath : path ∉ reservedIds)
    (method : Method) : ¬ r.takes method (jobsPrefix ++ '/' :: path) = true := by
  have htext : ∀ (s : Str) (handler : Handler), s ∈ reservedIds → s ++ ['\n'] ∈ reservedIds →
      ¬ (Route.fixed .get (jobsPrefix ++ '/' :: s) handler).takes method (jobsPrefix ++ '/' :: path) = true := by
    intro s handler hs hline htakes
    rcases takes_fixed htakes with heq | heq
    · rw [(List.cons.inj heq).2] at hpath
      exact hpath hs
    · rw [(List.cons.inj heq).2] at hpath
      exact hpath hline
  simp only [otherRoutes, List.mem_cons, List.not_mem_nil, or_false] at hr
  rcases hr with rfl | rfl | rfl
  · intro htakes
    have hroot : (Route.fixed .get (jobsPrefix ++ []) .listJobs).takes method (jobsPrefix ++ '/' :: path) = true := by
      rw [List.append_nil]
      exact htakes
    rcases takes_fixed hroot with heq | heq <;> cases heq
  · exact htext _ _ (by decide) (by decide)
  · exact htext _ _ (by decide) (by decide)

/-- The route of one job that takes what follows the id. -/
def jobRoute? (method : Method) (tail : Str) : Option (Method × List Part × Handler) :=
  jobRoutes.find? fun r => r.1 = method && Regex.acceptsLine '\n' (compilePath r.2.1) tail

/-- A request for a job is handled by what follows the id, unless its path is a reserved one. -/
private theorem jobsDispatch_job {id tail : Str} (hne : id ≠ []) (hid : '/' ∉ id) (htail : Regex.Leaves (· ≠ '/') tail)
    (hreserved : id ++ tail ∉ reservedIds) (method : Method) :
    jobsDispatch method (jobsPrefix ++ '/' :: (id ++ tail)) = (jobRoute? method tail).map (·.2.2) := by
  have hother : otherRoutes.find? (·.takes method (jobsPrefix ++ '/' :: (id ++ tail))) = none :=
    List.find?_eq_none.2 fun r hr => not_takes_otherRoutes hr hreserved method
  have hfind : jobRoutes.find? ((·.takes method (jobsPrefix ++ '/' :: (id ++ tail))) ∘
      fun r => Route.ofJob r.1 r.2.1 r.2.2) = jobRoute? method tail :=
    List.find?_congr fun r hr => takes_ofJob hr hne hid htail method
  rw [jobsDispatch, jobsRoutes_eq, List.find?_append, hother, Option.none_or, List.find?_map, hfind, Option.map_map]
  rfl

private theorem fillPath_nil {values : List Str} {tail : Str} (h : fillPath [] values = some tail) : tail = [] := by
  cases values with
  | nil => exact (Option.some.inj h).symm
  | cons value values => cases h

private theorem fillPath_text {s tail : Str} {parts : List Part} {values : List Str}
    (h : fillPath (.text s :: parts) values = some tail) :
    ∃ after, fillPath parts values = some after ∧ tail = s ++ after := by
  rw [fillPath] at h
  obtain ⟨after, hafter, rfl⟩ := Option.map_eq_some_iff.1 h
  exact ⟨after, hafter, rfl⟩

private theorem fillPath_param {values : List Str} {tail : Str} (h : fillPath [.param] values = some tail) :
    tail ≠ [] ∧ '/' ∉ tail := by
  cases values with
  | nil => cases h
  | cons value values =>
    rw [fillPath] at h
    split at h
    next hvalue =>
      obtain ⟨after, hafter, rfl⟩ := Option.map_eq_some_iff.1 h
      rw [fillPath_nil hafter, List.append_nil]
      exact hvalue
    · cases h

/-- The route of one run of a job. -/
private theorem jobRoute?_execution {run : Str} (hne : run ≠ []) (hrun : '/' ∉ run) :
    (jobRoute? .get ("/history/".toList ++ run)).map (·.2.2) = some .getExecution ∧
    (jobRoute? .delete ("/history/".toList ++ run)).map (·.2.2) = some .deleteExecution := by
  have hno : ∀ parts : List Part, (compilePath parts).derivs "/history/".toList = .empty →
      Regex.acceptsLine '\n' (compilePath parts) ("/history/".toList ++ run) = false := by
    intro parts hparts
    rw [Regex.acceptsLine_append _ _ hne, hparts, Regex.acceptsLine_empty]
  have hown : Regex.acceptsLine '\n' (compilePath [.text "/history/".toList, .param])
      ("/history/".toList ++ run) = true := by
    have hparam : Regex.acceptsLine '\n' (compilePath [.param]) (run ++ []) = true := by
      rw [compilePath, Regex.acceptsLine_cat_plus (fun w hw c hc => ?_) (ne_slash hrun) hne fun c hc => by cases hc]
      · rfl
      · have hempty : w = [] := hw
        rw [hempty] at hc
        cases hc
    rw [List.append_nil] at hparam
    rw [compilePath, Regex.acceptsLine_cat_lit _ _ hne]
    exact hparam
  have hroot := hno [] rfl
  have hhistory := hno [.text "/history".toList] rfl
  constructor
  · simp only [jobRoute?, jobRoutes, List.find?_cons, reduceCtorEq, decide_true, decide_false, Bool.true_and,
      Bool.false_and, hroot, hhistory, hown, Option.map_some]
  · simp only [jobRoute?, jobRoutes, List.find?_cons, reduceCtorEq, decide_true, decide_false, Bool.true_and,
      Bool.false_and, hown, Option.map_some]

/-- Each route of one job takes what its pattern is filled to. -/
private theorem jobRoute?_fillPath {r : Method × List Part × Handler} (hr : r ∈ jobRoutes) {values : List Str}
    {tail : Str}
    (h : fillPath r.2.1 values = some tail) : (jobRoute? r.1 tail).map (·.2.2) = some r.2.2 := by
  have hroot : fillPath [] values = some tail → tail = [] := fillPath_nil
  have htext : ∀ s : Str, fillPath [.text s] values = some tail → tail = s := by
    intro s hs
    obtain ⟨after, hafter, rfl⟩ := fillPath_text hs
    rw [fillPath_nil hafter, List.append_nil]
  have hrun : fillPath [.text "/history/".toList, .param] values = some tail →
      ∃ run, run ≠ [] ∧ '/' ∉ run ∧ tail = "/history/".toList ++ run := by
    intro hs
    obtain ⟨run, hparam, rfl⟩ := fillPath_text hs
    exact ⟨run, (fillPath_param hparam).1, (fillPath_param hparam).2, rfl⟩
  simp only [jobRoutes, List.mem_cons, List.not_mem_nil, or_false] at hr
  rcases hr with rfl | rfl | rfl | rfl | rfl | rfl | rfl | rfl | rfl | rfl | rfl
  · rw [hroot h]
    decide
  · rw [htext _ h]
    decide
  · rw [htext _ h]
    decide
  · rw [htext _ h]
    decide
  · rw [htext _ h]
    decide
  · rw [htext _ h]
    decide
  · rw [hroot h]
    decide
  · rw [htext _ h]
    decide
  · obtain ⟨run, hne, hslash, rfl⟩ := hrun h
    exact (jobRoute?_execution hne hslash).1
  · obtain ⟨run, hne, hslash, rfl⟩ := hrun h
    exact (jobRoute?_execution hne hslash).2
  · rw [htext _ h]
    decide

private theorem fillPath_leaves {r : Method × List Part × Handler} (hr : r ∈ jobRoutes) {values : List Str} {tail : Str}
    (h : fillPath r.2.1 values = some tail) : Regex.Leaves (· ≠ '/') tail := by
  rcases jobRoutes_rest hr with hparts | ⟨s, parts, hparts⟩
  · rw [hparts] at h
    rw [fillPath_nil h]
    exact fun c hc => by cases hc
  · rw [hparts] at h
    obtain ⟨after, -, rfl⟩ := fillPath_text h
    exact fun c hc => by cases hc; rfl

/-! ### Every job is addressable -/

private theorem jobIdParam_path {id tail : Str} (hid : '/' ∉ id) (htail : Regex.Leaves (· ≠ '/') tail) :
    jobIdParam (jobsPrefix ++ '/' :: (id ++ tail)) = id := by
  have hpath : jobsPrefix ++ '/' :: (id ++ tail) = (jobsPrefix ++ ['/']) ++ (id ++ tail) := by simp
  rw [jobIdParam, hpath, List.drop_left' (by simp)]
  exact Regex.takeWhile_append_of_leaves (ne_slash hid) htail

/-- A registered job is found under its id. -/
private theorem lookup_registrations {declarations : List (JobDeclaration J)} {id : Str} {job : J}
    (h : (id, job) ∈ registrations declarations) : (registrations declarations).lookup id = some job := by
  obtain ⟨earlier, later, heq⟩ := List.append_of_mem h
  refine List.lookup_eq_some_iff.2 ⟨earlier, later, heq, fun p hp => ?_⟩
  have hnodup := nodup_registrations declarations
  rw [heq, List.map_append, List.map_cons] at hnodup
  have hne := (List.nodup_append.1 hnodup).2.2 p.1 (List.mem_map_of_mem hp) id List.mem_cons_self
  simpa using hne.symm

/-- What follows a job's id makes its path none of the reserved ones. -/
private theorem append_notMem_reservedIds {id tail : Str} (hreserved : id ∉ reservedIds)
    (htail : Regex.Leaves (· ≠ '/') tail) :
    id ++ tail ∉ reservedIds := by
  cases tail with
  | nil =>
    rw [List.append_nil]
    exact hreserved
  | cons c tail =>
    have hslash : c = '/' := by simpa using htail c rfl
    have hnone : ∀ s ∈ reservedIds, '/' ∉ s := by decide
    intro hmem
    refine hnone _ hmem ?_
    rw [hslash]
    exact List.mem_append_right id List.mem_cons_self

/-- `GET /jobs/{job_id}` without an id is no request for a job, and with a reserved id it is another one. -/
private theorem not_addressable (jobs : List (Str × J)) {id : Str} (job : J) (h : id = [] ∨ id ∈ reservedIds) :
    ¬ Addressable jobs id job := by
  intro haddressable
  have hroute : Route.ofJob .get [] .getJob ∈ jobsRoutes := by
    rw [jobsRoutes_eq]
    exact List.mem_append_right _ (List.mem_map.2 ⟨(.get, [], .getJob), List.mem_cons_self, rfl⟩)
  obtain ⟨hdispatch, -⟩ := haddressable .get [] .getJob hroute [] [] rfl (fun _ => false) rfl
  rw [requestPath_encode rfl, List.append_nil] at hdispatch
  simp only [reservedIds, List.mem_cons, List.not_mem_nil, or_false] at h
  rcases h with rfl | rfl | rfl | rfl | rfl <;> revert hdispatch <;> decide

/-- The ids of the registered jobs are distinct, and a job is addressable exactly when its id is not empty (the name
of a class without a name) and its path is not that of another route. -/
theorem jobs_addressable_iff (declarations : List (JobDeclaration J)) :
    ((registrations declarations).map Prod.fst).Nodup ∧ ∀ id job, (id, job) ∈ registrations declarations →
      (Addressable (registrations declarations) id job ↔ id ≠ [] ∧ id ∉ reservedIds) := by
  refine ⟨nodup_registrations declarations, fun id job hmem => ⟨fun h => ⟨fun hnone => ?_, fun hreserved => ?_⟩, ?_⟩⟩
  · exact not_addressable _ job (.inl hnone) h
  · exact not_addressable _ job (.inr hreserved) h
  · rintro ⟨hne, hreserved⟩ method rest handler hroute values tail hfill keep hkeep
    have hr := mem_jobRoutes hroute
    have hslash : '/' ∉ id := fun hc => safe_registrations declarations _ hmem '/' hc (by decide)
    have htail := fillPath_leaves hr hfill
    dsimp only
    rw [requestPath_encode hkeep, jobIdParam_path hslash htail]
    refine ⟨?_, lookup_registrations hmem⟩
    rw [jobsDispatch_job hne hslash htail (append_notMem_reservedIds hreserved htail)]
    exact jobRoute?_fillPath hr hfill

/-- A job named `stats` gets the id `stats`, and `GET /jobs/stats` is the statistics. -/
theorem stats_shadowed : ∃ declarations : List (JobDeclaration Unit),
    ("stats".toList, ()) ∈ registrations declarations ∧
    jobsDispatch .get (jobsPrefix ++ "/stats".toList) = some .getStats ∧
    ¬ Addressable (registrations declarations) "stats".toList () := by
  refine ⟨[⟨none, "stats".toList, "StatsJob".toList, ()⟩], ?_, by decide, not_addressable _ () (.inr (by decide))⟩
  exact List.mem_singleton.2 rfl

end CliServer
