import CliServer.Jobs.Registration
import CliServer.Server.Router

/-!
# Route protection

`http_permission`, the permission the middleware asks for before a request reaches the router, and its comparison with
the routes.  The rules read a path with `.`, which no newline matches, and path parameters take newlines.  So a job
route with a newline in it is open to every authenticated user (`newline_unprotected`); `http_permission_iff` says that
this, and a custom base path that another rule claims, that is not kept as it is or that has path parameters, which the
middleware takes for their texts, are the only gaps.
-/

namespace CliServer

structure Rule where
  pattern : Regex Char
  methods : Option (List Method)
  permission : Str

/-- `^/api/(v1/)?qcli/`, and what follows. -/
def underApi (r : Regex Char) : Regex Char :=
  .cat (.lit "/api/".toList) (.cat (.opt (.lit "v1/".toList)) (.cat (.lit "qcli/".toList) r))

/-- `.`. -/
def dot : Regex Char := .set (· ≠ '\n')

/-- `(/.*)?` after a text. -/
def subtree (s : Str) : Regex Char := .cat (.lit s) (.opt (.cat (.char '/') (.star dot)))

/-- `/?` after an expression. -/
def slashed (r : Regex Char) : Regex Char := .cat r (.opt (.char '/'))

/-- `/execute(/stream)?/?` after a text. -/
def executeRe (s : Str) : Regex Char :=
  .cat (.lit s) (.cat (.lit "execute".toList) (slashed (.opt (.lit "/stream".toList))))

def filesReadRe : Regex Char :=
  underApi (.cat (.lit "fs/".toList) (slashed (.alt (.lit "ls".toList) (.alt (.lit "cat".toList)
    (.alt (.lit "stat".toList) (.lit "download".toList))))))

def filesRe : Regex Char := underApi (subtree "fs".toList)

def dataExplorerRe : Regex Char := underApi (subtree "data-explorer".toList)

def jobsRe : Regex Char := underApi (subtree "jobs".toList)

def auditRe : Regex Char := slashed (.lit "/api/v1/qcli/audit".toList)

def commandsRe : Regex Char := underApi (executeRe [])

def mcpRe : Regex Char := slashed (.lit "/api/qcli/mcp".toList)

/-- `HTTP_RULES`. -/
def httpRules : List Rule :=
  [⟨filesReadRe, none, "files:read".toList⟩,
    ⟨filesRe, none, "files:write".toList⟩,
    ⟨dataExplorerRe, none, "data:query".toList⟩,
    ⟨jobsRe, some [.get, .head], "jobs:read".toList⟩,
    ⟨jobsRe, none, "jobs:manage".toList⟩,
    ⟨auditRe, some [.get, .head], "audit:read".toList⟩,
    ⟨auditRe, none, "audit:clear".toList⟩,
    ⟨commandsRe, none, "commands:execute".toList⟩,
    ⟨mcpRe, none, "commands:execute".toList⟩]

def Rule.applies (rule : Rule) (path : Str) (method : Method) : Bool :=
  Regex.acceptsLine '\n' rule.pattern path && rule.methods.all fun methods => method ∈ methods

/-- `http_permission`. -/
def httpPermission (path : Str) (method : Method) (basePaths : List Str) : Option Str :=
  match httpRules.find? (·.applies path method) with
  | some rule => some rule.permission
  | none =>
    if basePaths.any fun base => Regex.acceptsLine '\n' (executeRe (base ++ ['/'])) path then
      some "commands:execute".toList
    else none

/-- `_normalize_base`. -/
def normalizeBase (path : Str) : Str := '/' :: stripSlashes (strip path)

/-- The base paths the users plugin gives the middleware. -/
def basePathsOf (basePath : Str) : List Str :=
  if stripSlashes basePath ≠ [] then [normalizeBase basePath] else []

/-- The permission documented for a handler. -/
def Handler.permission : Handler → Str
  | .executeCommand | .executeStream | .mcpGet | .mcpDelete | .mcpPost => "commands:execute".toList
  | .listDirectory | .readFile | .statPath | .downloadFile => "files:read".toList
  | .uploadFile | .makeDirectory | .removePath => "files:write".toList
  | .getSources | .execute | .getSchema => "data:query".toList
  | .listEntries => "audit:read".toList
  | .clearEntries => "audit:clear".toList
  | .listJobs | .listExecutions | .getStats | .getJob | .getHistory | .getExecution => "jobs:read".toList
  | .triggerJob | .pauseJob | .resumeJob | .stopJob | .cancelJob | .updateJob | .deleteExecution
  | .deleteExecutions => "jobs:manage".toList

/-! ### The gaps -/

/-- Whether the rule for the execution of commands matches. -/
def executePath (path : Str) : Bool := Regex.acceptsLine '\n' commandsRe path

/-- Whether a rule for the file system, the data explorer or the jobs API matches. -/
def shadowed (path : Str) : Bool :=
  [filesRe, dataExplorerRe, jobsRe].any fun re => Regex.acceptsLine '\n' re path

/-- The paths of the execution of commands under a base path. -/
def OnBase (b p : Str) : Prop :=
  ∃ x ∈ ["/execute".toList, "/execute/stream".toList], p = b ++ x ∨ p = b ++ x ++ ['\n']

/-- The requests that are asked for the documented permission: those without a newline in the path (but at its end),
and for the execution of commands under a custom base path, those whose path goes on from the base path as the
middleware has it and which no rule for something else matches. -/
def Covered (basePath path : Str) : Handler → Prop
  | .executeCommand | .executeStream =>
    shadowed path = false ∧ (executePath path = true ∨ ∃ base ∈ basePathsOf basePath, OnBase base path)
  | _ => '\n' ∉ path.dropLast

/-! ### The standard routes -/

/-- The rules alone. -/
def ruleFor (path : Str) (method : Method) : Option Str :=
  (httpRules.find? (·.applies path method)).map Rule.permission

private theorem httpPermission_of_rule {path perm : Str} {method : Method} {basePaths : List Str}
    (h : ruleFor path method = some perm) : httpPermission path method basePaths = some perm := by
  obtain ⟨rule, hrule, rfl⟩ := Option.map_eq_some_iff.1 h
  rw [httpPermission, hrule]

private theorem httpPermission_of_none {path : Str} {method : Method} {basePaths : List Str}
    (h : ruleFor path method = none) : httpPermission path method basePaths =
      if basePaths.any fun base => Regex.acceptsLine '\n' (executeRe (base ++ ['/'])) path then
        some "commands:execute".toList else none := by
  rw [httpPermission, Option.map_eq_none_iff.1 h]

/-- The permission for a method of the jobs API. -/
def jobsPermission (method : Method) : Str :=
  if method ∈ [.get, .head] then "jobs:read".toList else "jobs:manage".toList

def Handler.executes (h : Handler) : Bool := h = .executeCommand ∨ h = .executeStream

/-- What is checked of each standard route: the rules give a fixed path its handler's permission, with a newline at the
end or not, and the other routes are those of one job. -/
def Route.checked (r : Route) : Bool :=
  match r.path with
  | [.text s] => [s, s ++ ['\n']].all fun p =>
      ruleFor p r.method = some r.handler.permission &&
        if r.handler.executes then executePath p && !shadowed p else '\n' ∉ p.dropLast
  | .text s :: .param :: _ =>
    s = jobsPrefix ++ ['/'] && r.handler.permission = jobsPermission r.method && !r.handler.executes
  | _ => false

/-- The routes that do not depend on the base path. -/
def standardRoutes : List Route :=
  cliRoutes [.text "/api/v1/qcli".toList] ++ filesystemRoutes ++ dataExplorerRoutes ++ mcpRoutes ++ jobsRoutes ++
    auditRoutes

private theorem checked_standard : ∀ r ∈ standardRoutes, r.checked = true := by decide +kernel

private theorem mem_routes {basePath : BasePath} {r : Route} (h : r ∈ routes basePath) :
    r ∈ standardRoutes ∨ r ∈ cliRoutes (basePath.parts.map BasePart.part) := by
  simp only [routes, List.mem_append] at h
  have hstandard : ∀ l ∈ [cliRoutes [.text "/api/v1/qcli".toList], filesystemRoutes, dataExplorerRoutes, mcpRoutes,
      jobsRoutes, auditRoutes], r ∈ l → r ∈ standardRoutes := by
    intro l hl hr
    simp only [standardRoutes, List.mem_append]
    simp only [List.mem_cons, List.not_mem_nil, or_false] at hl
    rcases hl with rfl | rfl | rfl | rfl | rfl | rfl <;> simp only [hr, true_or, or_true]
  rcases h with (((((h | h) | h) | h) | h) | h) | h
  · exact .inl (hstandard _ (by simp) h)
  · by_cases hv1 : basePath.path = "/api/v1/qcli".toList
    · rw [if_neg (not_not_intro hv1)] at h
      exact absurd h List.not_mem_nil
    · rw [if_pos hv1] at h
      exact .inr h
  · exact .inl (hstandard _ (by simp) h)
  · exact .inl (hstandard _ (by simp) h)
  · exact .inl (hstandard _ (by simp) h)
  · exact .inl (hstandard _ (by simp) h)
  · exact .inl (hstandard _ (by simp) h)

/-- The rules after a first part of the path. -/
def rulesAfter (u : Str) : List Rule :=
  httpRules.map fun rule => ⟨rule.pattern.derivs u, rule.methods, rule.permission⟩

private theorem ruleFor_append (u : Str) {w : Str} (hw : w ≠ []) (method : Method) :
    ruleFor (u ++ w) method = ((rulesAfter u).find? (·.applies w method)).map Rule.permission := by
  have happlies : (fun rule : Rule => rule.applies w method) ∘
      (fun rule : Rule => ⟨rule.pattern.derivs u, rule.methods, rule.permission⟩) =
        fun rule : Rule => rule.applies (u ++ w) method := by
    funext rule
    simp only [Function.comp_apply, Rule.applies, Regex.acceptsLine_append rule.pattern u hw]
  rw [rulesAfter, List.find?_map, happlies, Option.map_map, ruleFor]
  rfl

/-- A path of one job has the permission of its method, unless a newline stands in it before its last character. -/
private theorem ruleFor_job {w : Str} (hw : w ≠ []) (method : Method) :
    ruleFor (jobsPrefix ++ ['/'] ++ w) method =
      if '\n' ∈ w.dropLast then none else some (jobsPermission method) := by
  have hrules : rulesAfter (jobsPrefix ++ ['/']) =
      [⟨.empty, none, "files:read".toList⟩, ⟨.empty, none, "files:write".toList⟩,
        ⟨.empty, none, "data:query".toList⟩,
        ⟨.star dot, some [.get, .head], "jobs:read".toList⟩, ⟨.star dot, none, "jobs:manage".toList⟩,
        ⟨.empty, some [.get, .head], "audit:read".toList⟩, ⟨.empty, none, "audit:clear".toList⟩,
        ⟨.empty, none, "commands:execute".toList⟩, ⟨.empty, none, "commands:execute".toList⟩] := rfl
  have hline : Regex.acceptsLine '\n' (.star dot) w = true ↔ '\n' ∉ w.dropLast := Regex.acceptsLine_star_ne hw
  rw [ruleFor_append _ hw, hrules]
  by_cases hnl : '\n' ∈ w.dropLast
  · have hno : Regex.acceptsLine '\n' (.star dot) w = false := Bool.eq_false_iff.2 fun h => hline.1 h hnl
    simp [Rule.applies, hno, hnl]
  · have hyes := hline.2 hnl
    by_cases hm : method ∈ [Method.get, Method.head]
    · simp [Rule.applies, hyes, hnl, hm, jobsPermission]
    · simp [Rule.applies, hyes, hnl, hm, jobsPermission]

private theorem httpPermission_job {w : Str} (hw : w ≠ []) (method : Method) (basePaths : List Str) :
    httpPermission (jobsPrefix ++ ['/'] ++ w) method basePaths = some (jobsPermission method) ↔
      '\n' ∉ (jobsPrefix ++ ['/'] ++ w).dropLast := by
  have hdrop : '\n' ∈ (jobsPrefix ++ ['/'] ++ w).dropLast ↔ '\n' ∈ w.dropLast := by
    rw [List.dropLast_append_of_ne_nil hw, List.mem_append]
    exact or_iff_right (by decide)
  have hrule := ruleFor_job hw method
  by_cases hnl : '\n' ∈ w.dropLast
  · rw [if_pos hnl] at hrule
    rw [httpPermission_of_none hrule]
    have hne : jobsPermission method ≠ "commands:execute".toList := by
      unfold jobsPermission
      split
      · decide
      · decide
    refine iff_of_false ?_ (not_not_intro (hdrop.2 hnl))
    split
    · exact fun h => hne (Option.some.inj h).symm
    · exact fun h => nomatch h
  · rw [if_neg hnl] at hrule
    exact iff_of_true (httpPermission_of_rule hrule) (mt hdrop.1 hnl)

/-! ### A custom base path -/

private theorem mem_lang_slashed {r : Regex Char} {w : Str} :
    w ∈ (slashed r).lang ↔ ∃ v ∈ r.lang, w = v ∨ w = v ++ ['/'] := by
  simp only [slashed, Regex.opt, Regex.char, Regex.mem_lang_cat, Regex.mem_lang_alt, Regex.mem_lang_eps,
    Regex.mem_lang_set, decide_eq_true_eq]
  constructor
  · rintro ⟨v, hv, z, rfl | ⟨c, rfl, rfl⟩, rfl⟩
    · exact ⟨v, hv, .inl (List.append_nil v)⟩
    · exact ⟨v, hv, .inr rfl⟩
  · rintro ⟨v, hv, rfl | rfl⟩
    · exact ⟨w, hv, [], .inl rfl, List.append_nil w⟩
    · exact ⟨v, hv, ['/'], .inr ⟨'/', rfl, rfl⟩, rfl⟩

private theorem mem_lang_executeRe {s w : Str} : w ∈ (executeRe s).lang ↔
    ∃ y ∈ ["execute".toList, "execute/stream".toList], w = s ++ y ∨ w = s ++ y ++ ['/'] := by
  have hstream : ∀ v, v ∈ (Regex.opt (.lit "/stream".toList)).lang ↔ v = [] ∨ v = "/stream".toList := by
    intro v
    rw [Regex.opt, Regex.mem_lang_alt, Regex.mem_lang_eps, Regex.mem_lang_lit]
  simp only [executeRe, Regex.mem_lang_cat, Regex.mem_lang_lit, mem_lang_slashed, hstream]
  constructor
  · rintro ⟨_, rfl, _, ⟨_, rfl, z, ⟨v, rfl | rfl, hz⟩, rfl⟩, rfl⟩
    · exact ⟨_, List.mem_cons_self, by simpa using hz.imp (· ▸ by simp) (· ▸ by simp)⟩
    · exact ⟨_, List.mem_cons_of_mem _ List.mem_cons_self, by simpa using hz.imp (· ▸ by simp) (· ▸ by simp)⟩
  · rintro ⟨y, hy, hw⟩
    have hy : ∃ v, (v = [] ∨ v = "/stream".toList) ∧ y = "execute".toList ++ v := by
      simp only [List.mem_cons, List.not_mem_nil, or_false] at hy
      rcases hy with rfl | rfl
      · exact ⟨[], .inl rfl, rfl⟩
      · exact ⟨"/stream".toList, .inr rfl, rfl⟩
    obtain ⟨v, hv, rfl⟩ := hy
    rcases hw with rfl | rfl
    · exact ⟨s, rfl, _, ⟨_, rfl, v, ⟨v, hv, .inl rfl⟩, rfl⟩, rfl⟩
    · exact ⟨s, rfl, _, ⟨_, rfl, v ++ ['/'], ⟨v, hv, .inr rfl⟩, rfl⟩, by simp⟩

/-- All words of an expression end in one of some characters. -/
def EndsIn (cs : List Char) (r : Regex Char) : Prop := ∀ w ∈ r.lang, ∃ c ∈ cs, w.getLast? = some c

theorem EndsIn.lit {cs : List Char} {s : Str} (h : ∃ c ∈ cs, s.getLast? = some c) : EndsIn cs (.lit s) := by
  intro w hw
  rwa [Regex.mem_lang_lit.1 hw]

theorem EndsIn.alt {cs : List Char} {r r' : Regex Char} (h : EndsIn cs r) (h' : EndsIn cs r') :
    EndsIn cs (.alt r r') := by
  intro w hw
  rcases Regex.mem_lang_alt.1 hw with hw | hw
  · exact h w hw
  · exact h' w hw

theorem EndsIn.cat {cs : List Char} {r r' : Regex Char} (h : EndsIn cs r') : EndsIn cs (.cat r r') := by
  intro w hw
  obtain ⟨u, -, v, hv, rfl⟩ := Regex.mem_lang_cat.1 hw
  obtain ⟨c, hc, hlast⟩ := h v hv
  have hne : v ≠ [] := by
    rintro rfl
    cases hlast
  exact ⟨c, hc, by rw [List.getLast?_append_of_ne_nil u hne, hlast]⟩

private theorem EndsIn.slashed {cs : List Char} {r : Regex Char} (h : EndsIn cs r) (hslash : '/' ∈ cs) :
    EndsIn cs (slashed r) := by
  intro w hw
  obtain ⟨v, hv, rfl | rfl⟩ := mem_lang_slashed.1 hw
  · exact h w hv
  · exact ⟨'/', hslash, by simp⟩

/-- A rule whose paths end in other characters does not apply. -/
private theorem not_acceptsLine_of_endsIn {cs : List Char} {r : Regex Char} {p : Str} (h : EndsIn cs r)
    (hnl : '\n' ∉ cs)
    (hp : ∀ c ∈ cs, (Regex.chomp '\n' p).getLast? ≠ some c) : Regex.acceptsLine '\n' r p = false := by
  have hno : ∀ v ∈ r.lang, v.getLast? ≠ some '\n' := by
    intro v hv hlast
    obtain ⟨c, hc, hvc⟩ := h v hv
    rw [hlast] at hvc
    exact hnl (Option.some.inj hvc ▸ hc)
  rw [Regex.acceptsLine_eq_chomp hno, Bool.eq_false_iff, ne_eq, Regex.accepts_iff]
  intro hmem
  obtain ⟨c, hc, hlast⟩ := h _ hmem
  exact hp c hc hlast

private theorem chomp_onBase {b p : Str} (h : OnBase b p) :
    ∃ x ∈ ["/execute".toList, "/execute/stream".toList], Regex.chomp '\n' p = b ++ x := by
  obtain ⟨x, hx, hp⟩ := h
  refine ⟨x, hx, ?_⟩
  have hlast : (b ++ x).getLast? ≠ some '\n' := by
    simp only [List.mem_cons, List.not_mem_nil, or_false] at hx
    rcases hx with rfl | rfl
    · rw [List.getLast?_append_of_ne_nil b (by decide)]
      decide
    · rw [List.getLast?_append_of_ne_nil b (by decide)]
      decide
  rcases hp with rfl | rfl
  · exact if_neg hlast
  · rw [Regex.chomp, if_pos List.getLast?_concat, List.dropLast_concat]

/-- The rule for a base path matches the paths under that base path only. -/
private theorem acceptsLine_base {b base p : Str} (h : OnBase b p) :
    Regex.acceptsLine '\n' (executeRe (base ++ ['/'])) p = true ↔ base = b := by
  have hends : EndsIn ['e', 'm', '/'] (executeRe (base ++ ['/'])) := by
    intro w hw
    obtain ⟨y, hy, rfl | rfl⟩ := mem_lang_executeRe.1 hw
    · have hlast : ∃ c ∈ ['e', 'm', '/'], y.getLast? = some c ∧ y ≠ [] := by
        simp only [List.mem_cons, List.not_mem_nil, or_false] at hy
        rcases hy with rfl | rfl
        · exact ⟨'e', by decide, by decide, by decide⟩
        · exact ⟨'m', by decide, by decide, by decide⟩
      obtain ⟨c, hc, hlast, hne⟩ := hlast
      exact ⟨c, hc, by rw [List.getLast?_append_of_ne_nil _ hne, hlast]⟩
    · exact ⟨'/', by decide, List.getLast?_concat⟩
  have hnl : ∀ v ∈ (executeRe (base ++ ['/'])).lang, v.getLast? ≠ some '\n' := by
    intro v hv hlast
    obtain ⟨c, hc, hvc⟩ := hends v hv
    rw [hlast] at hvc
    exact absurd (Option.some.inj hvc ▸ hc) (by decide)
  obtain ⟨x, hx, hchomp⟩ := chomp_onBase h
  rw [Regex.acceptsLine_eq_chomp hnl, hchomp, Regex.accepts_iff, mem_lang_executeRe]
  constructor
  · rintro ⟨y, hy, heq | heq⟩
    · have heq : b ++ x = base ++ ('/' :: y) := by simpa using heq
      have hxy : x = '/' :: y := by
        have hlen := congrArg List.getLast? heq
        simp only [List.mem_cons, List.not_mem_nil, or_false] at hx hy
        rcases hx with rfl | rfl <;> rcases hy with rfl | rfl
        · rfl
        · simp at hlen
        · simp at hlen
        · rfl
      rw [hxy] at heq
      exact (List.append_cancel_right heq).symm
    · have hlast := congrArg List.getLast? heq
      rw [List.getLast?_concat] at hlast
      simp only [List.mem_cons, List.not_mem_nil, or_false] at hx
      rcases hx with rfl | rfl
      · simp at hlast
      · simp at hlast
  · rintro rfl
    simp only [List.mem_cons, List.not_mem_nil, or_false] at hx
    rcases hx with rfl | rfl
    · exact ⟨"execute".toList, by simp, .inl (by simp)⟩
    · exact ⟨"execute/stream".toList, by simp, .inl (by simp)⟩

/-- Under a custom base path the rule for it applies when the path goes on from the base path it was given. -/
private theorem basePaths_any (basePath : Str) {b p : Str} (h : OnBase b p) :
    ((basePathsOf basePath).any fun base => Regex.acceptsLine '\n' (executeRe (base ++ ['/'])) p) = true ↔
      ∃ base ∈ basePathsOf basePath, OnBase base p := by
  rw [List.any_eq_true]
  refine exists_congr fun base => and_congr_right fun _ => ?_
  constructor
  · intro haccepts
    rw [(acceptsLine_base h).1 haccepts]
    exact h
  · intro hbase
    exact (acceptsLine_base hbase).2 rfl

private theorem ruleFor_onBase {b p : Str} (h : OnBase b p) :
    (shadowed p = true → ∃ perm, ruleFor p .post = some perm ∧ perm ≠ "commands:execute".toList) ∧
    (shadowed p = false → ruleFor p .post = if executePath p then some "commands:execute".toList else none) := by
  have hlast : ∀ c ∈ ['s', 't', 'd', 'p', '/'], (Regex.chomp '\n' p).getLast? ≠ some c := by
    obtain ⟨x, hx, hchomp⟩ := chomp_onBase h
    rw [hchomp]
    simp only [List.mem_cons, List.not_mem_nil, or_false] at hx
    rcases hx with rfl | rfl
    · rw [List.getLast?_append_of_ne_nil b (by decide)]
      simp
    · rw [List.getLast?_append_of_ne_nil b (by decide)]
      simp
  have hread : Regex.acceptsLine '\n' filesReadRe p = false := by
    refine not_acceptsLine_of_endsIn ?_ (by decide) hlast
    refine .cat (.cat (.cat (.cat (.slashed ?_ (by decide)))))
    exact .alt (.lit (by simp)) (.alt (.lit (by simp)) (.alt (.lit (by simp)) (.lit (by simp))))
  have haudit : Regex.acceptsLine '\n' auditRe p = false :=
    not_acceptsLine_of_endsIn (.slashed (.lit (by simp)) (by decide)) (by decide) hlast
  have hmcp : Regex.acceptsLine '\n' mcpRe p = false :=
    not_acceptsLine_of_endsIn (.slashed (.lit (by simp)) (by decide)) (by decide) hlast
  have hget : (Method.post ∈ [Method.get, Method.head]) = False := by simp
  simp only [shadowed, executePath, ruleFor, httpRules, Rule.applies, List.any_cons, List.any_nil, List.find?_cons,
    Option.all_none, Option.all_some, hread, haudit, hmcp, hget]
  by_cases hfs : Regex.acceptsLine '\n' filesRe p = true
  · simp only [hfs]
    exact ⟨fun _ => ⟨_, rfl, by decide⟩, fun h => nomatch h⟩
  by_cases hdata : Regex.acceptsLine '\n' dataExplorerRe p = true
  · simp only [hfs, hdata]
    exact ⟨fun _ => ⟨_, rfl, by decide⟩, fun h => nomatch h⟩
  by_cases hjobs : Regex.acceptsLine '\n' jobsRe p = true
  · simp only [hfs, hdata, hjobs]
    exact ⟨fun _ => ⟨_, rfl, by decide⟩, fun h => nomatch h⟩
  by_cases hexec : Regex.acceptsLine '\n' commandsRe p = true
  · simp only [hfs, hdata, hjobs, hexec]
    exact ⟨fun h => (nomatch h), fun _ => rfl⟩
  · simp only [hfs, hdata, hjobs, hexec]
    exact ⟨fun h => (nomatch h), fun _ => rfl⟩

/-- A request under a custom base path. -/
private theorem httpPermission_onBase (basePath : Str) {b p : Str} (h : OnBase b p) :
    httpPermission p .post (basePathsOf basePath) = some "commands:execute".toList ↔
      shadowed p = false ∧ (executePath p = true ∨ ∃ base ∈ basePathsOf basePath, OnBase base p) := by
  obtain ⟨hshadowed, hfree⟩ := ruleFor_onBase h
  by_cases hs : shadowed p = true
  · obtain ⟨perm, hperm, hne⟩ := hshadowed hs
    rw [httpPermission_of_rule hperm]
    simp only [Option.some.injEq, hs, Bool.true_eq_false, false_and, iff_false]
    exact hne
  · have hs : shadowed p = false := by simpa using hs
    have hrule := hfree hs
    by_cases he : executePath p = true
    · rw [if_pos he] at hrule
      exact iff_of_true (httpPermission_of_rule hrule) ⟨hs, .inl he⟩
    · rw [if_neg he] at hrule
      rw [httpPermission_of_none hrule, ← basePaths_any basePath h]
      by_cases hany : ((basePathsOf basePath).any fun base =>
          Regex.acceptsLine '\n' (executeRe (base ++ ['/'])) p) = true
      · exact iff_of_true (if_pos hany) ⟨hs, .inr hany⟩
      · rw [if_neg hany]
        exact iff_of_false (fun h => nomatch h) fun h => h.2.elim he hany

/-! ### All routes -/

private theorem onBase_of_takes {pre : List Part} {p : Str} {method : Method} {r : Route} (hr : r ∈ cliRoutes pre)
    (h : r.takes method p = true) : method = .post ∧ r.handler.executes = true ∧ ∃ b, OnBase b p := by
  obtain ⟨hmethod, hpath⟩ := Bool.and_eq_true_iff.1 h
  have hmethod : r.method = method := of_decide_eq_true hmethod
  simp only [cliRoutes, List.mem_cons, List.not_mem_nil, or_false] at hr
  rcases hr with rfl | rfl
  · obtain ⟨b, hb⟩ := acceptsLine_extend hpath
    exact ⟨hmethod.symm, rfl, b, _, by simp, hb⟩
  · obtain ⟨b, hb⟩ := acceptsLine_extend hpath
    exact ⟨hmethod.symm, rfl, b, _, by simp, hb⟩

private theorem covered_of_executes {h : Handler} (basePath path : Str) (hexec : h.executes = true) :
    h.permission = "commands:execute".toList ∧ (Covered basePath path h ↔
      shadowed path = false ∧ (executePath path = true ∨ ∃ base ∈ basePathsOf basePath, OnBase base path)) := by
  rcases of_decide_eq_true hexec with rfl | rfl
  · exact ⟨rfl, Iff.rfl⟩
  · exact ⟨rfl, Iff.rfl⟩

private theorem covered_of_not_executes {h : Handler} (basePath path : Str) (hexec : h.executes = false) :
    Covered basePath path h ↔ '\n' ∉ path.dropLast := by
  cases h <;> first | exact Iff.rfl | cases hexec

/-- A request for a standard route. -/
private theorem httpPermission_standard {basePath p : Str} {method : Method} {r : Route} (hr : r ∈ standardRoutes)
    (h : r.takes method p = true) (basePaths : List Str) :
    httpPermission p method basePaths = some r.handler.permission ↔ Covered basePath p r.handler := by
  obtain ⟨hmethod, hpath⟩ := Bool.and_eq_true_iff.1 h
  have hmethod : r.method = method := of_decide_eq_true hmethod
  have hchecked := checked_standard r hr
  unfold Route.checked at hchecked
  split at hchecked
  · rename_i s hs
    rw [hs] at hpath
    have hp : p ∈ [s, s ++ ['\n']] := by simpa using acceptsLine_fixed hpath
    obtain ⟨hrule, hcov⟩ := Bool.and_eq_true_iff.1 (List.all_eq_true.1 hchecked p hp)
    rw [hmethod] at hrule
    refine iff_of_true (httpPermission_of_rule (of_decide_eq_true hrule)) ?_
    by_cases hexec : r.handler.executes = true
    · rw [if_pos hexec, Bool.and_eq_true_iff, Bool.not_eq_true'] at hcov
      exact (covered_of_executes basePath p hexec).2.2 ⟨hcov.2, .inl hcov.1⟩
    · have hexec : r.handler.executes = false := by simpa using hexec
      rw [hexec] at hcov
      exact (covered_of_not_executes basePath p hexec).2 (of_decide_eq_true hcov)
  · rename_i s rest hs
    rw [hs] at hpath
    simp only [Bool.and_eq_true, decide_eq_true_eq, Bool.not_eq_true'] at hchecked
    obtain ⟨⟨rfl, hperm⟩, hexec⟩ := hchecked
    obtain ⟨v, hv, rfl⟩ : ∃ v, v ≠ [] ∧ p = jobsPrefix ++ ['/'] ++ v := by
      obtain ⟨w, hw, hp⟩ := acceptsLine_text hpath
      have hne : w ≠ [] := by
        obtain ⟨u, hu, x, -, rfl⟩ := Regex.mem_lang_cat.1 hw
        exact fun h => (Regex.mem_lang_plus_set.1 hu).1 (List.append_eq_nil_iff.1 h).1
      rcases hp with rfl | rfl
      · exact ⟨w, hne, rfl⟩
      · exact ⟨w ++ ['\n'], by simp, List.append_assoc _ _ _⟩
    rw [covered_of_not_executes basePath _ hexec, hperm, hmethod]
    exact httpPermission_job hv method basePaths
  · cases hchecked

/-- The router's requests to the jobs API, the file system, the data explorer, the audit log, the execution of commands
and MCP are asked for the documented permission exactly when they are covered. -/
theorem http_permission_iff {basePath : BasePath} {method : Method} {path : Str} {h : Handler}
    (hd : dispatch basePath method path = some h) :
    httpPermission path method (basePathsOf basePath.path) = some h.permission ↔ Covered basePath.path path h := by
  obtain ⟨r, hfind, rfl⟩ := Option.map_eq_some_iff.1 hd
  have htakes := List.find?_some hfind
  rcases mem_routes (List.mem_of_find?_eq_some hfind) with hr | hr
  · exact httpPermission_standard hr htakes _
  · obtain ⟨rfl, hexec, b, hbase⟩ := onBase_of_takes hr htakes
    obtain ⟨hperm, hcovered⟩ := covered_of_executes basePath.path path hexec
    rw [hperm, hcovered]
    exact httpPermission_onBase basePath.path hbase

theorem http_permission_iff_trigger :
    let path := "/api/v1/qcli/jobs/backup/trigger".toList
    httpPermission path .post (basePathsOf BasePath.default.path) = some Handler.triggerJob.permission ↔
      Covered BasePath.default.path path .triggerJob :=
  http_permission_iff (by decide)

/-- A job can have an id with a newline; every authenticated user may trigger it. -/
theorem newline_unprotected :
    let path := "/api/v1/qcli/jobs/a\nb/trigger".toList
    registerId [] (some "a\nb".toList) "Backup".toList = .ok "a\nb".toList ∧
    dispatch BasePath.default .post path = some .triggerJob ∧
    Handler.triggerJob.permission = "jobs:manage".toList ∧
    httpPermission path .post (basePathsOf BasePath.default.path) = none := by
  decide +kernel

end CliServer
