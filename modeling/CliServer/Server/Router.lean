import CliServer.Lib.Regex
import CliServer.Text

/-!
# The router

The routes of the jobs API, the file system, the data explorer, the audit log, the execution of commands and MCP, in the
order in which they are added, and the router's choice of a handler: the first route with the request's method whose
path matches.  A path parameter is any text without `/` that is not empty; a base path may have parameters with other
convertors as well.
-/

namespace CliServer

inductive Method where
  | get | head | post | put | delete
  | other (name : Str)
  deriving DecidableEq

inductive Handler where
  | executeCommand | executeStream
  | listDirectory | readFile | statPath | downloadFile | uploadFile | makeDirectory | removePath
  | getSources | execute | getSchema
  | mcpGet | mcpDelete | mcpPost
  | listEntries | clearEntries
  | listJobs | listExecutions | getStats | getJob | triggerJob | pauseJob | resumeJob | stopJob | cancelJob | updateJob
  | getHistory | getExecution | deleteExecution | deleteExecutions
  deriving DecidableEq

/-- The convertor of a path parameter. -/
inductive Convertor where
  | str | path | int | float | uuid
  deriving DecidableEq

/-- The pattern of a convertor. -/
def Convertor.regex : Convertor → Regex Char
  | .str => .plus (.set (· ≠ '/'))
  | .path => .star (.set (· ≠ '\n'))
  | .int => .plus (.set Char.isDigit)
  | .float => .cat (.plus (.set Char.isDigit)) (.opt (.cat (.char '.') (.plus (.set Char.isDigit))))
  | .uuid =>
    let hex := fun n => Regex.times (.set fun c => c.isDigit || c ∈ "abcdefABCDEF".toList) 0 n
    let dash := Regex.opt (.char '-')
    .cat (hex 8) (.cat dash (.cat (hex 4) (.cat dash (.cat (hex 4) (.cat dash (.cat (hex 4) (.cat dash (hex 12))))))))

/-- The name of a convertor in a path. -/
def Convertor.name : Convertor → Str
  | .str => "str".toList
  | .path => "path".toList
  | .int => "int".toList
  | .float => "float".toList
  | .uuid => "uuid".toList

/-- A part of a route's path. -/
inductive Part where
  | text (s : Str)
  | param
  | converted (c : Convertor)

structure Route where
  method : Method
  path : List Part
  handler : Handler

/-- The pattern a path is compiled to. -/
def compilePath : List Part → Regex Char
  | [] => .eps
  | .text s :: ps => .cat (.lit s) (compilePath ps)
  | .param :: ps => .cat (.plus (.set (· ≠ '/'))) (compilePath ps)
  | .converted c :: ps => .cat c.regex (compilePath ps)

/-- A part of a base path: a text, or a parameter, with the name and the convertor it is written with. -/
inductive BasePart where
  | text (s : Str)
  | param (name : Str) (convertor : Option Convertor)

/-- How a part is written. -/
def BasePart.source : BasePart → Str
  | .text s => s
  | .param name none => '{' :: name ++ ['}']
  | .param name (some c) => '{' :: name ++ ':' :: c.name ++ ['}']

/-- What a part is compiled to. -/
def BasePart.part : BasePart → Part
  | .text s => .text s
  | .param _ none => .param
  | .param _ (some c) => .converted c

/-- `base_path`, in the parts that the router reads in it, which may be path parameters. -/
structure BasePath where
  parts : List BasePart
  /-- It starts with `/` and does not end with it, or is empty. -/
  valid : parts.flatMap BasePart.source = [] ∨ (parts.flatMap BasePart.source).head? = some '/' ∧
    (parts.flatMap BasePart.source).getLast? ≠ some '/'

/-- The base path as it is written. -/
def BasePath.path (basePath : BasePath) : Str := basePath.parts.flatMap BasePart.source

def BasePath.default : BasePath where
  parts := [.text "/api/qcli".toList]
  valid := by decide

/-! ### The routes -/

/-- A route without path parameters. -/
def Route.fixed (method : Method) (path : Str) (handler : Handler) : Route := ⟨method, [.text path], handler⟩

/-- The parts of a path with a text at its end. -/
def extend (s : Str) : List Part → List Part
  | [] => [.text s]
  | [.text t] => [.text (t ++ s)]
  | part :: parts => part :: extend s parts

/-- `create_cli_router`, included under a prefix. -/
def cliRoutes (pre : List Part) : List Route :=
  [⟨.post, extend "/execute".toList pre, .executeCommand⟩,
    ⟨.post, extend "/execute/stream".toList pre, .executeStream⟩]

/-- `create_filesystem_router`. -/
def filesystemRoutes : List Route :=
  [.fixed .get "/api/qcli/fs/ls".toList .listDirectory,
    .fixed .get "/api/qcli/fs/cat".toList .readFile,
    .fixed .get "/api/qcli/fs/stat".toList .statPath,
    .fixed .get "/api/qcli/fs/download".toList .downloadFile,
    .fixed .post "/api/qcli/fs/upload".toList .uploadFile,
    .fixed .post "/api/qcli/fs/mkdir".toList .makeDirectory,
    .fixed .delete "/api/qcli/fs/rm".toList .removePath]

/-- `create_data_explorer_router`. -/
def dataExplorerRoutes : List Route :=
  [.fixed .get "/api/qcli/data-explorer/sources".toList .getSources,
    .fixed .post "/api/qcli/data-explorer/execute".toList .execute,
    .fixed .get "/api/qcli/data-explorer/schema".toList .getSchema]

/-- `create_mcp_router`. -/
def mcpRoutes : List Route :=
  [.fixed .get "/api/qcli/mcp".toList .mcpGet,
    .fixed .delete "/api/qcli/mcp".toList .mcpDelete,
    .fixed .post "/api/qcli/mcp".toList .mcpPost]

/-- `create_audit_router`. -/
def auditRoutes : List Route :=
  [.fixed .get "/api/v1/qcli/audit".toList .listEntries,
    .fixed .delete "/api/v1/qcli/audit".toList .clearEntries,
    .fixed .get "/api/v1/qcli/audit/".toList .listEntries,
    .fixed .delete "/api/v1/qcli/audit/".toList .clearEntries]

/-- The prefix of the jobs plugin. -/
def jobsPrefix : Str := "/api/v1/qcli/jobs".toList

/-- A route of one job: `/{job_id}` and what follows. -/
def Route.ofJob (method : Method) (rest : List Part) (handler : Handler) : Route :=
  ⟨method, .text (jobsPrefix ++ ['/']) :: .param :: rest, handler⟩

/-- `create_cli_jobs_router`. -/
def jobsRoutes : List Route :=
  [.fixed .get jobsPrefix .listJobs,
    .fixed .get (jobsPrefix ++ "/executions".toList) .listExecutions,
    .fixed .get (jobsPrefix ++ "/stats".toList) .getStats,
    .ofJob .get [] .getJob,
    .ofJob .post [.text "/trigger".toList] .triggerJob,
    .ofJob .post [.text "/pause".toList] .pauseJob,
    .ofJob .post [.text "/resume".toList] .resumeJob,
    .ofJob .post [.text "/stop".toList] .stopJob,
    .ofJob .post [.text "/cancel".toList] .cancelJob,
    .ofJob .put [] .updateJob,
    .ofJob .get [.text "/history".toList] .getHistory,
    .ofJob .get [.text "/history/".toList, .param] .getExecution,
    .ofJob .delete [.text "/history/".toList, .param] .deleteExecution,
    .ofJob .delete [.text "/history".toList] .deleteExecutions]

/-- `create_cli_server`, and the plugins mounted after it. -/
def routes (basePath : BasePath) : List Route :=
  let v1 := "/api/v1/qcli".toList
  cliRoutes [.text v1] ++ (if basePath.path ≠ v1 then cliRoutes (basePath.parts.map BasePart.part) else []) ++
    filesystemRoutes ++ dataExplorerRoutes ++ mcpRoutes ++ jobsRoutes ++ auditRoutes

/-- Whether a route takes a request. -/
def Route.takes (r : Route) (method : Method) (path : Str) : Bool :=
  r.method = method && Regex.acceptsLine '\n' (compilePath r.path) path

/-- The handler of a request. -/
def dispatch (basePath : BasePath) (method : Method) (path : Str) : Option Handler :=
  ((routes basePath).find? (·.takes method path)).map Route.handler

/-! ### Paths of a route -/

variable {s p : Str} {parts : List Part}

/-- A path that starts with a text: the text and what the rest of the pattern matches, up to a final newline. -/
theorem acceptsLine_text (h : Regex.acceptsLine '\n' (compilePath (.text s :: parts)) p = true) :
    ∃ w ∈ (compilePath parts).lang, p = s ++ w ∨ p = s ++ w ++ ['\n'] := by
  have hlang : ∀ q, (compilePath (.text s :: parts)).accepts q = true → ∃ w ∈ (compilePath parts).lang, q = s ++ w := by
    intro q hq
    obtain ⟨u, hu, w, hw, rfl⟩ := Regex.mem_lang_cat.1 ((Regex.accepts_iff _ _).1 hq)
    exact ⟨w, hw, by rw [Regex.mem_lang_lit.1 hu]⟩
  rw [Regex.acceptsLine, Bool.or_eq_true, Bool.and_eq_true, decide_eq_true_eq] at h
  rcases h with h | ⟨hlast, h⟩
  · obtain ⟨w, hw, rfl⟩ := hlang p h
    exact ⟨w, hw, .inl rfl⟩
  · obtain ⟨w, hw, hp⟩ := hlang _ h
    refine ⟨w, hw, .inr ?_⟩
    rw [← hp]
    exact (List.dropLast_append_getLast? _ hlast).symm

/-- Whatever a path with a text at its end matches ends with the text. -/
private theorem mem_lang_extend {w : Str} (h : w ∈ (compilePath (extend s parts)).lang) : ∃ v, w = v ++ s := by
  induction parts generalizing w with
  | nil =>
    obtain ⟨u, hu, v, hv, rfl⟩ := Regex.mem_lang_cat.1 h
    obtain rfl : v = [] := hv
    exact ⟨[], by rw [Regex.mem_lang_lit.1 hu, List.append_nil, List.nil_append]⟩
  | cons part parts ih =>
    cases parts with
    | cons next parts =>
      have hrest : extend s (part :: next :: parts) = part :: extend s (next :: parts) := by cases part <;> rfl
      rw [hrest] at h
      obtain ⟨r, hr⟩ : ∃ r, compilePath (part :: extend s (next :: parts)) =
          .cat r (compilePath (extend s (next :: parts))) := by
        cases part <;> exact ⟨_, rfl⟩
      rw [hr] at h
      obtain ⟨u, -, x, hx, rfl⟩ := Regex.mem_lang_cat.1 h
      obtain ⟨v, rfl⟩ := ih hx
      exact ⟨u ++ v, (List.append_assoc u v s).symm⟩
    | nil =>
      cases part with
      | text t =>
        obtain ⟨u, hu, v, hv, rfl⟩ := Regex.mem_lang_cat.1 h
        obtain rfl : v = [] := hv
        exact ⟨t, by rw [Regex.mem_lang_lit.1 hu, List.append_nil]⟩
      | param | converted =>
        obtain ⟨u, -, x, hx, rfl⟩ := Regex.mem_lang_cat.1 h
        obtain ⟨v, rfl⟩ := ih hx
        exact ⟨u ++ v, (List.append_assoc u v s).symm⟩

theorem acceptsLine_extend (h : Regex.acceptsLine '\n' (compilePath (extend s parts)) p = true) :
    ∃ v, p = v ++ s ∨ p = v ++ s ++ ['\n'] := by
  rw [Regex.acceptsLine, Bool.or_eq_true, Bool.and_eq_true, decide_eq_true_eq, Regex.accepts_iff, Regex.accepts_iff]
    at h
  rcases h with h | ⟨hlast, h⟩
  · obtain ⟨v, hv⟩ := mem_lang_extend h
    exact ⟨v, .inl hv⟩
  · obtain ⟨v, hv⟩ := mem_lang_extend h
    refine ⟨v, .inr ?_⟩
    rw [← hv]
    exact (List.dropLast_append_getLast? _ hlast).symm

theorem acceptsLine_fixed (h : Regex.acceptsLine '\n' (compilePath [.text s]) p = true) :
    p = s ∨ p = s ++ ['\n'] := by
  obtain ⟨w, hw, hp⟩ := acceptsLine_text h
  have hw : w = [] := hw
  simpa [hw] using hp

end CliServer
