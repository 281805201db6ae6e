import CliServer.Commands.ToolIdentity
import CliServer.Mcp.Arguments

/-!
# The MCP endpoint

`mcp_post` answers a JSON-RPC message.  `JSONResponse` encodes the answer in strict UTF-8, so an answer with a
surrogate, or with a number that is not finite, is never sent: the exception escapes, and so does a `RecursionError`
of `json.loads`. Otherwise every message is answered, under its id, or is one that has no answer
(`mcpPost_answered_iff`).
-/

open Json (Text)

namespace CliServer

namespace Mcp

/-! ### Serialisable values -/

/-- A text without surrogates. -/
def plain (s : Text) : Bool := s.all fun c => !(Json.isHigh c.val || Json.isLow c.val)

/-- The numbers that `allow_nan=False` refuses. -/
def isFinite (n : JsonValue.Number) : Bool := n.text ∉ ["NaN".toList, "Infinity".toList, "-Infinity".toList]

mutual

/-- Whether `JSONResponse` can encode a value. -/
def serialises : JsonValue → Bool
  | .null => true
  | .bool _ => true
  | .num n => isFinite n
  | .str s => plain s
  | .arr items => serialisesItems items
  | .obj members => serialisesMembers members

def serialisesItems : List JsonValue → Bool
  | [] => true
  | item :: items => serialises item && serialisesItems items

def serialisesMembers : List (Text × JsonValue) → Bool
  | [] => true
  | (key, value) :: members => plain key && serialises value && serialisesMembers members

end

/-! ### The endpoint -/

/-- What `json.loads` raises: a `ValueError` (as `UnicodeDecodeError` is), or a `RecursionError`. -/
inductive LoadsError where
  | valueError
  | recursionError

/-- `McpToolResult`. -/
structure ToolResult where
  text : Text
  structured : Option (List (Text × JsonValue)) := none
  isError : Bool := false

/-- What the endpoint uses of a tool: `to_dict()`, its schema and its call, which may raise an exception with a text. -/
structure ToolBody (ρ : Type*) where
  declaration : JsonValue
  schema : InputSchema
  call : List (Text × JsonValue) → McpCallContext ρ → Except Text ToolResult

/-- What `create_mcp_router` is given. -/
structure Endpoint (ρ : Type*) where
  tools : McpToolRegistry ρ (ToolBody ρ)
  instructions : Option Text
  serverVersion : Text

/-- `_RpcError`. -/
structure RpcError where
  code : JsonValue.Number
  message : Text

/-- A response: an empty 202, or a JSON value. -/
inductive Response where
  | accepted
  | json (content : JsonValue)

def parseError : JsonValue.Number := ⟨"-32700".toList, rfl, rfl⟩

def invalidRequest : JsonValue.Number := ⟨"-32600".toList, rfl, rfl⟩

def methodNotFound : JsonValue.Number := ⟨"-32601".toList, rfl, rfl⟩

def invalidParams : JsonValue.Number := ⟨"-32602".toList, rfl, rfl⟩

/-- `SUPPORTED_PROTOCOL_VERSIONS`. -/
def supportedProtocolVersions : List Text := [lit "2025-11-25", lit "2025-06-18", lit "2025-03-26"]

/-- `JSONResponse(content)`; `none` if the encoding raises. -/
def jsonResponse (content : JsonValue) : Option Response := if serialises content then some (.json content) else none

/-- An answer, with its result or its error under `key`. -/
def rpcAnswer (id : JsonValue) (key : Text) (value : JsonValue) : JsonValue :=
  .obj [(lit "jsonrpc", .str (lit "2.0")), (lit "id", id), (key, value)]

/-- `_rpc_error`. -/
def rpcError (id : JsonValue) (code : JsonValue.Number) (message : Text) : Option Response :=
  jsonResponse (rpcAnswer id (lit "error") (.obj [(lit "code", .num code), (lit "message", .str message)]))

/-- An `int`. -/
def isInt (n : JsonValue.Number) : Bool := n.text.all fun c => c.isDigit || c = '-'

/-- `_valid_id`. -/
def validId : JsonValue → Bool
  | .str _ => true
  | .num n => isInt n
  | _ => false

def hasKey (message : List (Text × JsonValue)) (key : Text) : Bool := (message.lookup key).isSome

/-- A text that a tool gives. -/
def textContent (text : Text) : JsonValue := .arr [.obj [(lit "type", .str (lit "text")), (lit "text", .str text)]]

/-- What a call of a tool gives. -/
def toolAnswer : Except Text ToolResult → JsonValue
  | .error exc => .obj [(lit "content", textContent (lit "Error: " ++ exc)), (lit "isError", .bool true)]
  | .ok result => .obj ([(lit "content", textContent result.text), (lit "isError", .bool result.isError)] ++
      (result.structured.map fun structured => (lit "structuredContent", JsonValue.obj structured)).toList)

/-- `params.get(key)` where `null` stands for `{}`, and `none` for what is no dict. -/
def dictOrEmpty (value : JsonValue) : Option (List (Text × JsonValue)) :=
  match value with
  | .null => some []
  | .obj members => some members
  | _ => none

section Post

variable {ρ : Type*} (t : CaseTable) (py : Python) (endpoint : Endpoint ρ) (context : McpCallContext ρ)

/-- `initialize`. -/
def initializeResult (params : List (Text × JsonValue)) : Except RpcError JsonValue :=
  match get params (lit "protocolVersion") with
  | .str requested =>
    let version := if requested ∈ supportedProtocolVersions then requested else lit "2025-11-25"
    .ok (.obj ([(lit "protocolVersion", .str version),
      (lit "capabilities", .obj [(lit "tools", .obj [(lit "listChanged", .bool false)])]),
      (lit "serverInfo", .obj [(lit "name", .str (lit "qodalis-cli-server")), (lit "version", .str endpoint.serverVersion)])] ++
      ((endpoint.instructions.filter (· ≠ [])).map fun text => (lit "instructions", JsonValue.str text)).toList))
  | _ => .error ⟨invalidParams, lit "Invalid params: protocolVersion must be a string"⟩

/-- `(await tools.tools(context)).get(name)`. -/
def tool? (name : Text) : Option (ProvidedTool (ToolBody ρ)) :=
  (endpoint.tools.tools t context).find? fun tool => Json.ofChars tool.name = name

/-- `call_tool`. -/
def callTool (params : List (Text × JsonValue)) : Except RpcError JsonValue :=
  match get params (lit "name") with
  | .str (c :: cs) =>
    let name := c :: cs
    match dictOrEmpty (get params (lit "arguments")) with
    | none => .error ⟨invalidParams, lit "Invalid params: 'arguments' must be an object"⟩
    | some arguments =>
      match tool? t endpoint context name with
      | none => .error ⟨invalidParams, lit "Unknown tool: " ++ name⟩
      | some tool =>
        match validateArguments py arguments tool.call.schema with
        | some reason => .error ⟨invalidParams, lit "Invalid arguments for tool " ++ name ++ lit ": " ++ reason.message⟩
        | none => .ok (toolAnswer (tool.call.call arguments context))
  | _ => .error ⟨invalidParams, lit "Invalid params: 'name' is required"⟩

/-- `dispatch`. -/
def dispatch (method : Text) (params : List (Text × JsonValue)) : Except RpcError JsonValue :=
  if method = lit "initialize" then initializeResult endpoint params
  else if method = lit "ping" then .ok (.obj [])
  else if method = lit "tools/list" then
    .ok (.obj [(lit "tools", .arr ((endpoint.tools.tools t context).map fun tool => tool.call.declaration))])
  else if method = lit "tools/call" then callTool t py endpoint context params
  else .error ⟨methodNotFound, lit "Method not found: " ++ method⟩

/-- `mcp_post` of a message that is a dict. -/
def handle (message : List (Text × JsonValue)) : Option Response :=
  if !hasKey message (lit "method") && (hasKey message (lit "result") || hasKey message (lit "error")) then some .accepted
  else
    let id := get message (lit "id")
    match get message (lit "jsonrpc"), get message (lit "method") with
    | .str version, .str method =>
      if version ≠ lit "2.0" ∨ (hasKey message (lit "id") = true ∧ validId id = false) then
        rpcError (if validId id then id else .null) invalidRequest (lit "Invalid Request")
      else if !hasKey message (lit "id") then some .accepted
      else match dictOrEmpty (get message (lit "params")) with
        | none => rpcError id invalidParams (lit "Invalid params: 'params' must be an object")
        | some params =>
          match dispatch t py endpoint context method params with
          | .error exc => rpcError id exc.code exc.message
          | .ok result => jsonResponse (rpcAnswer id (lit "result") result)
    | _, _ => rpcError (if validId id then id else .null) invalidRequest (lit "Invalid Request")

/-- `mcp_post` for an authorised caller; `none` if an exception escapes. -/
def mcpPost (loads : List UInt8 → Except LoadsError JsonValue) (body : List UInt8) : Option Response :=
  match loads body with
  | .error .valueError => rpcError .null parseError (lit "Parse error")
  | .error .recursionError => none
  | .ok (.obj message) => handle t py endpoint context message
  | .ok _ => rpcError .null invalidRequest (lit "Invalid Request")

end Post

/-! ### What has to be encoded -/

/-- A response of the client. -/
def isResponse (message : List (Text × JsonValue)) : Bool :=
  !hasKey message (lit "method") && (hasKey message (lit "result") || hasKey message (lit "error"))

/-- The method of a message, if it says that it is one of JSON-RPC 2.0. -/
def method? (message : List (Text × JsonValue)) : Option Text :=
  match get message (lit "jsonrpc"), get message (lit "method") with
  | .str version, .str method => if version = lit "2.0" then some method else none
  | _, _ => none

/-- The messages that have no answer. -/
def silent : Except LoadsError JsonValue → Bool
  | .ok (.obj message) => isResponse message || ((method? message).isSome && !hasKey message (lit "id"))
  | _ => false

/-- The id of the answer. -/
def requestId : Except LoadsError JsonValue → JsonValue
  | .ok (.obj message) => if validId (get message (lit "id")) then get message (lit "id") else .null
  | _ => .null

/-- A JSON-RPC 2.0 answer: with this id, and a result or an error. -/
def IsRpcAnswer (id : JsonValue) : JsonValue → Prop
  | .obj members => (members.map Prod.fst).Nodup ∧ members.lookup (lit "jsonrpc") = some (.str (lit "2.0")) ∧
      members.lookup (lit "id") = some id ∧ (hasKey members (lit "result") = !hasKey members (lit "error"))
  | _ => False

/-- A message that has no answer gets an empty response, and any other its answer. -/
def Answered (loaded : Except LoadsError JsonValue) (response : Option Response) : Prop :=
  match response with
  | none => False
  | some .accepted => silent loaded = true
  | some (.json content) => silent loaded = false ∧ serialises content = true ∧ IsRpcAnswer (requestId loaded) content

/-- What a tool gives. -/
def toolValues : Except Text ToolResult → List JsonValue
  | .error exc => [.str exc]
  | .ok result => .str result.text :: (result.structured.map JsonValue.obj).toList

section Sent

variable {ρ : Type*} (t : CaseTable) (py : Python) (endpoint : Endpoint ρ) (context : McpCallContext ρ)

/-- What the answer to `tools/call` takes from its parameters, or from the tool. -/
def callValues (params : List (Text × JsonValue)) : List JsonValue :=
  match get params (lit "name") with
  | .str (c :: cs) =>
    match dictOrEmpty (get params (lit "arguments")) with
    | none => []
    | some arguments =>
      match tool? t endpoint context (c :: cs) with
      | none => [.str (c :: cs)]
      | some tool =>
        match validateArguments py arguments tool.call.schema with
        | some reason => reason.texts.map JsonValue.str
        | none => toolValues (tool.call.call arguments context)
  | _ => []

/-- What the answer to a request takes from it, or from the server. -/
def requestValues (method : Text) (params : List (Text × JsonValue)) : List JsonValue :=
  if method = lit "initialize" then
    match get params (lit "protocolVersion") with
    | .str _ => .str endpoint.serverVersion :: ((endpoint.instructions.filter (· ≠ [])).map JsonValue.str).toList
    | _ => []
  else if method = lit "ping" then []
  else if method = lit "tools/list" then (endpoint.tools.tools t context).map fun tool => tool.call.declaration
  else if method = lit "tools/call" then callValues t py endpoint context params
  else [.str method]

/-- The same of any message, its id apart. -/
def messageValues (message : List (Text × JsonValue)) : List JsonValue :=
  match method? message, dictOrEmpty (get message (lit "params")) with
  | some method, some params =>
    if validId (get message (lit "id")) then requestValues t py endpoint context method params else []
  | _, _ => []

/-- `json.loads` raises nothing but a `ValueError`, and of an answer the id and what it takes from the message or from
the server can be encoded. -/
def Sendable : Except LoadsError JsonValue → Prop
  | .error .valueError => True
  | .error .recursionError => False
  | .ok (.obj message) => silent (.ok (.obj message)) = true ∨ (serialises (requestId (.ok (.obj message))) = true ∧
      ∀ value ∈ messageValues t py endpoint context message, serialises value = true)
  | .ok _ => True

end Sent

section Lemmas

@[simp]
theorem plain_append (s s' : Text) : plain (s ++ s') = (plain s && plain s') := List.all_append

private theorem plain_ofChars (s : List Char) : plain (Json.ofChars s) = true := by
  rw [plain, Json.ofChars, List.all_map, List.all_eq_true]
  intro c _
  have hval : (Json.ofChar c).val = c.toNat := Json.val_ofChar c
  have hvalid : c.toNat < 0xD800 ∨ 0xDFFF < c.toNat := c.valid.imp_right And.left
  simp only [Function.comp_apply, hval, Json.isHigh, Json.isLow, Bool.not_eq_true', Bool.or_eq_false_iff,
    Bool.and_eq_false_iff, decide_eq_false_iff_not]
  omega

@[simp]
theorem plain_lit (s : String) : plain (lit s) = true := plain_ofChars s.toList

private theorem serialisesItems_iff {items : List JsonValue} :
    serialisesItems items = true ↔ ∀ item ∈ items, serialises item = true := by
  induction items with
  | nil => simp [serialisesItems]
  | cons item items ih => rw [serialisesItems, Bool.and_eq_true, ih, List.forall_mem_cons]

/-- A reason is encoded if the texts that it quotes are. -/
private theorem plain_message_iff (reason : Reason) :
    plain reason.message = true ↔ ∀ s ∈ reason.texts, plain s = true := by
  cases reason <;> simp [Reason.message, Reason.texts]

private theorem serialises_toolAnswer_iff (result : Except Text ToolResult) :
    serialises (toolAnswer result) = true ↔ ∀ value ∈ toolValues result, serialises value = true := by
  cases result with
  | error exc => simp [toolAnswer, toolValues, textContent, serialises, serialisesMembers, serialisesItems]
  | ok result =>
    cases hstructured : result.structured with
    | none => simp [toolAnswer, toolValues, textContent, serialises, serialisesMembers, serialisesItems, hstructured]
    | some structured => simp [toolAnswer, toolValues, textContent, serialises, serialisesMembers, serialisesItems,
      hstructured]

end Lemmas

/-- Whether the outcome of `dispatch` can be encoded. -/
def outcomeSerialises : Except RpcError JsonValue → Prop
  | .error exc => isFinite exc.code = true ∧ plain exc.message = true
  | .ok result => serialises result = true

section Outcome

variable {ρ : Type*} (t : CaseTable) (py : Python) (endpoint : Endpoint ρ) (context : McpCallContext ρ)

private theorem plain_of_tool? {name : Text} {tool : ProvidedTool (ToolBody ρ)}
    (h : tool? t endpoint context name = some tool) :
    plain name = true := by
  have hname := List.find?_some h
  rw [decide_eq_true_eq] at hname
  exact hname ▸ plain_ofChars tool.name

private theorem outcome_invalidParams (message : Text) :
    outcomeSerialises (.error ⟨invalidParams, message⟩) ↔ plain message = true := and_iff_right rfl

private theorem outcome_methodNotFound (message : Text) :
    outcomeSerialises (.error ⟨methodNotFound, message⟩) ↔ plain message = true := and_iff_right rfl

private theorem plain_supported {version : Text} (h : version ∈ supportedProtocolVersions) : plain version = true := by
  simp only [supportedProtocolVersions, List.mem_cons, List.not_mem_nil, or_false] at h
  rcases h with rfl | rfl | rfl <;> exact plain_lit _

private theorem initializeResult_serialises_iff (params : List (Text × JsonValue)) :
    outcomeSerialises (initializeResult endpoint params) ↔
      ∀ value ∈ requestValues t py endpoint context (lit "initialize") params, serialises value = true := by
  rw [requestValues, if_pos rfl, initializeResult]
  split
  · next requested _ =>
    have hversion : plain (if requested ∈ supportedProtocolVersions then requested else lit "2025-11-25") = true := by
      split
      · next hmem => exact plain_supported hmem
      · exact plain_lit _
    cases hinstructions : endpoint.instructions.filter (· ≠ []) with
    | none => simp [outcomeSerialises, serialises, serialisesMembers, hversion]
    | some text => simp [outcomeSerialises, serialises, serialisesMembers, hversion]
  · simp [outcome_invalidParams]

private theorem callTool_serialises_iff (params : List (Text × JsonValue)) :
    outcomeSerialises (callTool t py endpoint context params) ↔
      ∀ value ∈ callValues t py endpoint context params, serialises value = true := by
  unfold callTool callValues
  split
  · next c cs hname =>
    split
    · simp [outcome_invalidParams]
    · next arguments harguments =>
      cases htool : tool? t endpoint context (c :: cs) with
      | none => simp only [htool, outcome_invalidParams, List.forall_mem_singleton, plain_append, plain_lit, serialises,
          Bool.true_and]
      | some tool =>
        have hplain : plain (c :: cs) = true := plain_of_tool? t endpoint context htool
        cases hreason : validateArguments py arguments tool.call.schema with
        | some reason =>
          simp only [htool, hreason, outcome_invalidParams, plain_append, plain_lit, hplain, Bool.true_and,
            plain_message_iff, List.forall_mem_map, serialises]
        | none =>
          simp only [htool, hreason]
          exact serialises_toolAnswer_iff _
  · simp [outcome_invalidParams]

/-- The outcome can be encoded exactly when what it takes from the request or from the server can be. -/
private theorem dispatch_serialises_iff (method : Text) (params : List (Text × JsonValue)) :
    outcomeSerialises (dispatch t py endpoint context method params) ↔
      ∀ value ∈ requestValues t py endpoint context method params, serialises value = true := by
  by_cases hinit : method = lit "initialize"
  · rw [hinit, dispatch, if_pos rfl]
    exact initializeResult_serialises_iff t py endpoint context params
  · rw [dispatch, requestValues, if_neg hinit, if_neg hinit]
    split
    · simp [outcomeSerialises, serialises, serialisesMembers]
    · split
      · simp [outcomeSerialises, serialises, serialisesMembers, serialisesItems_iff]
      · split
        · exact callTool_serialises_iff t py endpoint context params
        · simp [outcome_methodNotFound, serialises]

/-- An answer with a result or an error is one under this id. -/
private theorem isRpcAnswer_rpcAnswer (id value : JsonValue) {key : Text}
    (hkey : key = lit "result" ∨ key = lit "error") :
    IsRpcAnswer id (rpcAnswer id key value) := by
  rcases hkey with rfl | rfl
  · have hkeys : [lit "jsonrpc", lit "id", lit "result"].Nodup := by decide
    exact ⟨hkeys, rfl, rfl, rfl⟩
  · have hkeys : [lit "jsonrpc", lit "id", lit "error"].Nodup := by decide
    exact ⟨hkeys, rfl, rfl, rfl⟩

/-- It is sent if it can be encoded. -/
private theorem answered_rpcAnswer {loaded : Except LoadsError JsonValue} {key : Text} (hsilent : silent loaded = false)
    (hkey : key = lit "result" ∨ key = lit "error") (value : JsonValue) :
    Answered loaded (jsonResponse (rpcAnswer (requestId loaded) key value)) ↔
      serialises (requestId loaded) = true ∧ serialises value = true := by
  have hplain : plain key = true := by rcases hkey with rfl | rfl <;> exact plain_lit _
  have hserialises : serialises (rpcAnswer (requestId loaded) key value) = true ↔
      serialises (requestId loaded) = true ∧ serialises value = true := by
    simp [rpcAnswer, serialises, serialisesMembers, hplain]
  rw [jsonResponse, ← hserialises]
  split
  · next h => exact ⟨fun _ => h, fun _ => ⟨hsilent, h, isRpcAnswer_rpcAnswer _ _ hkey⟩⟩
  · next h => exact ⟨fun hfalse => hfalse.elim, fun hself => absurd hself h⟩

private theorem answered_rpcError {loaded : Except LoadsError JsonValue} (hsilent : silent loaded = false)
    (code : JsonValue.Number) (text : Text) : Answered loaded (rpcError (requestId loaded) code text) ↔
      serialises (requestId loaded) = true ∧ outcomeSerialises (.error ⟨code, text⟩) := by
  rw [rpcError, answered_rpcAnswer hsilent (.inr rfl), outcomeSerialises]
  simp [serialises, serialisesMembers]

/-- What is no request is answered with a constant text. -/
private theorem answered_invalid {message : List (Text × JsonValue)} (hsilent : silent (.ok (.obj message)) = false)
    (hvalues : messageValues t py endpoint context message = []) {code : JsonValue.Number}
    (hcode : isFinite code = true)
    (text : String) : Answered (.ok (.obj message)) (rpcError (requestId (.ok (.obj message))) code (lit text)) ↔
      Sendable t py endpoint context (.ok (.obj message)) := by
  rw [answered_rpcError hsilent, Sendable, hvalues, hsilent]
  simp [outcomeSerialises, hcode]

private theorem hasKey_of_validId {message : List (Text × JsonValue)} (h : validId (get message (lit "id")) = true) :
    hasKey message (lit "id") = true := by
  cases hlookup : message.lookup (lit "id") with
  | none =>
    rw [get, hlookup] at h
    cases h
  | some id => rw [hasKey, hlookup, Option.isSome_some]

/-- A request is answered with the outcome of `dispatch`. -/
private theorem answered_request {message params : List (Text × JsonValue)} {method : Text}
    (hresponse : isResponse message = false)
    (hmethod : method? message = some method) (hid : validId (get message (lit "id")) = true)
    (hparams : dictOrEmpty (get message (lit "params")) = some params) :
    Answered (.ok (.obj message))
      (match dispatch t py endpoint context method params with
        | .error exc => rpcError (get message (lit "id")) exc.code exc.message
        | .ok result => jsonResponse (rpcAnswer (get message (lit "id")) (lit "result") result)) ↔
      Sendable t py endpoint context (.ok (.obj message)) := by
  have hkey := hasKey_of_validId hid
  have hsilent : silent (.ok (.obj message)) = false := by simp [silent, hresponse, hkey]
  have hrequest : requestId (.ok (.obj message)) = get message (lit "id") := by rw [requestId, if_pos hid]
  have hvalues : messageValues t py endpoint context message = requestValues t py endpoint context method params := by
    simp only [messageValues, hmethod, hparams, if_pos hid]
  have hsend : Sendable t py endpoint context (.ok (.obj message)) ↔
      serialises (requestId (.ok (.obj message))) = true ∧
      outcomeSerialises (dispatch t py endpoint context method params) := by
    rw [Sendable, hsilent, hvalues, dispatch_serialises_iff]
    simp
  rw [hsend, ← hrequest]
  cases dispatch t py endpoint context method params with
  | error exc => exact answered_rpcError hsilent exc.code exc.message
  | ok result => exact answered_rpcAnswer hsilent (.inl rfl) result

private theorem method?_eq_none {message : List (Text × JsonValue)}
    (h : ∀ version method, get message (lit "jsonrpc") = .str version → get message (lit "method") = .str method →
    False) :
    method? message = none := by
  rw [method?]
  split
  · next version method hversion hmethod => exact (h version method hversion hmethod).elim
  · rfl

private theorem handle_answered_iff (message : List (Text × JsonValue)) :
    Answered (.ok (.obj message)) (handle t py endpoint context message) ↔
      Sendable t py endpoint context (.ok (.obj message)) := by
  have hinvalid : silent (.ok (.obj message)) = false → messageValues t py endpoint context message = [] →
      (Answered (.ok (.obj message)) (rpcError (if validId (get message (lit "id")) then get message (lit "id") else .null)
        invalidRequest (lit "Invalid Request")) ↔ Sendable t py endpoint context (.ok (.obj message))) :=
    fun hsilent hvalues => answered_invalid t py endpoint context hsilent hvalues rfl "Invalid Request"
  rw [handle, ← isResponse]
  by_cases hresponse : isResponse message = true
  · have hsilent : silent (.ok (.obj message)) = true := by rw [silent, hresponse, Bool.true_or]
    rw [if_pos hresponse]
    exact iff_of_true hsilent (.inl hsilent)
  · have hresponse' : isResponse message = false := Bool.eq_false_iff.2 hresponse
    rw [if_neg hresponse]
    split
    · next version method hversion hmethod =>
      have hread : method? message = if version = lit "2.0" then some method else none := by
        simp only [method?, hversion, hmethod]
      dsimp only
      by_cases hbad : version ≠ lit "2.0" ∨
        (hasKey message (lit "id") = true ∧ validId (get message (lit "id")) = false)
      · rw [if_pos hbad]
        rcases hbad with hversion' | ⟨hkey, hid⟩
        · rw [if_neg hversion'] at hread
          exact hinvalid (by simp [silent, hresponse', hread]) (by simp [messageValues, hread])
        · refine hinvalid (by simp [silent, hresponse', hkey]) ?_
          simp only [messageValues, hid]
          split <;> rfl
      · rw [if_neg hbad]
        obtain ⟨hversion', hid⟩ := not_or.1 hbad
        rw [if_pos (not_not.1 hversion')] at hread
        by_cases hkey : hasKey message (lit "id") = true
        · have hid : validId (get message (lit "id")) = true := by simpa [hkey] using hid
          rw [if_neg (by simp [hkey])]
          cases hparams : dictOrEmpty (get message (lit "params")) with
          | none =>
            have hrequest : requestId (.ok (.obj message)) = get message (lit "id") := by rw [requestId, if_pos hid]
            have hsilent : silent (.ok (.obj message)) = false := by simp [silent, hresponse', hkey]
            have hvalues : messageValues t py endpoint context message = [] := by simp [messageValues, hparams]
            exact hrequest ▸ answered_invalid t py endpoint context hsilent hvalues rfl _
          | some params => exact answered_request t py endpoint context hresponse' hread hid hparams
        · have hsilent : silent (.ok (.obj message)) = true := by simp [silent, hread, hkey]
          rw [if_pos (by simp [hkey])]
          exact iff_of_true hsilent (.inl hsilent)
    · next hnot =>
      have hnone := method?_eq_none hnot
      exact hinvalid (by simp [silent, hresponse', hnone]) (by simp [messageValues, hnone])

/-- A message that has no answer gets an empty response and every other one its answer, exactly when `json.loads` raises
nothing but a `ValueError`, and what the answer takes from the message and from the server can be encoded. -/
theorem mcpPost_answered_iff (loads : List UInt8 → Except LoadsError JsonValue) (body : List UInt8) :
    Answered (loads body) (mcpPost t py endpoint context loads body) ↔ Sendable t py endpoint context (loads body) := by
  rw [mcpPost]
  cases loads body with
  | error error =>
    cases error with
    | valueError => exact iff_of_true ((answered_rpcError rfl _ _).2 ⟨rfl, rfl, plain_lit _⟩) trivial
    | recursionError => exact Iff.rfl
  | ok value =>
    cases value with
    | obj message => exact handle_answered_iff t py endpoint context message
    | _ => exact iff_of_true ((answered_rpcError rfl _ _).2 ⟨rfl, rfl, plain_lit _⟩) trivial

end Outcome

/-- `json.loads` of ASCII. -/
def loadsAscii (body : List UInt8) : Except LoadsError JsonValue :=
  match JsonValue.loads (body.map fun b => Char.ofNat b.toNat) with
  | some value => .ok value
  | none => .error .valueError

/-- A request with a lone surrogate for its method, which is escaped. -/
def surrogateMethod : List UInt8 :=
  "\x7b\"jsonrpc\": \"2.0\", \"id\": 1, \"method\": \"\\ud800\"\x7d".toList.map fun c => UInt8.ofNat c.toNat

/-- The answer to an unknown method repeats it, and with the surrogate it cannot be encoded: the exception escapes. -/
theorem surrogate_escapes :
    let endpoint : Endpoint Unit := ⟨McpToolRegistry.empty none, none, lit "1.0"⟩
    let post := mcpPost (fun _ _ _ => []) ⟨fun _ => true, fun _ => false, fun _ => []⟩ endpoint ⟨none, ()⟩ loadsAscii
    post surrogateMethod = none ∧ ¬Answered (loadsAscii surrogateMethod) (post surrogateMethod) := by
  intro endpoint post
  have hnone : (post surrogateMethod).isNone = true := by decide +kernel
  rw [Option.isNone_iff_eq_none.1 hnone]
  exact ⟨rfl, fun h => h⟩

end Mcp

end CliServer
