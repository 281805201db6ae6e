import CliServer.Text

/-!
# The client's address behind proxies

Every proxy appends the address it saw to the `X-Forwarded-For` header, on its last line or on a line of its own.  The
function that reads the header is there three times, in the users plugin, in the core server and in the admin plugin;
each takes the entry that the outermost of the trusted proxies appended, whatever the client sent
(`forwardedClientIp_appendAll`).
-/

namespace CliServer

/-- A `trust_proxy` setting. -/
inductive TrustProxy where
  | none
  | bool (trusted : Bool)
  | int (hops : Int)
  deriving DecidableEq

/-- The source's `text or None`. -/
def nonEmpty (s : Str) : Option Str := if s = [] then none else some s

namespace UsersPlugin

/-- `trusted_hops`. -/
def trustedHops : TrustProxy → Nat
  | .bool trusted => if trusted then 1 else 0
  | .none => 0
  | .int hops => if hops = 0 then 0 else (max hops 1).toNat

/-- `forwarded_client_ip`, of the lines of the header. -/
def forwardedClientIp (lines : List Str) (trustProxy : TrustProxy) : Option Str :=
  let hops := trustedHops trustProxy
  if hops = 0 then none
  else
    let entries := lines.flatMap fun value => (value.splitOn ',').map strip
    entries[entries.length - hops]?.bind nonEmpty

end UsersPlugin

namespace CoreServer

/-- `trusted_hops`. -/
def trustedHops : TrustProxy → Nat
  | .bool trusted => if trusted then 1 else 0
  | .none => 0
  | .int hops => if hops = 0 then 0 else (max hops 1).toNat

/-- `forwarded_client_ip`, of the lines of the header. -/
def forwardedClientIp (lines : List Str) (trustProxy : TrustProxy) : Option Str :=
  let hops := trustedHops trustProxy
  if hops = 0 then none
  else
    let entries := lines.flatMap fun value => (value.splitOn ',').map strip
    entries[entries.length - hops]?.bind nonEmpty

end CoreServer

namespace AdminPlugin

/-- `trusted_hops`. -/
def trustedHops : TrustProxy → Nat
  | .bool trusted => if trusted then 1 else 0
  | .none => 0
  | .int hops => if hops = 0 then 0 else (max hops 1).toNat

/-- `forwarded_client_ip`, of the lines of the header. -/
def forwardedClientIp (lines : List Str) (trustProxy : TrustProxy) : Option Str :=
  let hops := trustedHops trustProxy
  if hops = 0 then none
  else
    let entries := lines.flatMap fun value => (value.splitOn ',').map strip
    entries[entries.length - hops]?.bind nonEmpty

end AdminPlugin

/-! ### Proxies -/

/-- What a proxy appends: the address it saw, with the blanks it writes around it. -/
structure Forwarding where
  text : Str
  noComma : ',' ∉ text
  seen : strip text ≠ []
  /-- Whether it goes on the last line of the header, if there is one. -/
  sameLine : Bool

/-- The address the proxy saw. -/
def Forwarding.address (f : Forwarding) : Str := strip f.text

/-- The header after a proxy. -/
def Forwarding.append (f : Forwarding) (lines : List Str) : List Str :=
  match f.sameLine, lines.getLast? with
  | true, some line => lines.dropLast ++ [line ++ ',' :: f.text]
  | _, _ => lines ++ [f.text]

/-- The header after the proxies, outermost first. -/
def appendAll (lines : List Str) (proxies : List Forwarding) : List Str :=
  proxies.foldl (fun lines f => f.append lines) lines

/-- The entries of the header. -/
def forwardedEntries (lines : List Str) : List Str := lines.flatMap fun value => (value.splitOn ',').map strip

private theorem splitOn_append_comma (line text : Str) :
    (line ++ ',' :: text).splitOn ',' = line.splitOn ',' ++ text.splitOn ',' := by
  induction line with
  | nil => simp [List.splitOn_cons_eq_if_modifyHead]
  | cons c line ih =>
    rw [List.cons_append, List.splitOn_cons_eq_if_modifyHead, List.splitOn_cons_eq_if_modifyHead, ih]
    obtain ⟨head, tail, hsplit⟩ := List.exists_cons_of_ne_nil (List.splitOn_ne_nil ',' line)
    rw [hsplit]
    split
    · rfl
    · rfl

/-- A proxy appends one entry. -/
private theorem forwardedEntries_append (f : Forwarding) (lines : List Str) :
    forwardedEntries (f.append lines) = forwardedEntries lines ++ [f.address] := by
  have hone : (f.text.splitOn ',').map strip = [f.address] := by
    rw [List.splitOn_eq_singleton f.noComma]
    rfl
  have hnew : forwardedEntries (lines ++ [f.text]) = forwardedEntries lines ++ [f.address] := by
    simp [forwardedEntries, hone]
  unfold Forwarding.append
  split
  · rename_i line _ hlast
    have hlines : lines = lines.dropLast ++ [line] := (List.dropLast_append_getLast? line hlast).symm
    rw [hlines, List.dropLast_concat]
    simp only [forwardedEntries, List.flatMap_append, List.flatMap_singleton, splitOn_append_comma, List.map_append, hone,
      List.append_assoc]
  · exact hnew

private theorem forwardedEntries_appendAll (lines : List Str) (proxies : List Forwarding) :
    forwardedEntries (appendAll lines proxies) = forwardedEntries lines ++ proxies.map Forwarding.address := by
  unfold appendAll
  induction proxies generalizing lines with
  | nil => simp
  | cons f proxies ih =>
    rw [List.foldl_cons, ih, forwardedEntries_append, List.append_assoc]
    rfl

private theorem nonEmpty_address (f : Forwarding) : nonEmpty f.address = some f.address := if_neg f.seen

/-- As many trusted hops as there are proxies: the entry of the outermost. -/
private theorem forwardedClientIp_appendAll {trustProxy : TrustProxy} {outermost : Forwarding} {inner : List Forwarding}
    (h : UsersPlugin.trustedHops trustProxy = (outermost :: inner).length) (lines : List Str) :
    UsersPlugin.forwardedClientIp (appendAll lines (outermost :: inner)) trustProxy = some outermost.address := by
  have hentries := forwardedEntries_appendAll lines (outermost :: inner)
  have hpos : UsersPlugin.trustedHops trustProxy ≠ 0 := by
    rw [h, List.length_cons]
    omega
  have hindex : (forwardedEntries (appendAll lines (outermost :: inner))).length -
      UsersPlugin.trustedHops trustProxy = (forwardedEntries lines).length := by
    rw [hentries, h, List.length_append, List.length_map]
    omega
  have hget : (forwardedEntries (appendAll lines (outermost :: inner)))[(forwardedEntries lines).length]? =
      some outermost.address := by
    rw [hentries, List.getElem?_append_right (Nat.le_refl _)]
    simp
  unfold UsersPlugin.forwardedClientIp
  rw [if_neg hpos]
  change (forwardedEntries (appendAll lines (outermost :: inner)))[(forwardedEntries (appendAll lines
    (outermost :: inner))).length - UsersPlugin.trustedHops trustProxy]?.bind nonEmpty = _
  rw [hindex, hget]
  exact nonEmpty_address outermost

/-- The client's address behind `n` trusted proxies is the one that the outermost of them appended, for any lines of the
client's; the three copies of the function agree on every input. -/
theorem client_ip_not_forged (trustProxy : TrustProxy) (outermost : Forwarding) (inner : List Forwarding)
    (h : UsersPlugin.trustedHops trustProxy = (outermost :: inner).length) :
    (∀ lines, UsersPlugin.forwardedClientIp (appendAll lines (outermost :: inner)) trustProxy =
      some outermost.address) ∧
    (∀ lines lines', UsersPlugin.forwardedClientIp (appendAll lines (outermost :: inner)) trustProxy =
      UsersPlugin.forwardedClientIp (appendAll lines' (outermost :: inner)) trustProxy) ∧
    ∀ lines trustProxy, CoreServer.forwardedClientIp lines trustProxy = UsersPlugin.forwardedClientIp lines trustProxy ∧
      AdminPlugin.forwardedClientIp lines trustProxy = UsersPlugin.forwardedClientIp lines trustProxy := by
  refine ⟨fun lines => forwardedClientIp_appendAll h lines, fun lines lines' => ?_, fun lines trustProxy => ⟨rfl, rfl⟩⟩
  rw [forwardedClientIp_appendAll h lines, forwardedClientIp_appendAll h lines']

/-- Two proxies, the second of which writes to a line of its own, behind a line of the client's. -/
theorem client_ip_not_forged_two :
    UsersPlugin.forwardedClientIp (appendAll ["203.0.113.9, 10.0.0.1".toList]
      [⟨" 192.0.2.7".toList, by decide, by decide, true⟩, ⟨"10.0.0.1".toList, by decide, by decide, false⟩]) (.int 2) =
        some "192.0.2.7".toList := by
  exact (client_ip_not_forged (.int 2) ⟨" 192.0.2.7".toList, by decide, by decide, true⟩
    [⟨"10.0.0.1".toList, by decide, by decide, false⟩] (by decide)).1 ["203.0.113.9, 10.0.0.1".toList]

end CliServer
