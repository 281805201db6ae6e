import CliServer.Files.Providers
import CliServer.Lib.Utf8Strict

/-!
# The tool that reads a file

`fs_read` reads the chunks of a file until it has more than `maxBytes` bytes, and shows the text of the first
`maxBytes` of them.  A character that is cut there is left out, and anything else that is not UTF-8, or has a NUL, is
a binary file.
-/

namespace CliServer

/-- `McpToolResult`, without `structured`. -/
structure McpToolResult where
  text : Str
  isError : Bool
  deriving DecidableEq

/-- `McpToolResult.error`. -/
def McpToolResult.error (message : Str) : McpToolResult := ⟨message, true⟩

/-- What `fs_read` asks of the provider; an error is the message that `_guard` reports, also in the middle of a
download. -/
structure FileDownloads where
  stat : Str → Except Str FileEntry
  getDownloadStream : Str → Except Str (List (Except Str (List UInt8)))

def defaultMaxBytes : Int := 262144

/-- The loop over the chunks, which ends when there is more than can be shown. -/
def readChunks (maxBytes : Nat) : List UInt8 → List (Except Str (List UInt8)) → Except Str (List UInt8)
  | data, [] => .ok data
  | _, .error message :: _ => .error message
  | data, .ok chunk :: chunks =>
    if maxBytes < (data ++ chunk).length then .ok (data ++ chunk) else readChunks maxBytes (data ++ chunk) chunks

def binaryFile (total : Nat) : McpToolResult :=
  .error ("binary file, ".toList ++ (toString total).toList ++ " bytes".toList)

def truncationNote (shown total : Nat) : Str :=
  "\n[truncated: ".toList ++ (toString shown).toList ++ " of ".toList ++ (toString total).toList ++ " bytes]".toList

/-- What is shown of the data that was read of a file with this size. -/
def showData (maxBytes size : Nat) (data : List UInt8) : McpToolResult :=
  let total := max size data.length
  let truncated := decide (maxBytes < total)
  let head := data.take maxBytes
  match Utf8.decodeStrict (!truncated) head with
  | none => binaryFile total
  | some text =>
    if '\x00' ∈ text then binaryFile total
    else if truncated then ⟨text ++ truncationNote head.length total, false⟩
    else ⟨text, false⟩

/-- `fs_read`, with its arguments validated. -/
def fsRead (p : FileDownloads) (path : Str) (maxBytes : Option Int) : McpToolResult :=
  let maxBytes := maxBytes.getD defaultMaxBytes
  if maxBytes < 1 then .error "maxBytes must be at least 1".toList
  else match p.stat path with
    | .error message => .error message
    | .ok info =>
      if info.type = .directory then .error ("Is a directory: ".toList ++ path)
      else match p.getDownloadStream path with
        | .error message => .error message
        | .ok chunks =>
          match readChunks maxBytes.toNat [] chunks with
          | .error message => .error message
          | .ok data => showData maxBytes.toNat info.size data

/-- However a file is cut in chunks, as much of it is read as decides what is shown. -/
private theorem readChunks_eq (maxBytes : Nat) (data : List UInt8) (chunks : List (List UInt8)) :
    ∃ read, readChunks maxBytes data (chunks.map .ok) = .ok read ∧ read <+: data ++ chunks.flatten ∧
      (read = data ++ chunks.flatten ∨ maxBytes < read.length) := by
  induction chunks generalizing data with
  | nil => exact ⟨data, rfl, by simp, .inl (by simp)⟩
  | cons chunk chunks ih =>
    rw [List.flatten_cons, ← List.append_assoc, List.map_cons, readChunks]
    split
    · next hlong => exact ⟨_, rfl, List.prefix_append _ _, .inr hlong⟩
    · exact ih (data ++ chunk)

/-- Of the data only the first `maxBytes` bytes count, and how many there are. -/
private theorem showData_prefix {maxBytes : Nat} {read content : List UInt8} (hpre : read <+: content)
    (h : read = content ∨ maxBytes < read.length) :
    showData maxBytes content.length read = showData maxBytes content.length content := by
  have htotal : max content.length read.length = max content.length content.length := by
    have := hpre.length_le
    omega
  have hhead : read.take maxBytes = content.take maxBytes := by
    rcases h with rfl | hlong
    · rfl
    · obtain ⟨rest, rfl⟩ := hpre
      rw [List.take_append_of_le_length hlong.le]
  unfold showData
  rw [htotal, hhead]

/-- The bytes are those of a text, and of a character that the limit cuts. -/
def Readable (maxBytes : Nat) (content : List UInt8) : Prop :=
  ∃ s tail, content.take maxBytes = Utf8.encode s ++ tail ∧ Utf8.Rest (decide (content.length ≤ maxBytes)) tail

/-- What is shown of the whole content. -/
private theorem showData_self (maxBytes : Nat) (content : List UInt8) : showData maxBytes content.length content =
    match Utf8.decodeStrict (decide (content.length ≤ maxBytes)) (content.take maxBytes) with
    | none => binaryFile content.length
    | some text =>
      if '\x00' ∈ text then binaryFile content.length
      else ⟨text ++ if maxBytes < content.length then truncationNote maxBytes content.length else [], false⟩ := by
  have hfinal : (!decide (maxBytes < content.length)) = decide (content.length ≤ maxBytes) := by
    rw [← decide_not, decide_eq_decide]
    exact not_lt
  unfold showData
  dsimp only
  rw [max_self, hfinal]
  split
  · rfl
  · split
    · rfl
    · by_cases hlong : maxBytes < content.length
      · rw [if_pos (decide_eq_true hlong), if_pos hlong, List.length_take_of_le hlong.le]
      · rw [if_neg (by simpa using hlong), if_neg hlong, List.append_nil]

private theorem showData_text {maxBytes : Nat} {content : List UInt8} {s : List Char} (hs : Utf8.encode s = content)
    (hnul : '\x00' ∉ s) :
    ∃ t, Utf8.LongestFitting maxBytes s t ∧ showData maxBytes content.length content =
      ⟨t ++ if maxBytes < content.length then truncationNote maxBytes content.length else [], false⟩ := by
  obtain ⟨t, hdecode, hlongest⟩ := @Utf8.decodeStrict_take_encode maxBytes s
  rw [hs] at hdecode
  refine ⟨t, hlongest, ?_⟩
  rw [showData_self, hdecode]
  exact if_neg fun hmem => hnul (hlongest.isPrefix.subset hmem)

private theorem showData_binary_iff (maxBytes : Nat) (content : List UInt8) :
    showData maxBytes content.length content = binaryFile content.length ↔
      0 ∈ content.take maxBytes ∨ ¬Readable maxBytes content := by
  rw [showData_self]
  cases hdecode : Utf8.decodeStrict (decide (content.length ≤ maxBytes)) (content.take maxBytes) with
  | none =>
    refine iff_of_true rfl (.inr ?_)
    rintro ⟨s, hs⟩
    rw [Utf8.decodeStrict_eq_some_iff.2 hs] at hdecode
    cases hdecode
  | some text =>
    obtain ⟨tail, htake, hrest⟩ := Utf8.decodeStrict_eq_some_iff.1 hdecode
    have hzero : 0 ∈ content.take maxBytes ↔ '\x00' ∈ text := by
      rw [htake, List.mem_append, Utf8.zero_mem_encode_iff]
      exact or_iff_left (Utf8.zero_notMem_rest hrest)
    have hreadable : Readable maxBytes content := ⟨text, tail, htake, hrest⟩
    rw [hzero]
    constructor
    · intro h
      by_contra hno
      dsimp only at h
      rw [if_neg fun hmem => hno (.inl hmem)] at h
      cases congrArg McpToolResult.isError h
    · rintro (hmem | hbinary)
      · exact if_pos hmem
      · exact absurd hreadable hbinary

section

variable {p : FileDownloads} {path : Str} {maxBytes : Option Int} {info : FileEntry} {content : List UInt8}
  {chunks : List (List UInt8)}

private theorem fsRead_eq_showData (hmax : 1 ≤ maxBytes.getD defaultMaxBytes) (hstat : p.stat path = .ok info)
    (htype : info.type = .file) (hsize : info.size = content.length)
    (hstream : p.getDownloadStream path = .ok (chunks.map .ok)) (hchunks : chunks.flatten = content) :
    fsRead p path maxBytes = showData (maxBytes.getD defaultMaxBytes).toNat content.length content := by
  obtain ⟨read, hread, hpre, hall⟩ := readChunks_eq (maxBytes.getD defaultMaxBytes).toNat [] chunks
  rw [List.nil_append, hchunks] at hpre hall
  unfold fsRead
  dsimp only
  rw [if_neg (by omega), hstat]
  dsimp only
  rw [htype, if_neg (by decide), hstream]
  dsimp only
  rw [hread]
  dsimp only
  rw [hsize, showData_prefix hpre hall]

/-- A text without NULs is shown up to the last character that fits, with the note exactly if there is more; bytes
with a NUL, or that are neither those of a text nor cut by the limit, are a binary file. -/
theorem fsRead_truncates {maxBytes : Nat} (hmax : 1 ≤ maxBytes) (hstat : p.stat path = .ok info)
    (htype : info.type = .file)
    (hsize : info.size = content.length) (hstream : p.getDownloadStream path = .ok (chunks.map .ok))
    (hchunks : chunks.flatten = content) :
    (∀ s, Utf8.encode s = content → '\x00' ∉ s → ∃ t, Utf8.LongestFitting maxBytes s t ∧ fsRead p path (some maxBytes) =
      ⟨t ++ if maxBytes < content.length then truncationNote maxBytes content.length else [], false⟩) ∧
      (fsRead p path (some maxBytes) = binaryFile content.length ↔
        0 ∈ content.take maxBytes ∨ ¬Readable maxBytes content) := by
  rw [fsRead_eq_showData (by simpa using hmax) hstat htype hsize hstream hchunks]
  exact ⟨fun s hs hnul => showData_text hs hnul, showData_binary_iff maxBytes content⟩

/-- A file with one name, in these chunks. -/
def oneFile (chunks : List (List UInt8)) : FileDownloads where
  stat _ := .ok ⟨['f'], .file, chunks.flatten.length, none⟩
  getDownloadStream _ := .ok (chunks.map .ok)

/-- The limit cuts a character, and a chunk does. -/
theorem fsRead_truncates_cut :
    (∃ t, Utf8.LongestFitting 3 ['a', 'é', 'é'] t ∧ fsRead (oneFile [[97, 0xC3], [0xA9, 0xC3, 0xA9]]) ['f'] (some 3) =
      ⟨t ++ truncationNote 3 5, false⟩) ∧
      fsRead (oneFile [[97, 0xC3], [97, 0]]) ['f'] (some 4) = binaryFile 4 := by
  have hcut := @fsRead_truncates (oneFile [[97, 0xC3], [0xA9, 0xC3, 0xA9]]) ['f'] ⟨['f'], .file, 5, none⟩
    [97, 0xC3, 0xA9, 0xC3, 0xA9] [[97, 0xC3], [0xA9, 0xC3, 0xA9]] 3 (by decide) rfl rfl rfl rfl rfl
  have hbinary := @fsRead_truncates (oneFile [[97, 0xC3], [97, 0]]) ['f'] ⟨['f'], .file, 4, none⟩
    [97, 0xC3, 97, 0] [[97, 0xC3], [97, 0]] 4 (by decide) rfl rfl rfl rfl rfl
  obtain ⟨t, ht, hread⟩ := hcut.1 ['a', 'é', 'é'] (by decide) (by decide)
  rw [if_pos (by decide)] at hread
  exact ⟨⟨t, ht, hread⟩, hbinary.2.2 (.inl (by decide))⟩

/-- The first bytes of a surrogate are neither a character nor the beginning of one, but they are left out as if they
were. -/
theorem surrogate_left_out :
    (¬∃ s tail, [0xED, 0xA0] = Utf8.encode s ++ tail ∧ (tail = [] ∨ Utf8.Cut tail)) ∧
      fsRead (oneFile [[0xED, 0xA0, 0x80]]) ['f'] (some 2) = ⟨truncationNote 2 3, false⟩ := by
  refine ⟨?_, by decide⟩
  rintro ⟨s, tail, heq, htail⟩
  have hrefused : ∀ more, Utf8.decodeStrict true (0xED :: 0xA0 :: more) = none := fun _ => rfl
  have hnil : s = [] := by
    have hdecode := Utf8.decodeStrict_encode_append false s tail
    rw [← heq, show Utf8.decodeStrict false [0xED, 0xA0] = some [] from rfl] at hdecode
    obtain ⟨t, -, ht⟩ := Option.map_eq_some_iff.1 hdecode.symm
    exact (List.append_eq_nil_iff.1 ht).1
  subst hnil
  obtain rfl : [0xED, 0xA0] = tail := heq
  rcases htail with hnil | ⟨c, more, -, hc⟩
  · cases hnil
  · have hwhole := Utf8.decodeStrictFrom_encodeChar true [] c
    rw [List.append_nil, hc] at hwhole
    cases (hrefused more).symm.trans hwhole

end

end CliServer
