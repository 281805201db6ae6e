import CliServer.Files.OsFiles
import CliServer.Files.SqliteProvider

/-!
# Round trips of contents

What is uploaded comes back in the download, and what is written in the next read, with each of the four providers,
except where text is decoded with replacement characters or read with the ends of its lines translated.
-/

namespace CliServer

open NamedTree

/-! ### Text mode -/

private theorem universalNewlines_cons {c : Char} (hc : c ≠ '\r') (s : Str) :
    universalNewlines (c :: s) = c :: universalNewlines s := by
  rw [universalNewlines]
  · rintro t rfl
    exact absurd rfl hc
  · exact hc

private theorem universalNewlines_toLineEnds (linesep : LineSep) {s : Str} (hs : '\r' ∉ s) :
    universalNewlines (toLineEnds linesep s) = s := by
  induction s with
  | nil => rfl
  | cons c s ih =>
    rw [List.mem_cons, not_or] at hs
    obtain ⟨hc, hs⟩ := hs
    have ih := ih hs
    rw [toLineEnds_cons]
    by_cases hnewline : c = '\n'
    · rw [if_pos hnewline, hnewline]
      cases linesep with
      | lf =>
        show universalNewlines ('\n' :: toLineEnds .lf s) = '\n' :: s
        rw [universalNewlines_cons (by decide), ih]
      | crlf =>
        show universalNewlines ('\r' :: '\n' :: toLineEnds .crlf s) = '\n' :: s
        rw [universalNewlines, ih]
    · rw [if_neg hnewline]
      show universalNewlines (c :: toLineEnds linesep s) = c :: s
      rw [universalNewlines_cons (fun h => hc h.symm), ih]

/-- A text survives text mode exactly if it has no carriage return. -/
private theorem universalNewlines_toLineEnds_iff (linesep : LineSep) (s : Str) :
    universalNewlines (toLineEnds linesep s) = s ↔ '\r' ∉ s := by
  constructor
  · intro h
    rw [← h]
    exact not_mem_universalNewlines _
  · exact universalNewlines_toLineEnds linesep

/-! ### What comes back -/

/-- The download of a path is these bytes, and so is its size. -/
def ContentProvider.Holds {σ : Type} (provider : ContentProvider σ) (s : σ) (path : Str) (b : List UInt8) : Prop :=
  (∃ chunks, provider.getDownloadStream s path = .ok chunks ∧ chunks.flatten = b) ∧
    ∃ entry, provider.stat s path = .ok entry ∧ entry.size = b.length

section Tree

variable {γ : Type*} {len : γ → Nat} {root made : FileTree len} {norm : Path}

private theorem resolve_of_view_leaf {file : FileData len} (h : (node root).view norm = some (.leaf file)) :
    resolve root norm = some (leaf file) := by
  obtain ⟨found, hfound, hkind⟩ := Option.map_eq_some_iff.1 h
  cases found with
  | leaf v =>
    obtain rfl := Kind.leaf.inj hkind
    exact hfound
  | node children => cases hkind

/-- The tree after a file was put under the last name of a path, whose parents were made before. -/
theorem view_written {path : Str} (hnorm : norm ≠ []) (hmade : ensureParents path root norm.dropLast = (made, none))
    (file : FileData len) (q : Path) :
    (node (made.alter (fun children => children.assign (norm.getLast hnorm) (leaf file)) norm.dropLast)).view q =
      if norm <+: q then (leaf file : NamedTree Name (FileData len)).view (q.drop norm.length)
      else withParents (node root).view norm.dropLast q := by
  rcases ensureParents_error path root norm.dropLast with ⟨tree, hstopped, -⟩ | ⟨tree, hall, hblocked, hview⟩
  · rw [hmade] at hstopped
    cases hstopped
  · rw [hmade] at hall
    obtain ⟨rfl, -⟩ := Prod.mk.inj hall
    have hparent : (node made).view norm.dropLast = some .node := by
      rw [hview]
      exact withParents_self hblocked
    rw [view_put hnorm hparent (fun cs _ k => Forest.lookup_assign cs _ _ k), hview]

private theorem resolve_written {path : Str} (hnorm : norm ≠ [])
    (hmade : ensureParents path root norm.dropLast = (made, none))
    (file : FileData len) :
    resolve (made.alter (fun children => children.assign (norm.getLast hnorm) (leaf file)) norm.dropLast) norm =
      some (leaf file) := by
  apply resolve_of_view_leaf
  rw [view_written hnorm hmade, if_pos (List.prefix_refl norm), List.drop_length]
  rfl

/-- After a write the file is there. -/
private theorem resolve_writeNode {root tree : FileTree len} {norm : Path} {path : Str} {file : FileData len}
    (h : writeNode root norm path file = (tree, none)) : resolve tree norm = some (leaf file) := by
  unfold writeNode at h
  split at h
  · cases h
  · next hnorm =>
    split at h
    · cases h
    · next made hmade =>
      split at h
      · cases h
      · obtain ⟨rfl, -⟩ := Prod.mk.inj h
        exact resolve_written hnorm hmade _

end Tree

/-- After a write the in-memory provider has the bytes. -/
private theorem InMemory.resolve_writeFile {root root' : InMemory} {path : Str} {raw : List UInt8}
    (h : InMemory.writeFile root path raw = (root', none)) :
    resolve root' (normalizePath path) = some (leaf { content := raw, size := raw.length, size_eq := rfl }) :=
  resolve_writeNode h

/-- After a write the JSON provider has the text. -/
private theorem JsonFile.resolve_writeFile {json json' : JsonFile} {path : Str} {content : Content}
    (h : JsonFile.writeFile json path content = (json', none)) :
    resolve json'.root (normalizePath path) =
      some (leaf { content := content.decoded, size := utf8Length content.decoded, size_eq := rfl }) := by
  unfold JsonFile.writeFile at h
  simp only at h
  split at h
  · cases h
  · next tree hwritten =>
    obtain ⟨rfl, -⟩ := Prod.mk.inj h
    exact resolve_writeNode hwritten

/-- After a write the SQLite provider has the text. -/
private theorem Sqlite.select_writeFile {t t' : Table} {path : Str} {content : Content}
    (h : Sqlite.writeFile t path content = (t', none)) :
    ∃ row, t'.select (normalizeSql path) = some row ∧ row.type = .file ∧ row.content = some content.decoded ∧
      row.size = utf8Length content.decoded := by
  unfold Sqlite.writeFile Sqlite.writeAt at h
  split at h
  · cases h
  · split at h
    · cases h
    · unfold Sqlite.writeRow at h
      split at h
      · next existing hselect =>
        split at h
        · cases h
        · next htype =>
          obtain ⟨rfl, -⟩ := Prod.mk.inj h
          refine ⟨_, Table.select_update_self _ hselect, ?_, rfl, rfl⟩
          cases hcase : existing.type with
          | file => rfl
          | directory => exact absurd hcase htype
      · next hselect =>
        obtain ⟨rfl, -⟩ := Prod.mk.inj h
        exact ⟨_, Table.select_insert_self (Table.path_notMem_of_select hselect), rfl, rfl, rfl⟩

/-- After a write the disk has the bytes. -/
private theorem Disk.write_self (os : Os) (disk : Disk) (resolved : Str) (content : List UInt8) :
    ∃ mode, Disk.write os disk resolved content resolved = some (.file content mode) := ⟨_, if_pos rfl⟩

private theorem Disk.read_writeFile {os : Os} {disk disk' : Disk} {path : Str} {content : Content}
    (h : Disk.writeFile os disk path content = (disk', none)) :
    ∃ resolved mode, Disk.validate os path = .ok resolved ∧ disk' resolved = some (.file (match content with
      | .text s => Utf8.encode (toLineEnds os.linesep s)
      | .bytes b => b) mode) := by
  unfold Disk.writeFile at h
  split at h
  · cases h
  · next resolved hvalid =>
    split at h
    · cases h
    · split at h
      · cases h
      · cases content with
        | text s =>
          obtain ⟨rfl, -⟩ := Prod.mk.inj h
          obtain ⟨mode, hmode⟩ := Disk.write_self os disk resolved (Utf8.encode (toLineEnds os.linesep s))
          exact ⟨resolved, mode, hvalid, hmode⟩
        | bytes b =>
          obtain ⟨rfl, -⟩ := Prod.mk.inj h
          obtain ⟨mode, hmode⟩ := Disk.write_self os disk resolved b
          exact ⟨resolved, mode, hvalid, hmode⟩

/-- The chunks that are read are the content. -/
private theorem Disk.flatten_readChunks (content : List UInt8) : (Disk.readChunks content).flatten = content := by
  fun_induction Disk.readChunks content with
  | case1 => rfl
  | case2 content _ ih => rw [List.flatten_cons, ih, List.take_append_drop]

/-! ### The four providers -/

theorem length_encode (s : Str) : (Utf8.encode s).length = utf8Length s := Utf8.length_encode s

/-- A provider that keeps the decoded text has the bytes exactly if they are UTF-8. -/
private theorem decoded_iff (b : List UInt8) :
    ([Utf8.encode (Utf8.decode b)].flatten = b ∧ utf8Length (Utf8.decode b) = b.length) ↔ Utf8.Valid b := by
  have hflatten : [Utf8.encode (Utf8.decode b)].flatten = Utf8.encode (Utf8.decode b) := by simp
  rw [hflatten, ← Utf8.encode_decode_iff]
  constructor
  · exact fun h => h.1
  · intro h
    refine ⟨h, ?_⟩
    rw [← length_encode, h]

private theorem InMemory.round_trip {root root' : InMemory} {path : Str} :
    (∀ b, InMemory.provider.uploadFile root path b = (root', none) → InMemory.provider.Holds root' path b) ∧
    ∀ s, InMemory.provider.writeFile root path (.text s) = (root', none) →
      InMemory.provider.readFile root' path = .ok s := by
  constructor
  · intro b h
    have hfound := InMemory.resolve_writeFile h
    refine ⟨⟨[b], ?_, by simp⟩, ?_⟩
    · show readNode (fun content => [content]) root' path = _
      unfold readNode
      rw [hfound]
    · refine ⟨⟨lastName (normalizePath path), .file, b.length, some (permissionsOf .file)⟩, ?_, rfl⟩
      show statNode root' path = _
      unfold statNode
      rw [hfound]
      rfl
  · intro s h
    have hfound := InMemory.resolve_writeFile h
    show readNode Utf8.decode root' path = _
    unfold readNode
    rw [hfound]
    exact congrArg Except.ok (Utf8.decode_encode s)

private theorem JsonFile.round_trip {json json' : JsonFile} {path : Str} :
    (∀ b, JsonFile.provider.uploadFile json path b = (json', none) →
      (JsonFile.provider.Holds json' path b ↔ Utf8.Valid b)) ∧
    ∀ s, JsonFile.provider.writeFile json path (.text s) = (json', none) →
      JsonFile.provider.readFile json' path = .ok s := by
  constructor
  · intro b h
    have hfound := JsonFile.resolve_writeFile h
    have hdownload : JsonFile.provider.getDownloadStream json' path = .ok [Utf8.encode (Utf8.decode b)] := by
      show readNode (fun content => [Utf8.encode content]) json'.root path = _
      unfold readNode
      rw [hfound]
      rfl
    have hstat : JsonFile.provider.stat json' path =
        .ok ⟨lastName (normalizePath path), .file, utf8Length (Utf8.decode b), some (permissionsOf .file)⟩ := by
      show statNode json'.root path = _
      unfold statNode
      rw [hfound]
      rfl
    rw [← decoded_iff]
    unfold ContentProvider.Holds
    rw [hdownload, hstat]
    simp
  · intro s h
    have hfound := JsonFile.resolve_writeFile h
    show readNode id json'.root path = _
    unfold readNode
    rw [hfound]
    rfl

private theorem Sqlite.round_trip {t t' : Table} {path : Str} :
    (∀ b, Sqlite.provider.uploadFile t path b = (t', none) → (Sqlite.provider.Holds t' path b ↔ Utf8.Valid b)) ∧
    ∀ s, Sqlite.provider.writeFile t path (.text s) = (t', none) → Sqlite.provider.readFile t' path = .ok s := by
  constructor
  · intro b h
    obtain ⟨row, hselect, htype, hcontent, hsize⟩ := Sqlite.select_writeFile h
    have hdownload : Sqlite.provider.getDownloadStream t' path = .ok [Utf8.encode (Utf8.decode b)] := by
      show Sqlite.readText (fun text => [Utf8.encode text]) t' path = _
      unfold Sqlite.readText
      rw [hselect]
      simp [htype, hcontent, Content.decoded]
    have hstat : Sqlite.provider.stat t' path = .ok row.entry := by
      show Sqlite.stat t' path = _
      unfold Sqlite.stat Sqlite.statAt
      rw [hselect]
    have hentry : row.entry.size = utf8Length (Utf8.decode b) := hsize
    rw [← decoded_iff]
    unfold ContentProvider.Holds
    rw [hdownload, hstat, ← hentry]
    simp
  · intro s h
    obtain ⟨row, hselect, htype, hcontent, -⟩ := Sqlite.select_writeFile h
    show Sqlite.readText id t' path = _
    unfold Sqlite.readText
    rw [hselect]
    simp [htype, hcontent, Content.decoded]

private theorem Disk.round_trip {os : Os} {disk disk' : Disk} {path : Str} :
    (∀ b, (Disk.provider os).uploadFile disk path b = (disk', none) → (Disk.provider os).Holds disk' path b) ∧
    ∀ s, (Disk.provider os).writeFile disk path (.text s) = (disk', none) →
      ((Disk.provider os).readFile disk' path = .ok s ↔ '\r' ∉ s) := by
  constructor
  · intro b h
    have hwrite : Disk.writeFile os disk path (.bytes b) = (disk', none) := h
    obtain ⟨resolved, mode, hvalid, hfile⟩ := Disk.read_writeFile hwrite
    refine ⟨⟨Disk.readChunks b, ?_, Disk.flatten_readChunks b⟩, ?_⟩
    · show Disk.readBytes os Disk.readChunks disk' path = _
      unfold Disk.readBytes
      rw [hvalid]
      simp only [hfile]
    · refine ⟨⟨os.basename resolved, .file, b.length, some mode⟩, ?_, rfl⟩
      show Disk.stat os disk' path = _
      unfold Disk.stat
      rw [hvalid]
      simp only [hfile]
  · intro s h
    have hwrite : Disk.writeFile os disk path (.text s) = (disk', none) := h
    obtain ⟨resolved, mode, hvalid, hfile⟩ := Disk.read_writeFile hwrite
    have hread : (Disk.provider os).readFile disk' path = .ok (universalNewlines (toLineEnds os.linesep s)) := by
      show Disk.readBytes os (fun content => universalNewlines (Utf8.decode content)) disk' path = _
      unfold Disk.readBytes
      rw [hvalid]
      simp only [hfile, Utf8.decode_encode]
    rw [hread, Except.ok.injEq]
    exact universalNewlines_toLineEnds_iff os.linesep s

/-- After an upload that succeeds, the download and the size are those of the bytes: with the in-memory provider and
the files of the operating system always, with the JSON and the SQLite provider exactly if the bytes are UTF-8.  After
a write of text that succeeds, the text is read: with the first three providers always, from the files of the
operating system exactly if it has no carriage return. -/
theorem content_round_trip (root : InMemory) (os : Os) (disk : Disk) (json : JsonFile) (t : Table) (path s : Str)
    (b : List UInt8) :
    (∀ root', InMemory.provider.uploadFile root path b = (root', none) → InMemory.provider.Holds root' path b) ∧
    (∀ disk', (Disk.provider os).uploadFile disk path b = (disk', none) → (Disk.provider os).Holds disk' path b) ∧
    (∀ json', JsonFile.provider.uploadFile json path b = (json', none) →
      (JsonFile.provider.Holds json' path b ↔ Utf8.Valid b)) ∧
    (∀ t', Sqlite.provider.uploadFile t path b = (t', none) → (Sqlite.provider.Holds t' path b ↔ Utf8.Valid b)) ∧
    (∀ root', InMemory.provider.writeFile root path (.text s) = (root', none) →
      InMemory.provider.readFile root' path = .ok s) ∧
    (∀ json', JsonFile.provider.writeFile json path (.text s) = (json', none) →
      JsonFile.provider.readFile json' path = .ok s) ∧
    (∀ t', Sqlite.provider.writeFile t path (.text s) = (t', none) → Sqlite.provider.readFile t' path = .ok s) ∧
    ∀ disk', (Disk.provider os).writeFile disk path (.text s) = (disk', none) →
      ((Disk.provider os).readFile disk' path = .ok s ↔ '\r' ∉ s) :=
  ⟨fun _ h => InMemory.round_trip.1 b h, fun _ h => Disk.round_trip.1 b h, fun _ h => JsonFile.round_trip.1 b h,
    fun _ h => Sqlite.round_trip.1 b h, fun _ h => InMemory.round_trip.2 s h, fun _ h => JsonFile.round_trip.2 s h,
    fun _ h => Sqlite.round_trip.2 s h, fun _ h => Disk.round_trip.2 s h⟩

theorem content_round_trip_ascii :
    let json : JsonFile := ⟨[], none⟩
    ∃ json', JsonFile.provider.uploadFile json "/a".toList [0x61] = (json', none) ∧
      (JsonFile.provider.Holds json' "/a".toList [0x61] ↔ Utf8.Valid [0x61]) := by
  intro json
  have hdone : (JsonFile.provider.uploadFile json "/a".toList [0x61]).2 = none := by decide
  have hupload : JsonFile.provider.uploadFile json "/a".toList [0x61] =
      ((JsonFile.provider.uploadFile json "/a".toList [0x61]).1, none) := Prod.ext rfl hdone
  let os : Os := ⟨id, id, id, '/', .lf, [], []⟩
  exact ⟨_, hupload, (content_round_trip [] os (fun _ => none) json Sqlite.initial "/a".toList [] [0x61]).2.2.1 _ hupload⟩

/-- One byte that is not UTF-8 comes back as U+FFFD. -/
theorem upload_replaced :
    let json : JsonFile := ⟨[], none⟩
    ∃ json', JsonFile.provider.uploadFile json "/a".toList [0xFF] = (json', none) ∧
      ¬JsonFile.provider.Holds json' "/a".toList [0xFF] := by
  intro json
  have hdone : (JsonFile.provider.uploadFile json "/a".toList [0xFF]).2 = none := by decide
  have hupload : JsonFile.provider.uploadFile json "/a".toList [0xFF] =
      ((JsonFile.provider.uploadFile json "/a".toList [0xFF]).1, none) := Prod.ext rfl hdone
  refine ⟨_, hupload, ?_⟩
  rw [JsonFile.round_trip.1 _ hupload, ← Utf8.encode_decode_iff]
  decide

end CliServer
