import CliServer.Files.TreeStores
import CliServer.Files.RoundTrip

/-!
# The in-memory and the JSON provider, on a view

Where `Agreed` holds, either provider answers what `Common.provider` answers, and stores what it keeps.
-/

namespace CliServer

open NamedTree Forest

variable {view : FileView Str} {s d : Path}

/-! ### A copy, seen on the view -/

/-- A copy of what is not above its destination is of what was there before its parents were made. -/
theorem withParents_source {x : Path} (hd : d ≠ []) (hnot : s <+: d → s = d) :
    withParents view d.dropLast (s ++ x) = view (s ++ x) := by
  apply withParents_of_not_above
  intro habove
  have hs : s <+: d := (List.prefix_append s x).trans (habove.trans (List.dropLast_prefix d))
  rw [hnot hs] at habove
  exact not_prefix_dropLast hd x habove

/-- A copy of these things is the common one. -/
private theorem put_eq (copyView : FileView Str) (hcopy : ∀ x, copyView x = view (s ++ x)) :
    (fun q => if d <+: q then copyView (q.drop d.length) else withParents view d.dropLast q) = Common.put view s d := by
  funext q
  unfold Common.put
  rw [hcopy]

/-- So it is once the source is gone, if it is outside of the source. -/
private theorem put_gone_eq (copyView : FileView Str) (hcopy : ¬s <+: d → ∀ x, copyView x = view (s ++ x)) :
    (fun q => if s <+: q then none
      else if d <+: q then copyView (q.drop d.length) else withParents view d.dropLast q) =
      fun q => if s <+: q then none else Common.put view s d q := by
  funext q
  by_cases hs : s <+: q
  · rw [if_pos hs, if_pos hs]
  · rw [if_neg hs, if_neg hs]
    unfold Common.put
    by_cases hd : d <+: q
    · rw [if_pos hd, if_pos hd, hcopy fun habove => hs (habove.trans hd)]
    · rw [if_neg hd, if_neg hd]

/-- Where the copy is made, the source's name is there to be deleted, or its directory is gone. -/
private theorem source_found (copyView : FileView Str) (hsome : view s ≠ none)
    (hcopy : s <+: d → s = d → copyView [] ≠ none) (hcopy' : ¬s <+: d → ∀ x, copyView x = view (s ++ x))
    (hinto : ∀ r, r ≠ [] → s = d ++ r → view (s ++ r.dropLast) ≠ none → view (s ++ r) ≠ none) :
    let after : FileView Str := fun q => if d <+: q then copyView (q.drop d.length) else withParents view d.dropLast q
    after s.dropLast = none ∨ after s ≠ none := by
  intro after
  by_cases hbelow : d <+: s
  · obtain ⟨r, rfl⟩ := hbelow
    by_cases hr : r = []
    · right
      subst hr
      show (if d <+: d ++ [] then _ else _) ≠ none
      rw [if_pos (List.prefix_append d []), List.drop_left]
      exact hcopy (by simp) (by simp)
    · have hnot : ¬d ++ r <+: d := by
        intro h
        have hlen := h.length_le
        have hpos : 0 < r.length := List.length_pos_of_ne_nil hr
        rw [List.length_append] at hlen
        omega
      have hparent : after (d ++ r).dropLast = view (d ++ r ++ r.dropLast) := by
        show (if d <+: (d ++ r).dropLast then _ else _) = _
        rw [List.dropLast_append_of_ne_nil hr, if_pos (List.prefix_append d _), List.drop_left, hcopy' hnot]
      have hself : after (d ++ r) = view (d ++ r ++ r) := by
        show (if d <+: d ++ r then _ else _) = _
        rw [if_pos (List.prefix_append d r), List.drop_left, hcopy' hnot]
      rw [hparent, hself]
      by_cases hfree : view (d ++ r ++ r.dropLast) = none
      · exact .inl hfree
      · exact .inr (hinto r hr rfl hfree)
  · right
    show (if d <+: s then _ else _) ≠ none
    rw [if_neg hbelow, withParents_ne_none hsome]
    exact hsome

/-- Where the providers agree on a `mkdir`, no file is further up than the parent. -/
private theorem mkdir_agreed {path : Str} {recursive : Bool} (h : Agreed view (.mkdir path recursive)) :
    recursive = true ∨ ¬Blocked view (normalizePath path).dropLast.dropLast := by
  obtain ⟨hsame, hclear⟩ := h
  rw [hsame]
  cases recursive with
  | true => exact .inl rfl
  | false => exact .inr hclear

namespace InMemory

variable {root made : InMemory} {path src dest : Str}

/-- The copy at its destination. -/
private theorem stores_put (hmade : StoresView Utf8.encode made (withParents view d.dropLast)) (hclosed : Closed view)
    (hd : d ≠ [])
    (hblocked : ¬Blocked view d.dropLast) (hsome : view s ≠ none) (srcNode : NamedTree Name (FileData List.length)) :
    StoresView Utf8.encode (putCopy made srcNode s d hd) fun q =>
      if d <+: q then withParents view d.dropLast (s ++ q.drop d.length) else withParents view d.dropLast q := by
  have hthere : withParents view d.dropLast s ≠ none := by
    rw [withParents_ne_none hsome]
    exact hsome
  obtain ⟨u, hu⟩ := Option.isSome_iff_exists.1 (find_isSome_of_view_ne_none fun h => hthere (hmade.eq_none_iff.1 h))
  have hfound : resolve made s = some u := hu
  rw [putCopy, hfound, Option.getD_some, deepCopy_eq]
  refine hmade.put hd (parents_made hclosed hblocked) u (fun x => withParents view d.dropLast (s ++ x)) ?_
    (fun cs _ k => lookup_assign cs _ _ k) fun cs _ hcs => distinct_assign hcs (hmade.distinct.of_find hu)
  intro x
  rw [← view_append_of_find hu, hmade.view_eq]

/-- The end of a move, where there is something to delete. -/
private theorem stores_removeOld (h : StoresView Utf8.encode root view) (hs : s ≠ [])
    (hthere : view s.dropLast = none ∨ view s ≠ none) :
    (removeOld Name.text root s hs).2 = none ∧
      StoresView Utf8.encode (removeOld Name.text root s hs).1 fun q => if s <+: q then none else view q := by
  have hlast : s.dropLast ++ [s.getLast hs] = s := List.dropLast_append_getLast hs
  unfold removeOld
  cases hparent : resolve root s.dropLast with
  | none =>
    have hnone : view s.dropLast = none := h.eq_none_iff.1 (view_eq_none_iff.2 hparent)
    have hsame : (fun q => if s <+: q then none else view q) = view := by
      funext q
      split
      · next hq =>
        obtain ⟨x, rfl⟩ := (List.dropLast_prefix s).trans hq
        by_cases hx : x = []
        · rw [hx, List.append_nil, hnone]
        · rw [h.closed.below (by rw [hnone]; simp) hx]
      · rfl
    rw [hsame]
    exact ⟨rfl, h⟩
  | some parent =>
    have hsome : view s ≠ none := by
      rcases hthere with hnone | hsome
      · rw [← h.eq_none_iff, view_eq_none_iff] at hnone
        rw [resolve, hnone] at hparent
        cases hparent
      · exact hsome
    have hfind : parent.find [s.getLast hs] ≠ none := by
      rw [Ne, ← view_eq_none_iff, ← view_append_of_find hparent, hlast, h.eq_none_iff]
      exact hsome
    simp only [Option.isNone_iff_eq_none, if_neg hfind]
    exact ⟨trivial, h.drop hs⟩

private theorem writeFile_eq (h : StoresView Utf8.encode root view) (path : Str) {content : Content}
    (hcontent : Utf8.encode content.decoded = content.raw) :
    (writeFile root path content.raw).2 = (Common.writeFile view path content).2 ∧
      StoresView Utf8.encode (writeFile root path content.raw).1 (Common.writeFile view path content).1 := by
  have hfile : (FileData.ofText Utf8.encode content.decoded : FileData List.length) =
      { content := content.raw, size := content.raw.length, size_eq := rfl } := by
    unfold FileData.ofText
    simp only [hcontent]
  rw [writeFile, ← hfile]
  exact h.writeNode_eq path content

private theorem remove_eq (h : StoresView Utf8.encode root view) (path : Str) (recursive : Bool)
    (hnorm : normalizePath path ≠ []) :
    (remove root path recursive).2 = (Common.remove view path recursive).2 ∧
      StoresView Utf8.encode (remove root path recursive).1 (Common.remove view path recursive).1 := by
  unfold remove
  rw [dif_neg hnorm]
  exact h.removeNode_eq path recursive hnorm

theorem copy_eq (h : StoresView Utf8.encode root view) (src dest : Str)
    (hfits : view (normalizePath src) ≠ none → normalizePath dest ≠ [] → ¬Blocked view (normalizePath dest).dropLast →
      CopyFits view (normalizePath src) (normalizePath dest)) :
    (copy root src dest).2 = (Common.copy view src dest).2 ∧
      StoresView Utf8.encode (copy root src dest).1 (Common.copy view src dest).1 := by
  unfold copy copyAt Common.copy
  generalize normalizePath src = s at hfits ⊢
  generalize normalizePath dest = d at hfits ⊢
  rcases h.transfer_cases dest s d with
    ⟨hnone, hfound⟩ | ⟨hsome, srcNode, hfound, hd | ⟨hd, hblocked, made, hrun, hmade⟩ | ⟨hd, hblocked, made, hrun, hmade⟩⟩
  · simp only [hfound, if_pos hnone]
    exact ⟨trivial, h⟩
  · simp only [hfound, if_neg hsome, dif_pos hd, if_pos hd]
    exact ⟨trivial, h⟩
  · simp only [hfound, if_neg hsome, dif_neg hd, if_neg hd, hrun, if_pos hblocked]
    exact ⟨trivial, hmade⟩
  · simp only [hfound, if_neg hsome, dif_neg hd, if_neg hd, hrun, if_neg hblocked]
    refine ⟨trivial, ?_⟩
    have hput := stores_put hmade h.closed hd hblocked hsome srcNode
    have hcopy : ∀ x, withParents view d.dropLast (s ++ x) = view (s ++ x) := by
      intro x
      rcases hfits hsome hd hblocked with ⟨-, hroot, -⟩ | ⟨hnot, -⟩
      · rw [hroot, withParents_nil]
      · exact withParents_source hd hnot
    rw [put_eq (fun x => withParents view d.dropLast (s ++ x)) hcopy] at hput
    exact hput

private theorem move_eq (h : StoresView Utf8.encode root view) (src dest : Str) (hs : normalizePath src ≠ [])
    (hfits : view (normalizePath src) ≠ none → normalizePath dest ≠ [] → ¬Blocked view (normalizePath dest).dropLast →
      MoveFits view (normalizePath src) (normalizePath dest)) :
    (move root src dest).2 = (Common.move view src dest).2 ∧
      StoresView Utf8.encode (move root src dest).1 (Common.move view src dest).1 := by
  unfold move moveAt Common.move
  generalize normalizePath src = s at hs hfits ⊢
  generalize normalizePath dest = d at hfits ⊢
  simp only [dif_neg hs, if_neg hs]
  rcases h.transfer_cases dest s d with
    ⟨hnone, hfound⟩ | ⟨hsome, srcNode, hfound, hd | ⟨hd, hblocked, made, hrun, hmade⟩ | ⟨hd, hblocked, made, hrun, hmade⟩⟩
  · simp only [hfound, if_pos hnone]
    exact ⟨trivial, h⟩
  · simp only [hfound, if_neg hsome, dif_pos hd, if_pos hd]
    exact ⟨trivial, h⟩
  · simp only [hfound, if_neg hsome, dif_neg hd, if_neg hd, hrun, if_pos hblocked]
    exact ⟨trivial, hmade⟩
  · simp only [hfound, if_neg hsome, dif_neg hd, if_neg hd, hrun, if_neg hblocked]
    have hput := stores_put hmade h.closed hd hblocked hsome srcNode
    have hcopy : ¬s <+: d → ∀ x, withParents view d.dropLast (s ++ x) = view (s ++ x) := fun hnot x =>
      withParents_source hd fun hbelow => absurd hbelow hnot
    have hself : s <+: d → s = d → withParents view d.dropLast (s ++ []) ≠ none := by
      intro _ _
      rw [List.append_nil, withParents_ne_none hsome]
      exact hsome
    have hthere := source_found (fun x => withParents view d.dropLast (s ++ x)) hsome hself hcopy
      (hfits hsome hd hblocked).2.2.2
    have hremoved := stores_removeOld hput hs hthere
    rw [put_gone_eq (fun x => withParents view d.dropLast (s ++ x)) hcopy] at hremoved
    exact hremoved

theorem follows : Follows provider (StoresView Utf8.encode) where
  list h _ := h.listNode_eq length_encode _
  readFile {root view path} h _ := by
    have hread := h.readNode_eq Utf8.decode path
    simp only [Utf8.decode_encode] at hread
    exact hread
  stat h _ := h.statNode_eq length_encode _
  exists_ h _ := h.exists_eq _
  getDownloadStream h _ := h.readNode_eq (fun content => [content]) _
  writeFile h hagreed := .of_eq (writeFile_eq h _ hagreed.2.2).1 (writeFile_eq h _ hagreed.2.2).2
  uploadFile {root view path content} h hagreed := by
    have hcontent : Utf8.encode (Content.bytes content).decoded = (Content.bytes content).raw :=
      Utf8.encode_decode_iff.2 hagreed.2.2
    exact .of_eq (writeFile_eq h path hcontent).1 (writeFile_eq h path hcontent).2
  mkdir {root view path recursive} h hagreed := by
    obtain ⟨herror, hstores⟩ := h.makeDirectory_eq path recursive (mkdir_agreed hagreed)
    exact .of_eq herror hstores
  remove {root view path recursive} h hagreed := by
    obtain ⟨hsame, hroot, -⟩ := hagreed
    obtain ⟨herror, hstores⟩ := remove_eq h path recursive (by rwa [hsame])
    exact .of_eq herror hstores
  copy {root view src dest} h hagreed := by
    obtain ⟨hsrc, hdest, -, hmakes⟩ := hagreed
    rw [← hsrc, ← hdest] at hmakes
    obtain ⟨herror, hstores⟩ := copy_eq h src dest fun hsome hd => (hmakes hsome hd).2
    exact .of_eq herror hstores
  move {root view src dest} h hagreed := by
    obtain ⟨hsrc, hdest, hroot, -, hmakes⟩ := hagreed
    rw [← hsrc, ← hdest] at hmakes
    rw [← hsrc] at hroot
    obtain ⟨herror, hstores⟩ := move_eq h src dest hroot fun hsome hd => (hmakes hsome hd).2
    exact .of_eq herror hstores

end InMemory

namespace JsonFile

variable {json : JsonFile} {made : FileTree utf8Length} {path src dest : Str}

/-- The copy at its destination. -/
private theorem stores_putCopy (hmade : StoresView id made view) (hd : d ≠ []) (hparent : view d.dropLast = some .node)
    (hsome : view s ≠ none) (srcNode : NamedTree Name (FileData utf8Length)) :
    StoresView id (putCopy made srcNode s d hd) fun q => if d <+: q then beside view s d (q.drop d.length) else view q := by
  have hremoved := hmade.drop hd
  unfold putCopy
  simp only [deepCopy_eq]
  generalize made.alter (fun children => children.discard (d.getLast hd)) d.dropLast = removed at hremoved ⊢
  obtain ⟨u, hu⟩ := Option.isSome_iff_exists.1 (find_isSome_of_view_ne_none fun h => hsome (hmade.eq_none_iff.1 h))
  have hthere : resolve made s = some u := hu
  -- the copy, and the view of it
  obtain ⟨copy, hcopy, hdistinct, hview⟩ : ∃ copy, (resolve removed s).getD ((resolve made s).getD srcNode) = copy ∧
      copy.Distinct ∧ ∀ x, copy.view x = (beside view s d x).map (Kind.map (FileData.ofText id)) := by
    cases hfind : resolve removed s with
    | none =>
      refine ⟨u, by rw [Option.getD_none, hthere, Option.getD_some], hmade.distinct.of_find hu, fun x => ?_⟩
      have hgone := hremoved.eq_none_iff.1 (view_eq_none_iff.2 hfind)
      have hbelow : d <+: s := by
        by_contra hnot
        rw [if_neg hnot] at hgone
        exact hsome hgone
      unfold beside
      rw [if_neg fun h => h.1 hbelow, ← view_append_of_find hu, hmade.view_eq]
    | some v =>
      refine ⟨v, by rw [Option.getD_some], hremoved.distinct.of_find hfind, fun x => ?_⟩
      have hnot : ¬d <+: s := by
        intro hbelow
        have hgone : (node removed).view s = none := by rw [hremoved.eq_none_iff, if_pos hbelow]
        rw [view_eq_none_iff] at hgone
        rw [resolve, hgone] at hfind
        cases hfind
      rw [← view_append_of_find hfind, hremoved.view_eq]
      unfold beside
      by_cases habove : d <+: s ++ x
      · rw [if_pos habove, if_pos ⟨hnot, habove⟩]
      · rw [if_neg habove, if_neg fun h => habove h.2]
  rw [hcopy]
  have hnot : ¬d <+: d.dropLast := by simpa using not_prefix_dropLast hd []
  have hparent' : (fun q => if d <+: q then none else view q) d.dropLast = some .node := by
    simp only [if_neg hnot, hparent]
  have hnew : ∀ cs, (node removed).find d.dropLast = some (node cs) → cs.lookup (d.getLast hd) = none := by
    intro cs hcs
    have hlast : (node cs).view [d.getLast hd] = none := by
      rw [← view_append_of_find hcs, List.dropLast_append_getLast hd, hremoved.eq_none_iff, if_pos (List.prefix_refl d)]
    rw [view_node_cons] at hlast
    cases hlookup : cs.lookup (d.getLast hd) with
    | none => rfl
    | some t => simp [hlookup, NamedTree.view] at hlast
  have hput := hremoved.put hd hparent' copy (beside view s d) hview
    (fun cs hcs k => lookup_append_new (hnew cs hcs) copy k) fun cs hcs h =>
    distinct_append_new h (hnew cs hcs) hdistinct
  have hsame : (fun q => if d <+: q then beside view s d (q.drop d.length) else if d <+: q then none else view q) =
      fun q => if d <+: q then beside view s d (q.drop d.length) else view q := by
    funext q
    split <;> rfl
  rw [← hsame]
  exact hput

/-- The end of a move. -/
private theorem stores_removeOld {root : FileTree utf8Length} (h : StoresView id root view) (hs : s ≠ []) :
    StoresView id (removeOld root s hs) fun q => if s <+: q then none else view q where
  distinct := by
    unfold removeOld
    split
    · exact h.distinct
    · exact (h.drop hs).distinct
  view_eq p := by
    rw [view_removeOld, h.view_eq]
    split <;> rfl

private theorem writeFile_eq (h : StoresView id json.root view) (path : Str) (content : Content) :
    (writeFile json path content).2 = (Common.writeFile view path content).2 ∧
      StoresView id (writeFile json path content).1.root (Common.writeFile view path content).1 := by
  obtain ⟨herror, hstores⟩ := h.writeNode_eq path content
  have hfile : (FileData.ofText id content.decoded : FileData utf8Length) =
      { content := content.decoded, size := utf8Length content.decoded, size_eq := rfl } := rfl
  rw [hfile] at herror hstores
  unfold writeFile
  simp only
  rcases hrun : writeNode json.root (normalizePath path) path _ with ⟨root, error⟩
  rw [hrun] at herror hstores
  cases error with
  | none => exact ⟨herror, hstores⟩
  | some e => exact ⟨herror, hstores⟩

private theorem mkdir_eq (h : StoresView id json.root view) (path : Str) (recursive : Bool)
    (hagreed : recursive = true ∨ ¬Blocked view (normalizePath path).dropLast.dropLast) :
    (mkdir json path recursive).2 = (Common.mkdir view path recursive).2 ∧
      StoresView id (mkdir json path recursive).1.root (Common.mkdir view path recursive).1 := by
  obtain ⟨herror, hstores⟩ := h.makeDirectory_eq path recursive hagreed
  refine ⟨herror, ?_⟩
  unfold mkdir
  simp only
  split
  · exact hstores
  · exact hstores

private theorem remove_eq (h : StoresView id json.root view) (path : Str) (recursive : Bool)
    (hnorm : normalizePath path ≠ []) :
    (remove json path recursive).2 = (Common.remove view path recursive).2 ∧
      StoresView id (remove json path recursive).1.root (Common.remove view path recursive).1 := by
  obtain ⟨herror, hstores⟩ := h.removeNode_eq path recursive hnorm
  unfold remove
  simp only [dif_neg hnorm]
  cases hrun : removeNode json.root (normalizePath path) path recursive hnorm with
  | mk root error =>
    rw [hrun] at herror hstores
    cases error with
    | none => exact ⟨herror, hstores⟩
    | some e => exact ⟨herror, hstores⟩

theorem copy_eq (h : StoresView id json.root view) (src dest : Str)
    (hfits : view (normalizePath src) ≠ none → normalizePath dest ≠ [] → ¬Blocked view (normalizePath dest).dropLast →
      CopyFits view (normalizePath src) (normalizePath dest)) :
    (copy json src dest).2 = (Common.copy view src dest).2 ∧
      StoresView id (copy json src dest).1.root (Common.copy view src dest).1 := by
  unfold copy copyAt Common.copy
  generalize normalizePath src = s at hfits ⊢
  generalize normalizePath dest = d at hfits ⊢
  rcases h.transfer_cases dest s d with
    ⟨hnone, hfound⟩ | ⟨hsome, srcNode, hfound, hd | ⟨hd, hblocked, made, hrun, hmade⟩ | ⟨hd, hblocked, made, hrun, hmade⟩⟩
  · simp only [hfound, if_pos hnone]
    exact ⟨trivial, h⟩
  · simp only [hfound, if_neg hsome, dif_pos hd, if_pos hd]
    exact ⟨trivial, h⟩
  · simp only [hfound, if_neg hsome, dif_neg hd, if_neg hd, hrun, if_pos hblocked]
    exact ⟨trivial, hmade⟩
  · simp only [hfound, if_neg hsome, dif_neg hd, if_neg hd, hrun, if_neg hblocked]
    refine ⟨trivial, ?_⟩
    have hthere : withParents view d.dropLast s ≠ none := by
      rw [withParents_ne_none hsome]
      exact hsome
    have hput := stores_putCopy hmade hd (parents_made h.closed hblocked) hthere srcNode
    have hcopy : ∀ x, beside (withParents view d.dropLast) s d x = view (s ++ x) := by
      intro x
      rcases hfits hsome hd hblocked with ⟨rfl, hroot, hempty⟩ | ⟨hnot, -⟩
      · rw [hroot, withParents_nil, List.nil_append]
        unfold beside
        rw [List.nil_append]
        split
        · next h =>
          have hx : x ≠ [] := by
            rintro rfl
            exact hd (List.prefix_nil.1 h.2)
          rw [hempty x hx]
        · rfl
      · rw [beside_eq hnot, withParents_source hd hnot]
    rw [put_eq (beside (withParents view d.dropLast) s d) hcopy] at hput
    exact hput

private theorem move_eq (h : StoresView id json.root view) (src dest : Str) :
    (move json src dest).2 = (Common.move view src dest).2 ∧
      StoresView id (move json src dest).1.root (Common.move view src dest).1 := by
  unfold move moveAt Common.move
  generalize normalizePath src = s
  generalize normalizePath dest = d
  by_cases hs : s = []
  · simp only [dif_pos hs, if_pos hs]
    exact ⟨trivial, h⟩
  simp only [dif_neg hs, if_neg hs]
  rcases h.transfer_cases dest s d with
    ⟨hnone, hfound⟩ | ⟨hsome, srcNode, hfound, hd | ⟨hd, hblocked, made, hrun, hmade⟩ | ⟨hd, hblocked, made, hrun, hmade⟩⟩
  · simp only [hfound, if_pos hnone]
    exact ⟨trivial, h⟩
  · simp only [hfound, if_neg hsome, dif_pos hd, if_pos hd]
    exact ⟨trivial, h⟩
  · simp only [hfound, if_neg hsome, dif_neg hd, if_neg hd, hrun, if_pos hblocked]
    exact ⟨trivial, hmade⟩
  · simp only [hfound, if_neg hsome, dif_neg hd, if_neg hd, hrun, if_neg hblocked]
    refine ⟨trivial, ?_⟩
    have hthere : withParents view d.dropLast s ≠ none := by
      rw [withParents_ne_none hsome]
      exact hsome
    have hput := stores_putCopy hmade hd (parents_made h.closed hblocked) hthere srcNode
    have hcopy : ¬s <+: d → ∀ x, beside (withParents view d.dropLast) s d x = view (s ++ x) := by
      intro hnot x
      have hnot' : s <+: d → s = d := fun hbelow => absurd hbelow hnot
      rw [beside_eq hnot', withParents_source hd hnot']
    have hremoved := stores_removeOld hput hs
    rw [put_gone_eq (beside (withParents view d.dropLast) s d) hcopy] at hremoved
    exact hremoved

theorem follows : Follows provider fun json view => StoresView id json.root view where
  list h _ := h.listNode_eq (fun _ => rfl) _
  readFile h _ := h.readNode_eq id _
  stat h _ := h.statNode_eq (fun _ => rfl) _
  exists_ h _ := h.exists_eq _
  getDownloadStream h _ := h.readNode_eq (fun content => [Utf8.encode content]) _
  writeFile h _ := .of_eq (writeFile_eq h _ _).1 (writeFile_eq h _ _).2
  uploadFile h _ := .of_eq (writeFile_eq h _ _).1 (writeFile_eq h _ _).2
  mkdir {json view path recursive} h hagreed := by
    obtain ⟨herror, hstores⟩ := mkdir_eq h path recursive (mkdir_agreed hagreed)
    exact .of_eq herror hstores
  remove {json view path recursive} h hagreed := by
    obtain ⟨hsame, hroot, -⟩ := hagreed
    obtain ⟨herror, hstores⟩ := remove_eq h path recursive (by rwa [hsame])
    exact .of_eq herror hstores
  copy {json view src dest} h hagreed := by
    obtain ⟨hsrc, hdest, -, hmakes⟩ := hagreed
    rw [← hsrc, ← hdest] at hmakes
    obtain ⟨herror, hstores⟩ := copy_eq h src dest fun hsome hd => (hmakes hsome hd).2
    exact .of_eq herror hstores
  move h _ := .of_eq (move_eq h _ _).1 (move_eq h _ _).2

end JsonFile

end CliServer
