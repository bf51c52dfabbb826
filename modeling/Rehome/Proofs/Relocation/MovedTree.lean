import Rehome.Proofs.Data.Repetition
import Rehome.Proofs.Path.Below
import Rehome.Proofs.Rpath.Denotation
import Rehome.Relocation.Batch

/-!
# Moving a whole tree

When a tree is moved as a whole, entries of its binaries that lead to places in it need no change:
what relocation writes for them at the new place is what could have been written, with the marker,
at the old place before the move (`relocated_of_moved_tree`).
-/

namespace Rehome

open Location Rehome.Path

namespace Rpath

variable {start root : Path} {entry : Text} {base inner rest : Location}

section

variable [Path.Router Char]

/-- How an entry is written with the marker depends only on where it and the binary are below the
root, and not on where the root is. -/
theorem anchorEntry_of_locations (hs : start.isAbsolute = true) (hr : root.isAbsolute = true)
    (he : (Path.mk entry).isAbsolute = true) (hroot : root.resolve [] = base)
    (hstart : start.resolve [] = base ++ inner) (hne : inner ≠ [])
    (hentry : (Path.mk entry).resolve [] = base ++ rest) :
    anchorEntry start root entry = markRoute (route inner.dropLast rest) := by
  have hl : liesBelow root entry = true := by
    rw [liesBelow, ofText_char, he, Bool.true_and, liesUnder_iff he hr, hroot, hentry]
    exact List.prefix_append base rest
  rw [anchorEntry_of_liesBelow hs hl, routeTo, ofText_char, hstart, hentry,
    List.dropLast_append_of_ne_nil hne, route_append]

end

/-- An entry that is marked, or absolute and in normal form, is expanded to the path of a
location. -/
theorem exists_expandEntry (hs : start.isAbsolute = true)
    (h : (afterMarker? entry).isSome = true
      ∨ (Path.mk entry).isAbsolute = true ∧ (Path.mk entry).normalize = ⟨entry⟩) :
    ∃ loc, Named loc ∧ expandEntry start entry = loc.toPath.text := by
  rcases h with hm | ⟨ha, hn⟩
  · obtain ⟨tail, ht⟩ := Option.isSome_iff_exists.1 hm
    exact ⟨_, named_placeBehind hs tail, expandEntry_of_afterMarker? hs ht⟩
  · obtain ⟨loc, hl, e⟩ := exists_toPath ha hn
    refine ⟨loc, hl, ?_⟩
    rw [expandEntry_of_none (afterMarker?_of_isAbsolute ha), ← e]

end Rpath

theorem Substitution.replace_ofList_singleton {old new rest : Text} (h : old ≠ []) :
    Substitution.replace (.ofList [(old, new)]) (old ++ rest) = new ++ rest := by
  have ha : applies old (old ++ rest) = true := applies_iff.2 ⟨h, List.prefix_append old rest⟩
  have hp : (OrderedMap.ofList [(old, new)] : Substitution).pairs = [(old, new)] := rfl
  simp [replace, replace?, rule?, hp, ha]

namespace Batch

open Rpath

/-- A batch that asks for relative entries after a tree was moved as a whole. -/
def ofMovedTree (binaries : List Path) (oldRoot newRoot : Path) : Batch :=
  ⟨binaries, ⟨oldRoot, some newRoot, none, none⟩, .ofList [(oldRoot.text, newRoot.text)], .relative⟩

section

variable {binaries : List Path} {old new inner rest : Location}

theorem undo_ofMovedTree (hn : Named new) (hi : Named inner) (hne : inner ≠ []) :
    (ofMovedTree binaries old.toPath new.toPath).move.undo (toPath (new ++ inner))
      = old.toPath.join ⟨Text.joinWith '/' inner⟩ := by
  have hb := below?_toPath hn hi hne
  simp only [ofMovedTree, Move.undo, Move.target?, Move.source]
  simp [hb]

section

variable (binaries) (ho : Named old) (hn : Named new) (hi : Named inner) (hne : inner ≠ [])

include hn hi hne

theorem isAbsolute_undo_ofMovedTree (old : Location) :
    ((ofMovedTree binaries old.toPath new.toPath).move.undo (toPath (new ++ inner))).isAbsolute
      = true := by
  rw [undo_ofMovedTree hn hi hne, isAbsolute_join, isAbsolute_toPath, Bool.true_or]

include ho

/-- The binary was in the old tree where it is in the new one. -/
theorem steps_undo_ofMovedTree :
    ((ofMovedTree binaries old.toPath new.toPath).move.undo (toPath (new ++ inner))).steps
      = (old ++ inner).map .name := by
  have hrel : (Path.mk (Text.joinWith '/' inner)).isAbsolute = false := isAbsolute_joinWith hi
  have hsteps : (Path.mk (Text.joinWith '/' inner)).steps = inner.map .name :=
    steps_joinWith_names hi
  rw [undo_ofMovedTree hn hi hne, steps_join hrel, steps_toPath ho, hsteps, List.map_append]

theorem resolve_undo_ofMovedTree :
    ((ofMovedTree binaries old.toPath new.toPath).move.undo (toPath (new ++ inner))).resolve []
      = old ++ inner := by
  rw [resolve_of_isAbsolute (isAbsolute_undo_ofMovedTree binaries hn hi hne old),
    steps_undo_ofMovedTree binaries ho hn hi hne, foldl_step_names, List.nil_append]

end

/-- The entry for a place in the old tree is replaced by one for the same place in the new tree. -/
theorem replace_ofMovedTree (hne : old ≠ []) (rest : Location) :
    (ofMovedTree binaries old.toPath new.toPath).substitution.replace (toPath (old ++ rest)).text
      = new.toPath.text ++ tail rest := by
  rw [text_toPath_append hne]
  exact Substitution.replace_ofList_singleton (by simp [toPath])

theorem resolve_append_tail (hn : Named new) (hr : Named rest) :
    (Path.mk (new.toPath.text ++ tail rest)).resolve [] = new ++ rest := by
  rw [resolve_append (isAbsolute_toPath new) (tail_eq_nil_or rest), steps_tail hr,
    foldl_step_names, resolve_toPath hn]

variable [Path.Router Char]

/-- In a moved tree, an entry for a place in the tree is written as at the old place. -/
theorem anchorEntry_replace (ho : Named old) (hne : old ≠ []) (hn : Named new) (hi : Named inner)
    (hine : inner ≠ []) (hr : Named rest) :
    let b := ofMovedTree binaries old.toPath new.toPath
    anchorEntry (toPath (new ++ inner)) new.toPath
        (b.substitution.replace (toPath (old ++ rest)).text)
      = anchorEntry (b.move.undo (toPath (new ++ inner))) old.toPath
        (toPath (old ++ rest)).text := by
  intro b
  have hua := isAbsolute_undo_ofMovedTree binaries hn hi hine old
  have hur := resolve_undo_ofMovedTree binaries ho hn hi hine
  have hnew := anchorEntry_of_locations (isAbsolute_toPath (new ++ inner)) (isAbsolute_toPath new)
    (isAbsolute_append (isAbsolute_toPath new) (tail rest)) (resolve_toPath hn [])
    (resolve_toPath (hn.append hi) []) hine (resolve_append_tail hn hr)
  have hold := anchorEntry_of_locations hua (isAbsolute_toPath old)
    (isAbsolute_toPath (old ++ rest)) (resolve_toPath ho []) hur hine
    (resolve_toPath (ho.append hr) [])
  rw [replace_ofMovedTree hne]
  exact hnew.trans hold.symm

/-- In a moved tree, entries for different places in the tree are written differently. -/
theorem eq_of_anchorEntry_tail (hn : Named new) {l m : Location} (hl : Named l) (hm : Named m)
    (h : anchorEntry (toPath (new ++ inner)) new.toPath (new.toPath.text ++ tail l)
      = anchorEntry (toPath (new ++ inner)) new.toPath (new.toPath.text ++ tail m)) :
    l = m := by
  have hla := isAbsolute_append (isAbsolute_toPath new) (tail l)
  have hma := isAbsolute_append (isAbsolute_toPath new) (tail m)
  have hsame : (Path.mk (new.toPath.text ++ tail l)).normalize
      = (Path.mk (new.toPath.text ++ tail m)).normalize :=
    normalize_eq_of_anchorEntry_eq (isAbsolute_toPath (new ++ inner)) hla hma h
  rw [normalize_of_isAbsolute hla, normalize_of_isAbsolute hma, resolve_append_tail hn hl,
    resolve_append_tail hn hm] at hsame
  exact List.append_cancel_left (toPath_inj (hn.append hl) (hn.append hm) hsame)

theorem relocated_toPath (ho : Named old) (hne : old ≠ []) (hn : Named new) (hi : Named inner)
    (hine : inner ≠ []) {entries : List Text}
    (he : ∀ e ∈ entries, ∃ rest, Named rest
      ∧ expandEntry
          ((ofMovedTree binaries old.toPath new.toPath).move.undo (toPath (new ++ inner))) e
        = (toPath (old ++ rest)).text) :
    let b := ofMovedTree binaries old.toPath new.toPath
    let binary := toPath (new ++ inner)
    b.relocated binary entries
      = .ok (anchor (b.move.undo binary) old.toPath
          (expand (b.move.undo binary) entries)).eraseDups := by
  intro b binary
  have hua := isAbsolute_undo_ofMovedTree binaries hn hi hine old
  have hx : ∀ e ∈ expand (b.move.undo binary) entries, ∃ rest, Named rest
      ∧ e = (toPath (old ++ rest)).text := by
    intro e hm
    obtain ⟨e', hm', rfl⟩ := List.mem_map.1 hm
    exact he e' hm'
  have hsame : ∀ e ∈ expand (b.move.undo binary) entries,
      anchorEntry binary new.toPath (b.substitution.replace e)
        = anchorEntry (b.move.undo binary) old.toPath e := by
    intro e hm
    obtain ⟨rest, hr, rfl⟩ := hx e hm
    exact anchorEntry_replace ho hne hn hi hine hr
  -- so no repetitions arise or vanish on the way from the text of an entry to its marked form
  have hinj : ∀ e ∈ (expand (b.move.undo binary) entries).map b.substitution.replace,
      ∀ e' ∈ (expand (b.move.undo binary) entries).map b.substitution.replace,
      anchorEntry binary new.toPath e = anchorEntry binary new.toPath e' → e = e' := by
    intro e hm e' hm' h
    obtain ⟨_, hx1, rfl⟩ := List.mem_map.1 hm
    obtain ⟨_, hx2, rfl⟩ := List.mem_map.1 hm'
    obtain ⟨l, hl, rfl⟩ := hx _ hx1
    obtain ⟨m, hm, rfl⟩ := hx _ hx2
    rw [replace_ofMovedTree hne, replace_ofMovedTree hne] at h ⊢
    rw [eq_of_anchorEntry_tail hn hl hm h]
  have hmap : (expand (b.move.undo binary) entries).map
        (anchorEntry binary new.toPath ∘ b.substitution.replace)
      = (expand (b.move.undo binary) entries).map
        (anchorEntry (b.move.undo binary) old.toPath) := List.map_congr_left hsame
  rw [relocated_of_relative rfl rfl, anchor, if_pos (isAbsolute_toPath (new ++ inner)), anchor,
    if_pos hua, Substitution.replaceAll, ← eraseDups_map hinj, List.map_map, hmap]

end

/-- The relocated entries of a binary in a moved tree are, up to repetitions, those that would have
been written for it with the marker before the move. -/
theorem relocated_of_moved_tree [Path.Router Char] {oldRoot newRoot binary : Path}
    {entries : List Text} (binaries : List Path) (ho : oldRoot.isAbsolute = true)
    (hon : oldRoot.normalize = oldRoot) (hor : oldRoot ≠ ⟨['/']⟩)
    (hn : newRoot.isAbsolute = true) (hnn : newRoot.normalize = newRoot)
    (hb : binary.startsWith newRoot = true) (hbn : binary.normalize = binary)
    (hbr : binary ≠ newRoot)
    (he : ∀ e ∈ entries, (afterMarker? e).isSome = true
      ∨ (Path.mk e).isAbsolute = true ∧ (Path.mk e).normalize = ⟨e⟩)
    (hu : ∀ e ∈ entries, (Path.mk (expandEntry
      ((ofMovedTree binaries oldRoot newRoot).move.undo binary) e)).startsWith oldRoot = true) :
    let b := ofMovedTree binaries oldRoot newRoot
    let old := b.move.undo binary
    (∃ inner, binary.components = newRoot.components ++ inner
        ∧ old.components = oldRoot.components ++ inner)
      ∧ b.relocated binary entries
        = .ok (anchor old oldRoot (expand old entries)).eraseDups := by
  intro b old
  obtain ⟨lo, hlo, rfl⟩ := exists_toPath ho hon
  obtain ⟨ln, hln, rfl⟩ := exists_toPath hn hnn
  obtain ⟨lb, hlb, rfl⟩ := exists_toPath (isAbsolute_of_startsWith hn hb) hbn
  obtain ⟨inner, rfl⟩ := (startsWith_toPath hlb hln).1 hb
  have hi : Named inner := fun t ht => hlb t (List.mem_append_right ln ht)
  have hine : inner ≠ [] := by
    rintro rfl
    exact hbr (by rw [List.append_nil])
  have hlone : lo ≠ [] := by
    rintro rfl
    exact hor rfl
  have hua := isAbsolute_undo_ofMovedTree binaries hln hi hine lo
  refine ⟨⟨inner.map .name, ?_, ?_⟩, relocated_toPath hlo hlone hln hi hine fun e hm => ?_⟩
  · simp [components_toPath hlb, components_toPath hln, Location.components]
  · rw [components_of_isAbsolute hua, steps_undo_ofMovedTree binaries hlo hln hi hine,
      components_toPath hlo]
    simp [Location.components]
  · obtain ⟨loc, hl, hx⟩ := exists_expandEntry hua (he e hm)
    have hpre := hu e hm
    rw [hx] at hpre
    obtain ⟨rest, rfl⟩ := (startsWith_toPath hl hlo).1 hpre
    exact ⟨rest, fun t ht => hl t (List.mem_append_right lo ht), hx⟩

/-- Entries for the root, the directory of the binary, and twice for a library beside it. -/
theorem relocated_of_moved_tree_of_tool :
    let oldRoot : Path := ⟨"/tmp/old".toList⟩
    let newRoot : Path := ⟨"/".toList⟩
    let binary : Path := ⟨"/pkg/bin/tool".toList⟩
    let entries := ["$ORIGIN/../lib".toList, "/tmp/old".toList, "${ORIGIN}".toList,
      "/tmp/old/pkg/lib".toList]
    let b := ofMovedTree [binary] oldRoot newRoot
    let old := b.move.undo binary
    (oldRoot.isAbsolute = true ∧ oldRoot.normalize = oldRoot ∧ oldRoot ≠ ⟨['/']⟩
      ∧ newRoot.isAbsolute = true ∧ newRoot.normalize = newRoot
      ∧ binary.startsWith newRoot = true ∧ binary.normalize = binary ∧ binary ≠ newRoot
      ∧ (∀ e ∈ entries, (afterMarker? e).isSome = true
        ∨ (Path.mk e).isAbsolute = true ∧ (Path.mk e).normalize = ⟨e⟩)
      ∧ ∀ e ∈ entries, (Path.mk (expandEntry old e)).startsWith oldRoot = true)
    ∧ old = ⟨"/tmp/old/pkg/bin/tool".toList⟩
    ∧ (∃ inner, binary.components = newRoot.components ++ inner
        ∧ old.components = oldRoot.components ++ inner)
    ∧ b.relocated binary entries = .ok (anchor old oldRoot (expand old entries)).eraseDups
    ∧ b.relocated binary entries
      = .ok ["$ORIGIN/../lib".toList, "$ORIGIN/../..".toList, "$ORIGIN".toList] := by
  intro oldRoot newRoot binary entries b old
  have hplaces : (anchor old oldRoot (expand old entries)).eraseDups
      = ["$ORIGIN/../lib".toList, "$ORIGIN/../..".toList, "$ORIGIN".toList] := by decide
  obtain ⟨hinner, hrun⟩ := @relocated_of_moved_tree _ oldRoot newRoot binary entries [binary]
    (by decide) (by decide) (by decide) (by decide) (by decide) (by decide) (by decide) (by decide)
    (by decide) (by decide)
  exact ⟨by decide, by decide, hinner, hrun, by rw [hrun, hplaces]⟩

end Batch

end Rehome
