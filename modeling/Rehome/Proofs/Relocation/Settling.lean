import Rehome.Proofs.Relocation.SecondRun

/-!
# Entries of a moved tree settle

After a tree was moved as a whole, the one pair of prefixes leads from each place in the old tree to
the same place in the new one. So an entry that has been relocated once comes out of a second run
as it went in (`renewed_renewed_of_moved_tree`): that run only drops the repetitions which the first
has brought about, and from then on nothing changes (`relocated_settles`).
-/

namespace Rehome.Batch

open Location Rpath Rehome.Path

section

variable {binaries : List Path}

theorem separated_ofMovedTree {oldRoot newRoot : Path} (h : ¬ oldRoot.text <+: newRoot.text)
    (h' : ¬ newRoot.text <+: oldRoot.text) :
    (ofMovedTree binaries oldRoot newRoot).substitution.Separated := by
  intro rule hr other ho _
  obtain rfl := List.mem_singleton.1 hr
  obtain rfl := List.mem_singleton.1 ho
  exact ⟨h, h'⟩

theorem markless_ofMovedTree {oldRoot newRoot : Path} (h : newRoot.isAbsolute = true) :
    (ofMovedTree binaries oldRoot newRoot).substitution.Markless := by
  intro rule hr
  obtain rfl := List.mem_singleton.1 hr
  rw [of_decide_eq_true h]
  decide

variable [Path.Router Char]

section

variable {b : Batch} {root binary : Path} {entries out : List Text}
  (hs : b.style = .relative) (hr : b.move.newRoot? = some root) (hb : binary.isAbsolute = true)

include hs hr hb

/-- Every relocated entry is what becomes of one of the entries. -/
theorem exists_of_mem_relocated (ho : b.relocated binary entries = .ok out) :
    ∀ o ∈ out, ∃ e ∈ entries, b.renewed root binary e = o := by
  rw [relocated_of_relative hs hr, anchor, if_pos hb] at ho
  cases ho
  intro o hmem
  obtain ⟨x, hx, rfl⟩ := List.mem_map.1 hmem
  obtain ⟨y, hy, rfl⟩ := Substitution.mem_replaceAll.1 hx
  obtain ⟨e, he, rfl⟩ := List.mem_map.1 hy
  exact ⟨e, he, rfl⟩

/-- From settled entries only the repetitions are dropped. -/
theorem relocated_of_settled (h : ∀ o ∈ out, b.renewed root binary o = o) :
    b.relocated binary out = .ok out.eraseDups := by
  let replaced := b.substitution.replace ∘ expandEntry (b.move.undo binary)
  -- entries that come out as they were have not become alike on the way
  have hinj : ∀ x ∈ out, ∀ y ∈ out, replaced x = replaced y → x = y := by
    intro x hx y hy hxy
    rw [← h x hx, ← h y hy]
    exact congrArg (anchorEntry binary root) hxy
  have hout : out.eraseDups.map (anchorEntry binary root ∘ replaced) = out.eraseDups := by
    refine (List.map_congr_left fun o ho => ?_).trans (List.map_id _)
    exact h o (List.mem_eraseDups.1 ho)
  rw [relocated_of_relative hs hr, anchor, if_pos hb, expand, Substitution.replaceAll,
    List.map_map, eraseDups_map hinj, List.map_map, hout]

end

/-- What is written relative to a binary of a moved tree comes out as it was. -/
theorem renewed_anchorEntry_of_moved_tree {old new inner : Location} (ho : Named old)
    (hne : old ≠ []) (hn : Named new) (hi : Named inner) (hine : inner ≠ []) {x : Text}
    (hl : liesBelow new.toPath x = true) :
    let b := ofMovedTree binaries old.toPath new.toPath
    let binary := toPath (new ++ inner)
    b.renewed new.toPath binary (anchorEntry binary new.toPath x)
      = anchorEntry binary new.toPath x := by
  intro b binary
  have hb : binary.isAbsolute = true := isAbsolute_toPath _
  have hua : (b.move.undo binary).isAbsolute = true :=
    isAbsolute_undo_ofMovedTree binaries hn hi hine old
  have ha := isAbsolute_of_liesBelow hl
  obtain ⟨rest, hrest, hloc⟩ := exists_resolve_of_liesBelow (isAbsolute_toPath new) hl
  rw [resolve_toPath hn] at hloc
  simp only [ofText_char] at ha hloc
  -- before the move it led to the same place in the old tree
  have hthen : expandEntry (b.move.undo binary) (anchorEntry binary new.toPath x)
      = (toPath (old ++ rest)).text := by
    rw [expandEntry_eq hua, if_pos (isSome_afterMarker?_anchorEntry hb hl)]
    exact denote_undo_anchorEntry ho hn hi hine hrest ha hloc
  -- and the prefixes lead from there to the place in the new tree that it was written for
  have hthere : (Path.mk (new.toPath.text ++ tail rest)).normalize = (Path.mk x).normalize := by
    have ha' := isAbsolute_append (isAbsolute_toPath new) (tail rest)
    rw [normalize_of_isAbsolute ha', normalize_of_isAbsolute ha, hloc,
      resolve_append_tail hn hrest]
  rw [renewed, hthen, replace_ofMovedTree hne]
  exact anchorEntry_congr hb (isAbsolute_append (isAbsolute_toPath new) (tail rest)) hl hthere

/-- In a moved tree an entry is settled once it has been relocated. -/
theorem renewed_renewed_of_moved_tree {old new inner : Location} (ho : Named old) (hn : Named new)
    (hi : Named inner) (hine : inner ≠ []) (h : ¬ old.toPath.text <+: new.toPath.text)
    (h' : ¬ new.toPath.text <+: old.toPath.text) (entry : Text) :
    let b := ofMovedTree binaries old.toPath new.toPath
    let binary := toPath (new ++ inner)
    b.renewed new.toPath binary (b.renewed new.toPath binary entry)
      = b.renewed new.toPath binary entry := by
  intro b binary
  have hsep : b.substitution.Separated := separated_ofMovedTree h h'
  obtain ⟨x, hx⟩ : ∃ x, b.substitution.replace (expandEntry (b.move.undo binary) entry) = x :=
    ⟨_, rfl⟩
  have hout : b.renewed new.toPath binary entry = anchorEntry binary new.toPath x := by
    rw [renewed, hx]
  cases hl : liesBelow new.toPath x with
  | false =>
    rw [anchorEntry_of_not_liesBelow hl] at hout
    have hmark : afterMarker? x = none := by
      have hua := isAbsolute_undo_ofMovedTree binaries hn hi hine old
      have hplain := afterMarker?_expandEntry hua entry
      rw [← hx]
      exact afterMarker?_replace hsep (markless_ofMovedTree rfl) hplain
    rw [hout]
    exact renewed_of_unmarked (isAbsolute_toPath _) hsep hout hmark
  | true =>
    have hne : old ≠ [] := by
      rintro rfl
      exact h ⟨_, rfl⟩
    rw [hout]
    exact renewed_anchorEntry_of_moved_tree ho hne hn hi hine hl

/-- In a moved tree a second run only drops repetitions, and a third changes nothing. -/
theorem relocated_settles {oldRoot newRoot binary : Path} (binaries : List Path)
    (ho : oldRoot.isAbsolute = true) (hon : oldRoot.normalize = oldRoot)
    (hn : newRoot.isAbsolute = true) (hnn : newRoot.normalize = newRoot)
    (h : ¬ oldRoot.text <+: newRoot.text) (h' : ¬ newRoot.text <+: oldRoot.text)
    (hb : binary.startsWith newRoot = true) (hbn : binary.normalize = binary)
    (hbr : binary ≠ newRoot) (entries : List Text) :
    let b := ofMovedTree binaries oldRoot newRoot
    ∃ out, b.relocated binary entries = .ok out
      ∧ b.relocated binary out = .ok out.eraseDups
      ∧ b.relocated binary out.eraseDups = .ok out.eraseDups := by
  intro b
  obtain ⟨old, hold, rfl⟩ := exists_toPath ho hon
  obtain ⟨new, inner, hnew, hi, hine, rfl, rfl⟩ := exists_toPath_below hn hnn hb hbn hbr
  have habs := isAbsolute_toPath (new ++ inner)
  have hout := relocated_of_relative (b := b) rfl rfl (toPath (new ++ inner)) entries
  refine ⟨_, hout, ?_⟩
  have hsettled : ∀ o ∈ anchor (toPath (new ++ inner)) new.toPath (b.substitution.replaceAll
      (expand (b.move.undo (toPath (new ++ inner))) entries)),
      b.renewed new.toPath (toPath (new ++ inner)) o = o := by
    intro o hmem
    obtain ⟨e, -, rfl⟩ := exists_of_mem_relocated rfl rfl habs hout o hmem
    exact renewed_renewed_of_moved_tree hold hnew hi hine h h' e
  refine ⟨relocated_of_settled rfl rfl habs hsettled, ?_⟩
  have hagain := relocated_of_settled (b := b) rfl rfl habs fun o hmem =>
    hsettled o (List.mem_eraseDups.1 hmem)
  rwa [eraseDups_of_nodup (nodup_eraseDups _)] at hagain

end

/-- Two spellings of a library beside the tool, a path that leaves the old root, a directory whose
name goes on behind that of the old root, and a relative path. -/
theorem relocated_settles_of_spellings :
    let oldRoot : Path := ⟨"/tmp/old".toList⟩
    let newRoot : Path := ⟨"/opt/new".toList⟩
    let binary : Path := ⟨"/opt/new/bin/tool".toList⟩
    let b := ofMovedTree [binary] oldRoot newRoot
    let entries := ["/opt/new//lib".toList, "$ORIGIN/../lib".toList, "/tmp/old/../lib".toList,
      "/tmp/old.1/lib".toList, "lib".toList]
    let out := ["$ORIGIN/../lib".toList, "$ORIGIN/../lib".toList, "/opt/new/../lib".toList,
      "/opt/new.1/lib".toList, "lib".toList]
    (oldRoot.isAbsolute = true ∧ oldRoot.normalize = oldRoot ∧ newRoot.isAbsolute = true
      ∧ newRoot.normalize = newRoot ∧ ¬ oldRoot.text <+: newRoot.text
      ∧ ¬ newRoot.text <+: oldRoot.text ∧ binary.startsWith newRoot = true
      ∧ binary.normalize = binary ∧ binary ≠ newRoot)
    ∧ b.relocated binary entries = .ok out
    ∧ b.relocated binary out = .ok out.eraseDups
    ∧ b.relocated binary out.eraseDups = .ok out.eraseDups := by
  intro oldRoot newRoot binary b entries out
  have hout : b.relocated binary entries = .ok out := by decide +kernel
  have hp : ¬ oldRoot.text <+: newRoot.text := by decide
  have hp' : ¬ newRoot.text <+: oldRoot.text := by decide
  have hb : binary.startsWith newRoot = true := by decide
  obtain ⟨out', hout', hagain⟩ := relocated_settles [binary] (by decide) (by decide) (by decide)
    (by decide) hp hp' hb (by decide) (by decide) entries
  obtain rfl : out = out' := Except.ok.inj (hout.symm.trans hout')
  exact ⟨⟨by decide, by decide, by decide, by decide, hp, hp', hb, by decide, by decide⟩,
    hout, hagain⟩

end Rehome.Batch
