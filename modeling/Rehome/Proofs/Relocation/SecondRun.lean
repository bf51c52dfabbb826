import Rehome.Proofs.Relocation.MovedTree
import Rehome.Proofs.Rpath.FixedPoint

/-!
# Relocating a relative entry again

A second run takes a marked entry for what it denoted before the move, though the first run has
written it for what it denotes now. So an entry that comes out marked settles just if the
substitution leads from the one place to the other (`Batch.relocated_again_iff`); other entries
settle at once (`Batch.renewed_of_unmarked`).
-/

namespace Rehome

open Location Rpath Rehome.Path

/-- Where a binary was before the move is known from the root if its source is. -/
theorem Move.isAbsolute_undo {m : Move} {binary : Path} (hm : m.source.isAbsolute = true)
    (hb : binary.isAbsolute = true) : (m.undo binary).isAbsolute = true := by
  unfold undo
  split
  · rw [Path.isAbsolute_join, hm, Bool.true_or]
  · exact hb

/-- No new prefix begins like a marker. -/
def Substitution.Markless (m : Substitution) : Prop := ∀ rule ∈ m.pairs, rule.2.head? ≠ some '$'

instance (m : Substitution) : Decidable m.Markless :=
  inferInstanceAs (Decidable (∀ rule ∈ m.pairs, _))

namespace Rpath

variable {m : Substitution} {start : Path} {entry : Text}

theorem afterMarker?_of_head? (h : entry.head? ≠ some '$') : afterMarker? entry = none := by
  rw [Option.eq_none_iff_forall_not_mem]
  intro rest hr
  rcases (afterMarker?_eq_some_iff.1 hr).1 with rfl | rfl <;> exact h rfl

/-- Markless prefixes mark no entry. -/
theorem afterMarker?_replace (hm : m.Separated) (hd : m.Markless)
    (h : afterMarker? entry = none) : afterMarker? (m.replace entry) = none := by
  obtain ⟨-, he⟩ | ⟨rule, hr, rest, hne, -, he⟩ := m.replace_cases entry
  · rw [he, h]
  · rw [he]
    refine afterMarker?_of_head? ?_
    have hnew : rule.2 ≠ [] := fun e => (hm rule hr rule hr hne).2 (by simp [e])
    obtain ⟨c, cs, e⟩ := List.exists_cons_of_ne_nil hnew
    have hc := hd rule hr
    rw [e] at hc ⊢
    exact hc

/-- An entry that is not marked and denotes an absolute path is one. -/
theorem isAbsolute_of_denote (start : Path) (h : afterMarker? entry = none)
    (ha : (Path.mk (denote start entry)).isAbsolute = true) :
    (Path.mk entry).isAbsolute = true := by
  by_contra hn
  simp only [denote, place, h, ofText_char, hn, if_false, toText_char] at ha

end Rpath

namespace Batch

section

variable [Path.Router Char]

/-- An entry of a binary after its relocation to `root`. -/
def renewed (b : Batch) (root binary : Path) (entry : Text) : Text :=
  anchorEntry binary root (b.substitution.replace (expandEntry (b.move.undo binary) entry))

variable {b : Batch} {root binary : Path} {entry out : Text}

theorem relocated_singleton (hs : b.style = .relative) (hr : b.move.newRoot? = some root)
    (hb : binary.isAbsolute = true) (entry : Text) :
    b.relocated binary [entry] = .ok [b.renewed root binary entry] := by
  rw [relocated_of_relative hs hr, anchor, if_pos hb]
  rfl

section

variable (hb : binary.isAbsolute = true) (ho : (b.move.undo binary).isAbsolute = true)
  (hm : b.substitution.Separated) (hout : b.renewed root binary entry = out)

include hm hout

include hb in
/-- An entry that comes out without the marker is settled. -/
theorem renewed_of_unmarked (h : afterMarker? out = none) : b.renewed root binary out = out := by
  cases hl : liesBelow root (b.substitution.replace (expandEntry (b.move.undo binary) entry)) with
  | true =>
    have hmark := isSome_afterMarker?_anchorEntry hb hl
    rw [← renewed, hout, h] at hmark
    cases hmark
  | false =>
    have he : b.substitution.replace (expandEntry (b.move.undo binary) entry) = out :=
      (anchorEntry_of_not_liesBelow hl).symm.trans hout
    rw [renewed, expandEntry_of_none h, ← he, hm.replace_replace]
    exact anchorEntry_of_not_liesBelow hl

variable (hd : b.substitution.Markless) (h : (afterMarker? out).isSome = true)

include hd ho h

/-- If no new prefix begins like a marker, only entries below the root come out marked. -/
theorem liesBelow_of_marked :
    liesBelow root (b.substitution.replace (expandEntry (b.move.undo binary) entry)) = true := by
  by_contra hl
  rw [← hout, renewed, anchorEntry_of_not_liesBelow (Bool.eq_false_iff.2 hl),
    afterMarker?_replace hm hd (afterMarker?_expandEntry ho entry)] at h
  cases h

include hb in
/-- An entry that comes out with the marker is settled just if the place that it denoted before the
move, with its prefix replaced, is the place that it denotes now. -/
theorem renewed_of_marked_iff :
    b.renewed root binary out = out
      ↔ denote binary (b.substitution.replace (denote (b.move.undo binary) out))
        = denote binary out := by
  have hl := liesBelow_of_marked ho hm hout hd h
  have ha : (Path.mk (b.substitution.replace (expandEntry (b.move.undo binary) entry))).isAbsolute
      = true := isAbsolute_of_liesBelow hl
  have hthen : expandEntry (b.move.undo binary) out = denote (b.move.undo binary) out := by
    rw [expandEntry_eq ho, if_pos h]
  have hnow : denote binary out = (Path.mk
      (b.substitution.replace (expandEntry (b.move.undo binary) entry))).normalize.text := by
    rw [← hout, renewed, denote_anchorEntry hb, denote_of_isAbsolute binary ha]
  rw [← hthen]
  constructor
  · intro he
    rw [← denote_anchorEntry hb root, ← renewed, he]
  · intro he
    -- it denoted an absolute path, and any prefix that leads to one is absolute
    have hplain := afterMarker?_replace hm hd (afterMarker?_expandEntry ho out)
    have habs := isAbsolute_of_denote binary hplain (by
      rw [he, hnow, normalize_of_isAbsolute ha]
      rfl)
    rw [denote_of_isAbsolute binary habs, hnow] at he
    exact (anchorEntry_congr hb habs hl (congrArg Path.mk he)).trans hout

end

/-- Before the move of a tree, an entry that is written for a place in the new tree denoted the same
place in the old tree. -/
theorem denote_undo_anchorEntry {old new inner rest : Location} (ho : Named old) (hn : Named new)
    (hi : Named inner) (hine : inner ≠ []) (hr : Named rest)
    (he : (Path.mk entry).isAbsolute = true) (hentry : (Path.mk entry).resolve [] = new ++ rest) :
    let move : Move := ⟨old.toPath, some new.toPath, none, none⟩
    denote (move.undo (toPath (new ++ inner)))
        (anchorEntry (toPath (new ++ inner)) new.toPath entry)
      = (toPath (old ++ rest)).text := by
  intro move
  have hua := isAbsolute_undo_ofMovedTree [] hn hi hine old
  have hur := resolve_undo_ofMovedTree [] ho hn hi hine
  obtain ⟨tail, htail, hsteps⟩ := afterMarker?_markRoute
    (fun c (hc : c ∈ route inner.dropLast rest) => isStep_of_mem_route hr hc)
    fun c _ => Alphabet.isText_char c.text
  rw [anchorEntry_of_locations (isAbsolute_toPath _) (isAbsolute_toPath new) he
    (resolve_toPath hn []) (resolve_toPath (hn.append hi) []) hine hentry]
  have hbehind := placeBehind_eq hua tail
  rw [hur, hsteps, List.dropLast_append_of_ne_nil hine, foldl_step_route] at hbehind
  simp only [denote, place, htail]
  exact congrArg (fun loc => (toPath loc).text) hbehind

/-- An entry that was relocated with its tree is relocated again. If it is not marked it stays. If
it is, it has been written for a place in the new tree, and is now taken for the same place in the
old tree: it stays just if the substitution leads from there to the new tree. -/
theorem relocated_again_iff {oldRoot newRoot binary : Path} {b : Batch} (hs : b.style = .relative)
    (hmove : b.move = ⟨oldRoot, some newRoot, none, none⟩)
    (ho : oldRoot.isAbsolute = true) (hon : oldRoot.normalize = oldRoot)
    (hn : newRoot.isAbsolute = true) (hnn : newRoot.normalize = newRoot)
    (hb : binary.startsWith newRoot = true) (hbn : binary.normalize = binary)
    (hbr : binary ≠ newRoot) (hm : b.substitution.Separated) (hd : b.substitution.Markless)
    (entry : Text) :
    ∃ o, b.relocated binary [entry] = .ok [o]
      ∧ (afterMarker? o = none ∧ b.relocated binary [o] = .ok [o]
        ∨ ∃ rest : Location,
          denote binary o = (toPath (newRoot.resolve [] ++ rest)).text
          ∧ denote (b.move.undo binary) o = (toPath (oldRoot.resolve [] ++ rest)).text
          ∧ (b.relocated binary [o] = .ok [o]
            ↔ denote binary (b.substitution.replace (toPath (oldRoot.resolve [] ++ rest)).text)
              = (toPath (newRoot.resolve [] ++ rest)).text)) := by
  obtain ⟨old, hold, rfl⟩ := exists_toPath ho hon
  obtain ⟨new, inner, hnew, hi, hine, rfl, rfl⟩ := exists_toPath_below hn hnn hb hbn hbr
  have hr : b.move.newRoot? = some new.toPath := by rw [hmove]
  have hb' := isAbsolute_toPath (new ++ inner)
  have hua : (b.move.undo (toPath (new ++ inner))).isAbsolute = true :=
    Move.isAbsolute_undo (by rw [hmove]; rfl) hb'
  obtain ⟨o, hout⟩ : ∃ o, b.renewed new.toPath (toPath (new ++ inner)) entry = o := ⟨_, rfl⟩
  refine ⟨o, by rw [relocated_singleton hs hr hb', hout], ?_⟩
  have hagain : b.relocated (toPath (new ++ inner)) [o] = .ok [o]
      ↔ b.renewed new.toPath (toPath (new ++ inner)) o = o := by
    rw [relocated_singleton hs hr hb']
    simp
  rw [hagain, resolve_toPath hnew, resolve_toPath hold]
  cases hmark : afterMarker? o with
  | none => exact .inl ⟨rfl, renewed_of_unmarked hb' hm hout hmark⟩
  | some tail =>
    have hmark' := Option.isSome_of_eq_some hmark
    have hl := liesBelow_of_marked hua hm hout hd hmark'
    have ha := isAbsolute_of_liesBelow hl
    obtain ⟨rest, hrn, hrest⟩ := exists_resolve_of_liesBelow (isAbsolute_toPath new) hl
    rw [resolve_toPath hnew] at hrest
    simp only [ofText_char] at ha hrest
    have hthen : denote (b.move.undo (toPath (new ++ inner))) o = (toPath (old ++ rest)).text := by
      rw [← hout, hmove]
      exact denote_undo_anchorEntry hold hnew hi hine hrn ha hrest
    have hnow : denote (toPath (new ++ inner)) o = (toPath (new ++ rest)).text := by
      rw [← hout, renewed, denote_anchorEntry hb', denote_of_isAbsolute _ ha,
        normalize_of_isAbsolute ha, hrest]
    have hiff := renewed_of_marked_iff hb' hua hm hout hd hmark'
    rw [hthen, hnow] at hiff
    exact .inr ⟨rest, hnow, hthen, hiff⟩

end

/-- A library that has moved with the tool: the second run takes its entry for its old place, and
the new prefix leads back. -/
theorem relocated_again_iff_of_moved_library :
    let oldRoot : Path := ⟨"/tmp/old".toList⟩
    let newRoot : Path := ⟨"/opt/new".toList⟩
    let binary : Path := ⟨"/opt/new/bin/tool".toList⟩
    let b : Batch := ⟨[binary], ⟨oldRoot, some newRoot, none, none⟩,
      .ofList [(oldRoot.text, newRoot.text)], .relative⟩
    let out := "$ORIGIN/../lib".toList
    (oldRoot.isAbsolute = true ∧ oldRoot.normalize = oldRoot ∧ newRoot.isAbsolute = true
      ∧ newRoot.normalize = newRoot ∧ binary.startsWith newRoot = true ∧ binary.normalize = binary
      ∧ binary ≠ newRoot ∧ b.substitution.Separated ∧ b.substitution.Markless)
    ∧ b.relocated binary ["/tmp/old/lib".toList] = .ok [out]
    ∧ denote binary out = "/opt/new/lib".toList
    ∧ denote (b.move.undo binary) out = "/tmp/old/lib".toList
    ∧ b.relocated binary [out] = .ok [out] := by
  intro oldRoot newRoot binary b out
  have hfirst : b.relocated binary ["/tmp/old/lib".toList] = .ok [out] := by decide
  refine ⟨by decide, hfirst, by decide, by decide, ?_⟩
  obtain ⟨o, hrun, hagain⟩ := @relocated_again_iff _ oldRoot newRoot binary b rfl rfl (by decide)
    (by decide) (by decide) (by decide) (by decide) (by decide) (by decide) (by decide) (by decide)
    "/tmp/old/lib".toList
  obtain rfl : out = o := by simpa using hfirst.symm.trans hrun
  obtain ⟨-, hkept⟩ | ⟨rest, hnow, hthen, hiff⟩ := hagain
  · exact hkept
  · rw [hiff, ← hthen, ← hnow]
    decide

/-- A library that was built elsewhere and has come into the new tree: the second run takes its
entry for a place in the old tree, from where no prefix leads back. -/
theorem relocated_again_leaves_tree :
    let oldRoot : Path := ⟨"/old".toList⟩
    let newRoot : Path := ⟨"/new".toList⟩
    let binary : Path := ⟨"/new/bin/tool".toList⟩
    let b : Batch := ⟨[binary], ⟨oldRoot, some newRoot, none, none⟩,
      .ofList [("/build/zlib".toList, "/new/zlib".toList)], .relative⟩
    (oldRoot.isAbsolute = true ∧ oldRoot.normalize = oldRoot ∧ newRoot.isAbsolute = true
      ∧ newRoot.normalize = newRoot ∧ binary.startsWith newRoot = true ∧ binary.normalize = binary
      ∧ binary ≠ newRoot ∧ b.substitution.Separated ∧ b.substitution.Markless)
    ∧ b.relocated binary ["/build/zlib/lib".toList] = .ok ["$ORIGIN/../zlib/lib".toList]
    ∧ b.relocated binary ["$ORIGIN/../zlib/lib".toList] = .ok ["/old/zlib/lib".toList] := by
  decide

end Batch

end Rehome
