import Rehome.Proofs.Rpath.Denotation

/-!
# Anchoring and expanding undo each other

An entry below the root is written as the marker, a number of parents and then names
(`exists_anchorEntry_eq`), and expands to its normal form (`expandEntry_anchorEntry`). The normal
form is written like the entry itself (`anchorEntry_normalize`), so a list of entries without the
marker is written as before after it has been anchored and expanded (`anchor_round_trip`).
-/

namespace Rehome.Rpath

open Rehome.Path Component

variable {start root : Path} {entry : Text} {entries : List Text}

/-- A route behind the marker is written as one more path whose first piece is the marker. -/
theorem markRoute_eq_joinWith {cs : List Component} (h : ∀ c ∈ cs, c.IsStep) :
    markRoute cs = Text.joinWith '/' (marker :: cs.map Component.text) := by
  cases cs with
  | nil => simp [markRoute]
  | cons c cs =>
    rw [markRoute, ofComponents_of_isStep h]
    simp [List.intercalate_cons_cons]

section

variable [Path.Router Char]

section

variable (hs : start.isAbsolute = true)

include hs

/-- An entry below the root is written with parents behind the marker, and names behind them. -/
theorem exists_anchorEntry_eq (hl : liesBelow root entry = true) :
    ∃ (ups : Nat) (names : List Text), (∀ t ∈ names, IsName t)
      ∧ anchorEntry start root entry
        = Text.joinWith '/' (marker :: (List.replicate ups ['.', '.'] ++ names)) := by
  have ha : (Path.mk entry).isAbsolute = true := isAbsolute_of_liesBelow hl
  obtain ⟨ups, names, hsuffix, hroute⟩ := Location.exists_route_eq
    (start.resolve []).dropLast ((Path.mk entry).resolve [])
  have hnames : ∀ t ∈ names, IsName t := fun t ht => named_resolve ha [] t (hsuffix.subset ht)
  refine ⟨ups, names, hnames, ?_⟩
  rw [anchorEntry_of_liesBelow hs hl, markRoute_eq_joinWith (isStep_of_mem_routeTo ha start),
    routeTo, ofText_char, hroute, List.map_append, List.map_replicate, List.map_map]
  simp [Component.text, Function.comp_def]

/-- What is written with the marker expands to the normal form of the entry. -/
theorem expandEntry_anchorEntry (hl : liesBelow root entry = true) :
    expandEntry start (anchorEntry start root entry) = (Path.mk entry).normalize.text := by
  have ha : (Path.mk entry).isAbsolute = true := isAbsolute_of_liesBelow hl
  rw [expandEntry_eq hs, if_pos (isSome_afterMarker?_anchorEntry hs hl), denote_anchorEntry hs,
    denote_of_isAbsolute start ha]

/-- The normal form of an entry below the root is written like the entry. -/
theorem anchorEntry_normalize (hl : liesBelow root entry = true) :
    anchorEntry start root (Path.mk entry).normalize.text = anchorEntry start root entry := by
  have hentry : (Path.mk entry).isAbsolute = true := isAbsolute_of_liesBelow hl
  have ha : (Path.mk (Path.mk entry).normalize.text).isAbsolute = true := by
    rw [normalize_of_isAbsolute hentry]
    exact Location.isAbsolute_toPath _
  exact anchorEntry_congr hs ha hl (normalize_normalize (Path.mk entry))

/-- An entry without the marker is written as before after it has been anchored and expanded. -/
theorem anchorEntry_expandEntry_anchorEntry (hm : afterMarker? entry = none) :
    anchorEntry start root (expandEntry start (anchorEntry start root entry))
      = anchorEntry start root entry := by
  cases hl : liesBelow root entry with
  | false => rw [anchorEntry_of_not_liesBelow hl, expandEntry_of_none hm,
      anchorEntry_of_not_liesBelow hl]
  | true => rw [expandEntry_anchorEntry hs hl, anchorEntry_normalize hs hl]

end

/-- Just the entries below the root are written anew. -/
theorem anchorEntry_ne_iff (hs : start.isAbsolute = true) :
    anchorEntry start root entry ≠ entry ↔ liesBelow root entry = true := by
  cases hl : liesBelow root entry with
  | false => simp [anchorEntry_of_not_liesBelow hl]
  | true =>
    refine iff_of_true (fun e => ?_) rfl
    have hout := liesBelow_anchorEntry hs hl
    rw [e, hl] at hout
    cases hout

theorem getElem?_anchor (hs : start.isAbsolute = true) {j : Nat} {e o : Text}
    (he : entries[j]? = some e) (ho : (anchor start root entries)[j]? = some o) :
    anchorEntry start root e = o := by
  rw [anchor, if_pos hs, List.getElem?_map, he] at ho
  exact Option.some.inj ho

/-- Anchoring keeps the length and order of entries without the marker, and writes just those anew
that are absolute and lie below the root: as the marker, parents and names, which expand to the
normal form. Two of them are written alike just if their normal forms are equal, and anchoring the
expanded entries gives what anchoring gave before. -/
theorem anchor_round_trip (hs : start.isAbsolute = true) (root : Path)
    (hm : ∀ e ∈ entries, afterMarker? e = none) :
    (anchor start root entries).length = entries.length
    ∧ (∀ (j : Nat) (e o : Text), entries[j]? = some e →
        (anchor start root entries)[j]? = some o →
        if (Path.mk e).isAbsolute = true ∧ (Path.mk e).normalize.startsWith root.normalize = true
        then
          o ≠ e
          ∧ (∃ (ups : Nat) (names : List Text), (∀ t ∈ names, IsName t)
            ∧ o = Text.joinWith '/' (marker :: (List.replicate ups ['.', '.'] ++ names)))
          ∧ (expand start (anchor start root entries))[j]? = some (Path.mk e).normalize.text
        else o = e)
    ∧ (∀ (i j : Nat) (e o e' o' : Text), entries[i]? = some e → entries[j]? = some e' →
        (anchor start root entries)[i]? = some o → (anchor start root entries)[j]? = some o' →
        o ≠ e → o' ≠ e' → (o = o' ↔ (Path.mk e).normalize = (Path.mk e').normalize))
    ∧ anchor start root (expand start (anchor start root entries))
      = anchor start root entries := by
  refine ⟨length_anchor start root entries, ?_, ?_, ?_⟩
  · intro j e o he ho
    obtain rfl := getElem?_anchor hs he ho
    split
    · rename_i hcond
      have hl : liesBelow root e = true := Bool.and_eq_true_iff.2 hcond
      refine ⟨(anchorEntry_ne_iff hs).2 hl, exists_anchorEntry_eq hs hl, ?_⟩
      rw [expand, List.getElem?_map, ho, Option.map_some, expandEntry_anchorEntry hs hl]
    · rename_i hcond
      exact anchorEntry_of_not_liesBelow (by simpa [liesBelow, Path.liesUnder] using hcond)
  · intro i j e o e' o' he he' ho ho' hne hne'
    obtain rfl := getElem?_anchor hs he ho
    obtain rfl := getElem?_anchor hs he' ho'
    exact anchorEntry_eq_iff_of_liesBelow hs ((anchorEntry_ne_iff hs).1 hne)
      ((anchorEntry_ne_iff hs).1 hne')
  · simp only [anchor, if_pos hs, expand, List.map_map]
    exact List.map_congr_left fun e he => anchorEntry_expandEntry_anchorEntry hs (hm e he)

end

/-- Two spellings of one directory, the directory of the tool itself, a directory whose name goes on
behind that of the root, and a relative entry. -/
theorem anchor_round_trip_of_tool :
    let start : Path := ⟨"/opt/pkg/bin/tool".toList⟩
    let root : Path := ⟨"/opt/.".toList⟩
    let entries := ["/opt/zlib/lib".toList, "/opt//zlib/x/../lib/".toList, "/opt/pkg/bin".toList,
      "/opt-old/lib".toList, "../lib".toList]
    let out := ["$ORIGIN/../../zlib/lib".toList, "$ORIGIN/../../zlib/lib".toList, "$ORIGIN".toList,
      "/opt-old/lib".toList, "../lib".toList]
    (start.isAbsolute = true ∧ ∀ e ∈ entries, afterMarker? e = none)
    ∧ anchor start root entries = out ∧ anchor start root (expand start out) = out
    ∧ ((Path.mk "/opt/zlib/lib".toList).normalize
      = (Path.mk "/opt//zlib/x/../lib/".toList).normalize) := by
  intro start root entries out
  have hs : start.isAbsolute = true := rfl
  have hm : ∀ e ∈ entries, afterMarker? e = none := by decide
  have hout : anchor start root entries = out := by decide
  obtain ⟨-, -, halike, hagain⟩ := anchor_round_trip hs root hm
  rw [hout] at halike hagain
  exact ⟨⟨hs, hm⟩, hout, hagain,
    (halike 0 1 _ _ _ _ rfl rfl rfl rfl (by decide) (by decide)).1 rfl⟩

end Rehome.Rpath
