import Rehome.Proofs.Path.Clean
import Rehome.Proofs.Rpath.Denotation
import Rehome.Proofs.Rpath.FixedPoint
import Rehome.Proofs.Rpath.Recoverable
import Rehome.Relocation.Batch

/-!
# Relocated entries can be read back

A search path is one text, so its entries come back from it only if none of them is empty or has a
colon in it, and the ends of the text are not blank. `Readable` entries are of that kind
(`parse_render_append`). Expanding, replacing and anchoring make readable entries of readable ones,
and so does relocation as a whole (`Batch.relocated_reads_back`).
-/

namespace Rehome

open Text

namespace Rpath

/-- Whether an entry is not empty and has neither colons nor blanks. -/
def Readable (entry : Text) : Prop := entry ≠ [] ∧ entry.Clean

instance (entry : Text) : Decidable (Readable entry) := inferInstanceAs (Decidable (_ ∧ _))

/-! ## Reading -/

section

variable {entries : List Text} {tail : Text}

theorem recoverable_of_readable (h : ∀ e ∈ entries, Readable e) : Recoverable entries where
  ne_nil e he := (h e he).1
  colon_notMem e he hc := ((h e he).2 _ hc).1 rfl
  first e he c hc := ((h e (List.mem_of_mem_head? he)).2 c (List.mem_of_mem_head? hc)).2
  last e he c hc := ((h e (List.mem_of_getLast? he)).2 c (List.mem_of_getLast? hc)).2

/-- Readable entries come back from their text, whatever blanks stand behind it. -/
theorem parse_render_append (h : ∀ e ∈ entries, Readable e) (ht : ∀ c ∈ tail, isBlank c = true) :
    parse (render entries ++ tail) = entries := by
  rw [parse_append_of_blank ht]
  exact (recoverable_of_readable h).parse_render

end

/-! ## Expanding, replacing, anchoring -/

section

variable {m : Substitution} {start root : Path} {entry : Text}

theorem readable_expandEntry (hs : Text.Clean start.text) (h : Readable entry) :
    Readable (expandEntry start entry) := by
  cases hr : afterMarker? entry with
  | none => rwa [expandEntry_of_none hr]
  | some rest =>
    have hrest : Clean rest := by
      obtain ⟨rfl | rfl, -⟩ := afterMarker?_eq_some_iff.1 hr
      · exact h.2.of_subset (List.subset_append_right _ rest)
      · exact h.2.of_subset (List.subset_append_right _ rest)
    have hbehind : Clean (rest.dropWhile (· = '/')) :=
      hrest.of_subset (List.dropWhile_sublist _).subset
    simp only [expandEntry, hr, placeFrom]
    exact ⟨Path.text_normalize_ne_nil _,
      Path.clean_normalize (Path.clean_join (Path.clean_directory hs) hbehind)⟩

/-- The rest of an entry is readable behind any readable text, so it does not matter where an old
prefix ends. -/
theorem readable_replace (hm : ∀ rule ∈ m.pairs, Readable rule.2) (h : Readable entry) :
    Readable (m.replace entry) := by
  obtain ⟨-, he⟩ | ⟨rule, hr, rest, -, rfl, he⟩ := m.replace_cases entry
  · rwa [he]
  · rw [he]
    have hrest : Clean rest := h.2.of_subset (List.subset_append_right rule.1 rest)
    exact ⟨List.append_ne_nil_of_left_ne_nil (hm rule hr).1 rest, (hm rule hr).2.append hrest⟩

theorem mem_route {source target : List Component} {c : Component}
    (h : c ∈ Component.route source target) : c = .up ∨ c ∈ target := by
  obtain ⟨ups, rest, hrest, e⟩ := Component.exists_route_eq source target
  rw [e] at h
  exact (List.mem_append.1 h).imp List.eq_of_mem_replicate fun hc => hrest.subset hc

theorem readable_markRoute {cs : List Component} (h : ∀ c ∈ cs, Text.Clean c.text) :
    Readable (markRoute cs) := by
  have hmarker : Readable marker := by decide
  unfold markRoute
  split
  · exact hmarker
  · exact ⟨List.append_ne_nil_of_left_ne_nil hmarker.1 _,
      hmarker.2.append (Path.clean_ofComponents h).slash_cons⟩

theorem readable_replaceAll {entries : List Text} (hm : ∀ rule ∈ m.pairs, Readable rule.2)
    (h : ∀ e ∈ entries, Readable e) : ∀ o ∈ m.replaceAll entries, Readable o := by
  intro o ho
  obtain ⟨e, he, rfl⟩ := Substitution.mem_replaceAll.1 ho
  exact readable_replace hm (h e he)

theorem readable_expand {entries : List Text} (hs : Text.Clean start.text)
    (h : ∀ e ∈ entries, Readable e) : ∀ o ∈ expand start entries, Readable o :=
  List.forall_mem_map.2 fun e he => readable_expandEntry hs (h e he)

variable [Path.Router Char]

theorem readable_anchorEntry (hs : start.isAbsolute = true) (h : Readable entry) :
    Readable (anchorEntry start root entry) := by
  cases hl : liesBelow root entry with
  | false => rwa [anchorEntry_of_not_liesBelow hl]
  | true =>
    have ha : (Path.mk entry).isAbsolute = true := isAbsolute_of_liesBelow hl
    rw [anchorEntry_of_liesBelow hs hl]
    refine readable_markRoute fun c hc => ?_
    obtain rfl | hc := mem_route hc
    · decide
    · refine Path.clean_normalComponents h.2 c ?_
      rw [Path.normalComponents_of_isAbsolute ha]
      exact List.mem_cons_of_mem _ hc

theorem readable_anchor {entries : List Text} (h : ∀ e ∈ entries, Readable e) :
    ∀ o ∈ anchor start root entries, Readable o := by
  unfold anchor
  split
  · rename_i hs
    exact List.forall_mem_map.2 fun e he => readable_anchorEntry hs (h e he)
  · exact h

end

end Rpath

open Rpath

/-- Where a binary was before the move is a clean path if the paths it is made of are. -/
theorem Move.clean_undo {m : Move} {binary : Path} (hm : Text.Clean m.source.text)
    (hb : Text.Clean binary.text) : Text.Clean (m.undo binary).text := by
  unfold undo
  split
  · rename_i rest hr
    obtain ⟨target, -, hr⟩ := Option.bind_eq_some_iff.1 hr
    exact Path.clean_join hm (Path.clean_below? hb hr)
  · exact hb

namespace Batch

variable {b : Batch} {binary : Path} {entries out : List Text}

section

variable [Path.Router Char]

/-- Relocation makes readable entries of readable ones, if the new prefixes are readable and the
places of the binary before and after its move have clean paths. -/
theorem readable_relocated (hm : ∀ rule ∈ b.substitution.pairs, Readable rule.2)
    (he : ∀ e ∈ entries, Readable e) (hb : Text.Clean binary.text)
    (hs : Text.Clean b.move.source.text) (ho : b.relocated binary entries = .ok out) :
    ∀ o ∈ out, Readable o := by
  unfold relocated at ho
  split at ho
  · cases ho
    exact readable_replaceAll hm he
  · cases ho
  · cases ho
    exact readable_anchor (readable_replaceAll hm (readable_expand (Move.clean_undo hs hb) he))

/-- Relocated entries come back from their text, also from the line that a tool prints, if the
entries before are readable, the new prefixes are, and the places of the binary before and after
its move have clean paths. The old prefixes may be any texts. -/
theorem relocated_reads_back (hm : ∀ rule ∈ b.substitution.pairs, Readable rule.2)
    (he : ∀ e ∈ entries, Readable e) (hb : Text.Clean binary.text)
    (hs : Text.Clean b.move.source.text) (ho : b.relocated binary entries = .ok out) :
    (∀ o ∈ out, Readable o) ∧ parse (render out) = out ∧ parse (render out ++ ['\n']) = out := by
  have hout := readable_relocated hm he hb hs ho
  have hplain : parse (render out ++ []) = out :=
    parse_render_append hout fun c hc => absurd hc List.not_mem_nil
  rw [List.append_nil] at hplain
  exact ⟨hout, hplain, parse_render_append hout (List.forall_mem_singleton.2 (by decide))⟩

end

/-- Old prefixes that cut a name in two and that have colons and blanks in them. -/
theorem relocated_reads_back_of_odd_prefixes :
    ∃ (b : Batch) (binary : Path) (entries out : List Text),
      ((∀ rule ∈ b.substitution.pairs, Readable rule.2) ∧ (∀ e ∈ entries, Readable e)
        ∧ Text.Clean binary.text ∧ Text.Clean b.move.source.text
        ∧ b.relocated binary entries = .ok out)
      ∧ (∀ o ∈ out, Readable o) ∧ parse (render out) = out
      ∧ parse (render out ++ ['\n']) = out := by
  let b : Batch := ⟨[], ⟨⟨"/tmp/old".toList⟩, some ⟨"/opt/new".toList⟩, none, none⟩,
    .ofList [("/tmp/o".toList, "/opt/new/".toList), ("/usr: ".toList, "/opt".toList)], .relative⟩
  let binary : Path := ⟨"/opt/new/bin/tool".toList⟩
  let entries := ["${ORIGIN}/../lib".toList, "/tmp/old".toList, "lib".toList]
  let out := ["$ORIGIN/../ld/lib".toList, "$ORIGIN/../ld".toList, "lib".toList]
  have hm : ∀ rule ∈ b.substitution.pairs, Readable rule.2 := by decide
  have he : ∀ e ∈ entries, Readable e := by decide
  have hb : Text.Clean binary.text := by decide
  have hs : Text.Clean b.move.source.text := by decide
  have ho : b.relocated binary entries = .ok out := by decide
  exact ⟨b, binary, entries, out, ⟨hm, he, hb, hs, ho⟩, relocated_reads_back hm he hb hs ho⟩

end Batch

end Rehome
