import Mathlib.Data.List.Nodup
import Rehome.Proofs.Rpath.Denotation
import Rehome.Proofs.Rpath.FixedPoint
import Rehome.Relocation.Batch

/-!
# Repetitions among relocated entries

Repetitions are dropped when old prefixes are replaced. In absolute style that is the last step, and
no entry is repeated. In relative style the entries are then written with the marker, and two of
them can become alike that were different before: just those that are `Alike`, as two spellings of
one place below the new root (`Batch.relocated_nodup_iff`).
-/

namespace Rehome

section

variable [Path.Router Char]

namespace Rpath

/-- Two entries for one place below the root: `x` is absolute, and `y` is absolute as well or is
what is written for `x` with the marker. -/
def Alike (binary root : Path) (x y : Text) : Prop :=
  liesBelow root x = true ∧ (liesBelow root y = true ∧ (Path.mk x).normalize = (Path.mk y).normalize
    ∨ y = anchorEntry binary root x)

instance (binary root : Path) (x y : Text) : Decidable (Alike binary root x y) :=
  inferInstanceAs (Decidable (_ ∧ (_ ∧ _ ∨ _)))

variable {binary root : Path} {x y : Text}

theorem Alike.anchorEntry_eq (hb : binary.isAbsolute = true) (h : Alike binary root x y) :
    anchorEntry binary root x = anchorEntry binary root y := by
  obtain ⟨hx, ⟨hy, hn⟩ | rfl⟩ := h
  · exact (anchorEntry_eq_iff_of_liesBelow hb hx hy).2 hn
  · exact (anchorEntry_anchorEntry hb root x).symm

/-- Different entries become alike just if they are two spellings of one place below the root. -/
theorem anchorEntry_eq_iff (hb : binary.isAbsolute = true) :
    anchorEntry binary root x = anchorEntry binary root y
      ↔ x = y ∨ Alike binary root x y ∨ Alike binary root y x := by
  constructor
  · intro h
    cases hx : liesBelow root x with
    | true =>
      cases hy : liesBelow root y with
      | true =>
        have hn := (anchorEntry_eq_iff_of_liesBelow hb hx hy).1 h
        exact .inr (.inl ⟨hx, .inl ⟨hy, hn⟩⟩)
      | false =>
        rw [anchorEntry_of_not_liesBelow hy] at h
        exact .inr (.inl ⟨hx, .inr h.symm⟩)
    | false =>
      rw [anchorEntry_of_not_liesBelow hx] at h
      cases hy : liesBelow root y with
      | true => exact .inr (.inr ⟨hy, .inr h⟩)
      | false =>
        rw [anchorEntry_of_not_liesBelow hy] at h
        exact .inl h
  · rintro (rfl | h | h)
    · rfl
    · exact h.anchorEntry_eq hb
    · exact (h.anchorEntry_eq hb).symm

theorem nodup_anchor_iff (hb : binary.isAbsolute = true) {entries : List Text}
    (hn : entries.Nodup) :
    (anchor binary root entries).Nodup
      ↔ ∀ x ∈ entries, ∀ y ∈ entries, Alike binary root x y → x = y := by
  rw [anchor, if_pos hb, List.nodup_map_iff_inj_on hn]
  constructor
  · intro hinj x hx y hy h
    exact hinj x hx y hy (h.anchorEntry_eq hb)
  · intro halike x hx y hy h
    obtain rfl | h | h := (anchorEntry_eq_iff hb).1 h
    · rfl
    · exact halike x hx y hy h
    · exact (halike y hy x hx h).symm

end Rpath

namespace Batch

open Rpath

/-- The entries of a binary with old prefixes replaced, before any is written relative to it. -/
def replaced (b : Batch) (binary : Path) (entries : List Text) : List Text :=
  b.substitution.replaceAll (expand (b.move.undo binary) entries)

variable {b : Batch} {binary : Path} {entries out : List Text}

/-- In absolute style no relocated entry is repeated. In relative style an entry is repeated just
if different replaced entries are spellings of one place below the new root. -/
theorem relocated_nodup_iff (hb : binary.isAbsolute = true)
    (ho : b.relocated binary entries = .ok out) :
    (b.style = .absolute → out.Nodup)
    ∧ ∀ root, b.style = .relative → b.move.newRoot? = some root →
      (b.replaced binary entries).Nodup
      ∧ out.length = (b.replaced binary entries).length
      ∧ (out.Nodup ↔ ∀ x ∈ b.replaced binary entries, ∀ y ∈ b.replaced binary entries,
        Alike binary root x y → x = y) := by
  constructor
  · intro hs
    have hout : b.substitution.replaceAll entries = out := by simpa [relocated, hs] using ho
    rw [← hout]
    exact Substitution.nodup_replaceAll _ _
  · intro root hs hr
    have hout : anchor binary root (b.replaced binary entries) = out :=
      Except.ok.inj ((relocated_of_relative hs hr binary entries).symm.trans ho)
    have hn : (b.replaced binary entries).Nodup := Substitution.nodup_replaceAll _ _
    rw [← hout]
    exact ⟨hn, length_anchor _ _ _, nodup_anchor_iff hb hn⟩

end Batch

end

namespace Batch

open Rpath

/-- A library beside a tool, in two spellings and then in its old place. -/
theorem relocated_nodup_iff_of_spellings :
    let root : Path := ⟨"/opt/new".toList⟩
    let binary : Path := ⟨"/opt/new/bin/tool".toList⟩
    let b : Batch := ⟨[], ⟨⟨"/tmp/old".toList⟩, some root, none, none⟩,
      .ofList [("/tmp/old".toList, "/opt/new".toList)], .relative⟩
    let entries := ["/opt/new//lib".toList, "/usr/lib".toList, "$ORIGIN/../lib".toList]
    let out := ["$ORIGIN/../lib".toList, "/usr/lib".toList, "$ORIGIN/../lib".toList]
    (binary.isAbsolute = true ∧ b.relocated binary entries = .ok out)
    ∧ b.replaced binary entries = ["/opt/new//lib".toList, "/usr/lib".toList, "/opt/new/lib".toList]
    ∧ (out.Nodup ↔ ∀ x ∈ b.replaced binary entries, ∀ y ∈ b.replaced binary entries,
      Alike binary root x y → x = y) := by
  intro root binary b entries out
  have ho : b.relocated binary entries = .ok out := by decide +kernel
  exact ⟨⟨rfl, ho⟩, by decide +kernel, ((relocated_nodup_iff rfl ho).2 root rfl rfl).2.2⟩

/-- Two spellings of one directory are written alike. -/
theorem relocated_repeats_spellings :
    let binary : Path := ⟨"/opt/bin/tool".toList⟩
    let b : Batch := ⟨[], ⟨⟨"/old".toList⟩, some ⟨"/opt".toList⟩, none, none⟩, .empty, .relative⟩
    binary.isAbsolute = true
    ∧ b.relocated binary ["/opt/lib".toList, "/opt//lib".toList]
      = .ok ["$ORIGIN/../lib".toList, "$ORIGIN/../lib".toList]
    ∧ ¬ ["$ORIGIN/../lib".toList, "$ORIGIN/../lib".toList].Nodup := by
  decide +kernel

end Batch

end Rehome
