import Rehome.Proofs.Path.Below
import Rehome.Relocation.Move

/-!
# Moves undone and made again

A binary in the target of a move was below the source what it is below the target, step by step
(`components_undo`). So the move in the opposite direction leads back (`components_undo_undo`), and
binaries that are different paths now were different paths before (`undo_reversible`).
-/

namespace Rehome.Move

open Rehome.Path

variable {α : Type} [Alphabet α] [DecidableEq α] {m : Move α} {target binary : Path α}

omit [Alphabet α] [DecidableEq α] in
theorem source_withPrefixes (m : Move α) (old new : Path α) :
    (m.withPrefixes old new).source = old :=
  rfl

omit [Alphabet α] [DecidableEq α] in
theorem target?_withPrefixes (m : Move α) (old new : Path α) :
    (m.withPrefixes old new).target? = some new := rfl

/-- A binary outside the target has not moved. -/
theorem undo_of_not_startsWith (ht : m.target? = some target)
    (hb : binary.startsWith target = false) : m.undo binary = binary := by
  simp [undo, ht, below?, hb]

section

variable (ht : m.target? = some target) (hta : target.isAbsolute = true)
  (hsa : m.source.isAbsolute = true)

include ht hta hsa

/-- A binary in the target takes the same steps behind the source as it takes behind the target. -/
theorem components_undo (hb : binary.startsWith target = true) :
    ∃ rest, binary.components = target.components ++ rest
      ∧ (m.undo binary).components = m.source.components ++ rest := by
  obtain ⟨rest, hrest, hrel, hbinary⟩ := exists_below? hta hb
  have hundo : m.undo binary = m.source.join rest := by simp [undo, ht, hrest]
  exact ⟨rest.steps, hbinary, by rw [hundo, components_join hsa hrel]⟩

theorem startsWith_source_undo (hb : binary.startsWith target = true) :
    (m.undo binary).startsWith m.source = true := by
  obtain ⟨rest, -, hundo⟩ := components_undo ht hta hsa hb
  rw [startsWith, hundo, List.isPrefixOf_iff_prefix]
  exact List.prefix_append _ rest

/-- The move back takes a binary from where it was to where it is. -/
theorem components_undo_undo (hb : binary.startsWith target = true) :
    ((m.withPrefixes target m.source).undo (m.undo binary)).components = binary.components := by
  obtain ⟨rest, hbinary, hundo⟩ := components_undo ht hta hsa hb
  obtain ⟨rest', hundo', hback⟩ := components_undo (target?_withPrefixes m target m.source) hsa hta
    (startsWith_source_undo ht hta hsa hb)
  obtain rfl : rest = rest' := List.append_cancel_left (hundo.symm.trans hundo')
  rw [hback, hbinary, source_withPrefixes]

/-- For a binary outside its target, a move changes nothing. A binary in the target was in the
source, with the same steps behind it, and the move with the two prefixes exchanged takes it back.
Binaries in the target are the same path just if they were the same path before. -/
theorem undo_reversible :
    (∀ binary : Path α, binary.startsWith target = false → m.undo binary = binary)
    ∧ (∀ binary : Path α, binary.startsWith target = true →
      (m.undo binary).startsWith m.source = true
      ∧ (∃ rest, binary.components = target.components ++ rest
        ∧ (m.undo binary).components = m.source.components ++ rest)
      ∧ ((m.withPrefixes target m.source).undo (m.undo binary)).components = binary.components)
    ∧ ∀ binary other : Path α, binary.startsWith target = true → other.startsWith target = true →
      ((m.undo binary).components = (m.undo other).components
        ↔ binary.components = other.components) := by
  refine ⟨fun binary => undo_of_not_startsWith ht, fun binary hb => ?_,
    fun binary other hb ho => ?_⟩
  · exact ⟨startsWith_source_undo ht hta hsa hb, components_undo ht hta hsa hb,
      components_undo_undo ht hta hsa hb⟩
  · obtain ⟨rest, hbinary, hundo⟩ := components_undo ht hta hsa hb
    obtain ⟨rest', hother, hundo'⟩ := components_undo ht hta hsa ho
    rw [hundo, hundo', hbinary, hother, List.append_cancel_left_eq, List.append_cancel_left_eq]

end

/-- Odd spellings of both roots and of a binary with a detour, the root itself, and a path whose
text goes on behind that of the root. -/
theorem undo_reversible_of_spellings :
    let target : Path := ⟨"/opt//software/.".toList⟩
    let m : Move := ⟨⟨"/tmp/build/".toList⟩, some target, none, none⟩
    let binary : Path := ⟨"/opt/./software/pkg//../bin/tool/".toList⟩
    let root : Path := ⟨"/opt/software".toList⟩
    let outside : Path := ⟨"/opt/software-1/tool".toList⟩
    (m.target? = some target ∧ target.isAbsolute = true ∧ m.source.isAbsolute = true)
    ∧ m.undo outside = outside
    ∧ m.undo binary = ⟨"/tmp/build/pkg//../bin/tool".toList⟩
    ∧ m.undo root = ⟨"/tmp/build/".toList⟩
    ∧ ((m.withPrefixes target m.source).undo (m.undo binary)).components = binary.components
    ∧ (m.undo binary).components ≠ (m.undo root).components := by
  intro target m binary root outside
  have ht : m.target? = some target := rfl
  have hta : target.isAbsolute = true := rfl
  have hsa : m.source.isAbsolute = true := rfl
  obtain ⟨houtside, hinside, hiff⟩ := undo_reversible ht hta hsa
  have hbinary : binary.startsWith target = true := by decide
  have hroot : root.startsWith target = true := by decide
  refine ⟨⟨ht, hta, hsa⟩, houtside outside (by decide), by decide, by decide,
    (hinside binary hbinary).2.2, mt (hiff binary root hbinary hroot).1 (by decide)⟩

end Rehome.Move
