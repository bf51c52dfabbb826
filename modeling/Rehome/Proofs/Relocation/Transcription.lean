import Mathlib.Data.List.Basic
import Rehome.Proofs.Path.Transcription
import Rehome.Relocation.Batch

/-!
# Relocation in other letters

Entries are texts, whatever the letters of the paths are. Where the paths of a batch are texts as
well, as characters or as bytes, relocation gives the same entries (`relocated_transcribed`).
-/

namespace Rehome

open Alphabet

variable {α : Type} [Alphabet α]

namespace Rpath

variable [DecidableEq α] (start root : Path) (entry : Text)

theorem expandEntry_transcribed :
    expandEntry (start.transcribed : Path α) entry = expandEntry start entry := by
  unfold expandEntry
  cases afterMarker? entry with
  | none => rfl
  | some rest =>
    have hplace : placeFrom (start.transcribed : Path α) rest
        = (placeFrom start rest).transcribed := by
      rw [placeFrom, Path.directory_transcribed, placeFrom, ← Path.normalize_transcribed,
        ← Path.join_transcribed]
      rfl
    exact (congrArg Path.toText hplace).trans (Path.toText_transcribed _)

theorem markWay_transcribed (way : Path) :
    markWay (way.transcribed : Path α) = markWay way := by
  have hhere : (way.transcribed : Path α).components = [.here] ↔ way.components = [.here] := by
    rw [Path.components_transcribed]
    exact (List.map_injective_iff.2 Component.transcribed_injective).eq_iff (b := [.here])
  simp only [markWay, ofText_eq_nil_iff, hhere, Path.toText_transcribed]
  rfl

variable [Path.Router α] [Path.Router Char]

theorem anchorEntry_transcribed (hs : start.isAbsolute = true) :
    anchorEntry (start.transcribed : Path α) root.transcribed entry
      = anchorEntry start root entry := by
  have hentry : (Path.ofText entry : Path α) = (Path.ofText entry : Path).transcribed := rfl
  simp only [anchorEntry, hentry, Path.isAbsolute_transcribed, Path.liesUnder_transcribed]
  split
  · rename_i h
    have ha : (Path.ofText entry : Path).isAbsolute = true := (Bool.and_eq_true_iff.1 h).1
    have htarget : (Path.ofText entry : Path).normalize.isAbsolute = true := by
      rw [Path.normalize_of_isAbsolute ha, Location.isAbsolute_toPath]
    rw [Path.normalize_transcribed, Path.directory_transcribed,
      Path.route?_transcribed htarget (Path.normalize_normalize _) (Path.isAbsolute_directory hs)
        (Path.normalize_directory hs)]
    cases Path.Router.route? (Path.ofText entry).normalize start.directory with
    | none => rfl
    | some way => exact markWay_transcribed way
  · rfl

theorem anchor_transcribed (entries : List Text) :
    anchor (start.transcribed : Path α) root.transcribed entries = anchor start root entries := by
  simp only [anchor, Path.isAbsolute_transcribed]
  split
  · exact List.map_congr_left fun entry _ => anchorEntry_transcribed start root entry ‹_›
  · rfl

end Rpath

namespace Move

/-- A move between texts in other letters. -/
def transcribed (m : Move) : Move α :=
  ⟨m.oldRoot.transcribed, m.newRoot?.map Path.transcribed, m.oldPrefix?.map Path.transcribed,
    m.newPrefix?.map Path.transcribed⟩

theorem undo_transcribed [DecidableEq α] (m : Move) (binary : Path) :
    (m.transcribed : Move α).undo binary.transcribed = (m.undo binary).transcribed := by
  have hsource : (m.transcribed : Move α).source = m.source.transcribed := by
    unfold source transcribed
    cases m.oldPrefix? <;> rfl
  have htarget : (m.transcribed : Move α).target? = m.target?.map Path.transcribed := by
    unfold target? transcribed
    cases m.newPrefix? <;> rfl
  have hbelow : (m.target?.map Path.transcribed).bind (binary.transcribed : Path α).below?
      = (m.target?.bind binary.below?).map Path.transcribed := by
    cases m.target? with
    | none => rfl
    | some target => exact Path.below?_transcribed binary target
  rw [undo, hsource, htarget, hbelow, undo]
  cases m.target?.bind binary.below? with
  | none => rfl
  | some rest => exact Path.join_transcribed m.source rest

end Move

namespace Batch

/-- A batch of texts in other letters. -/
def transcribed (b : Batch) : Batch α :=
  ⟨b.binaries.map Path.transcribed, b.move.transcribed, b.substitution, b.style⟩

variable [DecidableEq α] [Path.Router α] [Path.Router Char]

/-- Whatever the letters of the paths are, relocation gives the same entries. -/
theorem relocated_transcribed (b : Batch) (binary : Path) (entries : List Text) :
    (b.transcribed : Batch α).relocated binary.transcribed entries
      = b.relocated binary entries := by
  have hexpand : Rpath.expand ((b.move.undo binary).transcribed : Path α) entries
      = Rpath.expand (b.move.undo binary) entries :=
    List.map_congr_left fun entry _ => Rpath.expandEntry_transcribed _ entry
  unfold relocated
  simp only [transcribed, Move.undo_transcribed, hexpand]
  cases b.style with
  | absolute => rfl
  | relative =>
    simp only [Move.transcribed]
    cases b.move.newRoot? with
    | none => rfl
    | some root => exact congrArg Except.ok (Rpath.anchor_transcribed binary root _)

end Batch

end Rehome
