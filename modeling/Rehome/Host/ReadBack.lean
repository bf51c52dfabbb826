import Rehome.Files.Kind
import Rehome.Host.Basic

/-!
# Reading what was written

A file that can be read can be written, and then reads as what was written (`read_of_write?`). Other
files read as before (`read_of_write?_of_ne`), and all paths lead where they led
(`lookup_of_write?`).
-/

namespace Rehome.Host

open Files

theorem exists_of_read {h : Host} {p : Path} {bytes : Bytes} (hr : h.read p = .ok bytes) :
    ∃ loc contents executable, h.lookup p = .found loc
      ∧ h.tree.node? loc = some (.file contents executable) ∧ contents.bytes = bytes := by
  unfold read node? at hr
  split at hr
  · rename_i contents executable hn
    split at hn
    · rename_i loc hl
      split at hn
      · rename_i node hnode
        cases hn
        exact ⟨loc, contents, executable, hl, hnode, by simpa using hr⟩
      · cases hn
    all_goals cases hn
  all_goals cases hr

theorem write?_eq_some_iff {h h' : Host} {p : Path} {contents : Contents} :
    h.write? p contents = some h' ↔ h.write p contents = .ok h' := by
  unfold write?
  cases h.write p contents <;> simp [Except.toOption]

/-- A file that can be read can be given other contents. -/
theorem exists_of_write? {h : Host} {p : Path} {bytes : Bytes} (hr : h.read p = .ok bytes)
    (contents : Contents) : ∃ h', h.write? p contents = some h' := by
  obtain ⟨loc, _, executable, hl, hn, -⟩ := exists_of_read hr
  exact ⟨h.place loc (.file contents executable), by
    simp only [write?_eq_some_iff, write, hl, hn]⟩

section

variable {h h' : Host} {p : Path} {bytes : Bytes} {contents : Contents}
  (hr : h.read p = .ok bytes) (hw : h.write? p contents = some h')

include hr hw

/-- Other contents of a file do not change where paths lead, and only what leads to the file reads
differently. -/
theorem lookup_and_read_of_write? (q : Path) :
    h'.lookup q = h.lookup q
    ∧ h'.read q = if h.lookup q = h.lookup p then .ok contents.bytes else h.read q := by
  obtain ⟨loc, old, executable, hl, hn, -⟩ := exists_of_read hr
  have hne : loc ≠ [] := by
    intro e
    subst e
    cases hn
  rw [write?_eq_some_iff] at hw
  simp only [write, hl, hn, Except.ok.injEq] at hw
  subst hw
  have hlook : (h.place loc (.file contents executable)).lookup q = h.lookup q :=
    (lookup_congr (Tree.sameKinds_insert_file hn) h.cwd true q).symm
  refine ⟨hlook, ?_⟩
  split
  · rename_i he
    rw [hl] at he
    have hn' : (h.place loc (.file contents executable)).tree.node? loc
        = some (.file contents executable) := by
      simp [place, Tree.node?_insert h.tree loc _ loc hne]
    simp [read, node?, hlook, he, hn']
  · rename_i he
    rw [hl] at he
    unfold read node?
    rw [hlook]
    cases hq : h.lookup q with
    | found loc' =>
      have hloc : loc' ≠ loc := fun e => he (by rw [hq, e])
      simp only [place, Tree.node?_insert h.tree loc _ loc' hne, if_neg hloc]
    | _ => rfl

theorem lookup_of_write? (q : Path) : h'.lookup q = h.lookup q :=
  (lookup_and_read_of_write? hr hw q).1

theorem read_of_write? : h'.read p = .ok contents.bytes := by
  rw [(lookup_and_read_of_write? hr hw p).2, if_pos rfl]

theorem read_of_write?_of_ne {q : Path} (hne : h.lookup q ≠ h.lookup p) : h'.read q = h.read q := by
  rw [(lookup_and_read_of_write? hr hw q).2, if_neg hne]

/-- What could be read still can. -/
theorem exists_read_of_write? {q : Path} (hq : ∃ bytes, h.read q = .ok bytes) :
    ∃ bytes, h'.read q = .ok bytes := by
  rw [(lookup_and_read_of_write? hr hw q).2]
  split
  · exact ⟨_, rfl⟩
  · exact hq

end

end Rehome.Host
