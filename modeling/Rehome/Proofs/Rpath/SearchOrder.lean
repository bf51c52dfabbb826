import Rehome.Proofs.Rpath.FixedPoint

/-!
# The order in which directories are searched

Of entries that come out alike only the first is kept. No directory is lost by that, and none is
searched later than it was (`replaceAll_keeps_search_order`): what comes out stands in the order of
the entries that were the first to be replaced by it (`idxOf_replaceAll_lt_iff`), and entries behind
others add only what those did not come out as (`replaceAll_append`).
-/

namespace Rehome.Substitution

/-- Entries behind others add what those did not come out as. -/
theorem replaceAll_append (m : Substitution) (entries more : List Text) :
    m.replaceAll (entries ++ more) = m.replaceAll entries
      ++ (m.replaceAll more).filter (· ∉ m.replaceAll entries) := by
  rw [replaceAll, List.map_append, List.eraseDups_append, List.removeAll, eraseDups_filter]
  simp only [replaceAll, List.mem_eraseDups, List.elem_eq_mem, decide_not]

/-- Of two texts, the one that an entry is replaced by first comes out first. -/
theorem idxOf_replaceAll_lt_iff (m : Substitution) (entries : List Text) (x y : Text) :
    (m.replaceAll entries).idxOf x < (m.replaceAll entries).idxOf y
      ↔ entries.findIdx (m.replace · == x) < entries.findIdx (m.replace · == y) := by
  rw [replaceAll, idxOf_eraseDups_lt_iff, List.idxOf, List.idxOf, List.findIdx_map,
    List.findIdx_map]
  rfl

/-- What repeats an earlier entry comes out like that one, so it makes no difference. -/
theorem replaceAll_append_cons_of_mem {m : Substitution} {before : List Text} {entry : Text}
    (h : entry ∈ before) (after : List Text) :
    m.replaceAll (before ++ entry :: after) = m.replaceAll (before ++ after) := by
  rw [replaceAll, replaceAll, List.map_append, List.map_append, List.map_cons,
    eraseDups_append_cons_of_mem (List.mem_map_of_mem h)]

/-- Dropping repetitions loses nothing and keeps the search order: what an entry is replaced by
comes out, once, and in front of all that other entries are replaced by only later. So entries
behind others add what those did not come out as, and entries that repeat others can be removed
beforehand, one of them or all. -/
theorem replaceAll_keeps_search_order (m : Substitution) (entries : List Text) :
    (m.replaceAll entries).Nodup
    ∧ (∀ x, x ∈ m.replaceAll entries ↔ ∃ e ∈ entries, x = (m.replace? e).getD e)
    ∧ (∀ x y, (m.replaceAll entries).idxOf x < (m.replaceAll entries).idxOf y
      ↔ entries.findIdx (m.replace · == x) < entries.findIdx (m.replace · == y))
    ∧ (∀ more, m.replaceAll (entries ++ more) = m.replaceAll entries
      ++ (m.replaceAll more).filter (· ∉ m.replaceAll entries))
    ∧ (∀ before e between after, m.replaceAll (before ++ e :: between ++ e :: after)
      = m.replaceAll (before ++ e :: between ++ after))
    ∧ m.replaceAll entries.eraseDups = m.replaceAll entries := by
  refine ⟨nodup_replaceAll m entries, fun x => ?_, idxOf_replaceAll_lt_iff m entries,
    replaceAll_append m entries, fun before e between after => ?_,
    eraseDups_map_eraseDups m.replace entries⟩
  · simp only [mem_replaceAll, eq_comm, replace]
  · exact replaceAll_append_cons_of_mem (by simp) after

end Rehome.Substitution
