import Rehome.Host.Inspect
import Rehome.Proofs.Binary.Runs
import Rehome.Proofs.Data.Spans

/-!
# Where the strings are

The strings embedded in a binary are, in the order of their offsets, the maximal runs of four or
more printable bytes, so each such run of printable bytes is inside just one of them
(`strings_maximal_runs`).
-/

namespace Rehome.Binary

variable {data : Bytes} {s t : Span}

/-- A tab, a space or a visible character of ASCII. -/
def Printable (b : UInt8) : Prop :=
  b = 0x09 ∨ 0x20 ≤ b ∧ b ≤ 0x7E

instance : DecidablePred Printable := fun _ => inferInstanceAs (Decidable (_ ∨ _))

theorem isPrintable_eq_true_iff {b : UInt8} : isPrintable b = true ↔ Printable b := by
  have hlast : b < 0x7F ↔ b ≤ 0x7E := by
    rw [UInt8.lt_iff_toNat_lt, UInt8.le_iff_toNat_le]
    exact Nat.lt_succ_iff
  simp only [isPrintable, Printable, Bool.or_eq_true, Bool.and_eq_true, decide_eq_true_eq, hlast]

/-- Where the strings of some data are, in the order of their offsets. -/
def stringSpans (data : Bytes) : List Span :=
  (Span.ofParts 0 (data.splitOnP fun b => !isPrintable b)).filter fun s =>
    shortestRun ≤ s.stop - s.start

theorem mem_ofParts_iff :
    s ∈ Span.ofParts 0 (data.splitOnP fun b => !isPrintable b) ↔ s.IsMaximalRun Printable data :=
  Span.mem_ofParts_splitOnP_iff fun b => by rw [Bool.not_eq_false', isPrintable_eq_true_iff]

theorem mem_stringSpans_iff :
    s ∈ stringSpans data ↔ s.start + 4 ≤ s.stop ∧ s.IsMaximalRun Printable data := by
  rw [stringSpans, List.mem_filter, mem_ofParts_iff, decide_eq_true_eq, shortestRun, and_comm]
  refine and_congr_left fun hs => ?_
  have hle := hs.start_le
  omega

theorem runs_eq_map_stringSpans (data : Bytes) :
    runs data = (stringSpans data).map fun s => data.extract s.start s.stop := by
  have hparts := Span.map_extract_ofParts (parted_splitOnP (fun b => !isPrintable b) data) []
  rw [runs, ← hparts, List.filter_map, stringSpans]
  refine congrArg (List.map _) (List.filter_congr fun s hs => ?_)
  have hlen := (mem_ofParts_iff.1 hs).toIsRun.length_extract
  exact congrArg (decide <| shortestRun ≤ ·) hlen

theorem strings_eq_map_ofUtf8 (data : Bytes) : strings data = (runs data).map Text.ofUtf8 := by
  refine List.map_congr_left fun run hrun => ?_
  have hr := isPrintable_of_mem_runs hrun
  exact (ofUtf8_of_lt fun b hb => lt_of_isPrintable (hr b hb)).symm

/-- A long run of printable bytes is inside the span of just one string. -/
theorem existsUnique_mem_stringSpans (ht : t.IsRun Printable data) (hlong : t.start + 4 ≤ t.stop) :
    ∃! s, s ∈ stringSpans data ∧ s.start ≤ t.start ∧ t.stop ≤ s.stop := by
  obtain ⟨s, ⟨hs, hst, hts⟩, hunique⟩ := ht.existsUnique_contains
  refine ⟨s, ⟨mem_stringSpans_iff.2 ⟨by omega, hs⟩, hst, hts⟩, fun u ⟨hu, hut⟩ => ?_⟩
  exact hunique u ⟨(mem_stringSpans_iff.1 hu).2, hut⟩

/-- The strings of some data are the texts of its maximal runs of four or more printable bytes, in
the order of their offsets. Any four or more printable bytes in a row are inside just one of these
runs. -/
theorem strings_maximal_runs (data : Bytes) :
    ∃ spans : List Span,
      (spans.Pairwise fun s t => s.stop < t.start)
      ∧ (∀ s, s ∈ spans ↔ s.start + 4 ≤ s.stop ∧ s.IsMaximalRun Printable data)
      ∧ strings data = spans.map (fun s => Text.ofUtf8 (data.extract s.start s.stop))
      ∧ (∀ (h : Host) (p : Path), h.read p = .ok data → h.strings p = .ok (strings data))
      ∧ ∀ t : Span, t.start + 4 ≤ t.stop → t.IsRun Printable data →
        ∃! s, s ∈ spans ∧ s.start ≤ t.start ∧ t.stop ≤ s.stop := by
  have hstrings : strings data
      = (stringSpans data).map (fun s => Text.ofUtf8 (data.extract s.start s.stop)) := by
    rw [strings_eq_map_ofUtf8, runs_eq_map_stringSpans, List.map_map]
    rfl
  exact ⟨stringSpans data, (Span.pairwise_ofParts 0 _).filter _, fun _ => mem_stringSpans_iff,
    hstrings, fun _ _ => Host.strings_of_read,
    fun _ hlong ht => existsUnique_mem_stringSpans ht hlong⟩

/-- Runs at both ends of the data, two separators in a row between runs, one run that is too short,
and four bytes inside of a longer run. -/
theorem strings_maximal_runs_of_ends :
    let p : Path := ⟨"/a".toList⟩
    let data : Bytes := [97, 98, 99, 100, 0, 0, 97, 98, 99, 127, 9, 120, 32, 121, 126]
    let host : Host := ⟨.ofList [(["a".toList], .file (.data data) false)], .existing [], [], []⟩
    let t : Span := ⟨11, 15⟩
    (host.read p = .ok data ∧ t.start + 4 ≤ t.stop ∧ t.IsRun Printable data)
    ∧ host.strings p = .ok ["abcd".toList, "\tx y~".toList]
    ∧ ∃ spans : List Span, ⟨0, 4⟩ ∈ spans ∧ ⟨6, 9⟩ ∉ spans ∧ ⟨10, 15⟩ ∈ spans
      ∧ strings data = spans.map (fun s => Text.ofUtf8 (data.extract s.start s.stop))
      ∧ ∃! s, s ∈ spans ∧ s.start ≤ 11 ∧ 15 ≤ s.stop := by
  intro p data host t
  have hread : host.read p = .ok data := by decide +kernel
  have ht : t.IsRun Printable data := ⟨by decide, by decide, by decide +kernel⟩
  have hfirst : Span.IsMaximalRun Printable data ⟨0, 4⟩ :=
    ⟨⟨by decide, by decide, by decide +kernel⟩, by decide +kernel, by decide +kernel⟩
  have hlast : Span.IsMaximalRun Printable data ⟨10, 15⟩ :=
    ⟨⟨by decide, by decide, by decide +kernel⟩, by decide +kernel, by decide +kernel⟩
  have htexts : strings data = ["abcd".toList, "\tx y~".toList] := by decide +kernel
  obtain ⟨spans, -, hmem, hstrings, hfile, hinside⟩ := strings_maximal_runs data
  refine ⟨⟨hread, by decide, ht⟩, (hfile host p hread).trans (congrArg _ htexts), spans,
    (hmem _).2 ⟨by decide, hfirst⟩, fun h => ?_, (hmem _).2 ⟨by decide, hlast⟩, hstrings,
    hinside t (by decide) ht⟩
  exact absurd ((hmem _).1 h).1 (by decide)

end Rehome.Binary
