import Mathlib.Data.List.Basic
import Mathlib.Data.List.Nodup
import Rehome.Proofs.Relocation.Stored

/-!
# Every binary is accounted for

The report on a batch sorts its binaries in order (`Report.Sorts`), and what has become of one of
them does not depend on the others: if each has a slot of its own, the editor holds relocated
entries for those that were updated and what it held before for all else
(`Stores.stored_course_of_updated`, `Stores.stored_course_of_other`), so the order of the batch does
not matter (`Batch.relocateWith_accounts`).
-/

namespace Rehome

open Batch

namespace Report

/-- The lists of a report sort the paths of a batch: each path goes into one of them, those that are
not dynamic into the list of skipped ones and no others, and all lists are in order. -/
inductive Sorts (dynamic : Path → Prop) : List Path → Report → Prop where
  | nil : Sorts dynamic [] ⟨[], [], []⟩
  | updated {p : Path} {ps us fs ss : List Path} (hd : dynamic p)
    (hs : Sorts dynamic ps ⟨us, fs, ss⟩) : Sorts dynamic (p :: ps) ⟨p :: us, fs, ss⟩
  | failed {p : Path} {ps us fs ss : List Path} (hd : dynamic p)
    (hs : Sorts dynamic ps ⟨us, fs, ss⟩) : Sorts dynamic (p :: ps) ⟨us, p :: fs, ss⟩
  | skipped {p : Path} {ps us fs ss : List Path} (hd : ¬ dynamic p)
    (hs : Sorts dynamic ps ⟨us, fs, ss⟩) : Sorts dynamic (p :: ps) ⟨us, fs, p :: ss⟩

variable {dynamic : Path → Prop} {ps : List Path} {r : Report}

/-- No path is lost, and none is reported twice. -/
theorem Sorts.perm (hs : r.Sorts dynamic ps) : (r.updated ++ (r.failed ++ r.skipped)).Perm ps := by
  induction hs with
  | nil => exact .nil
  | updated _ _ ih => exact ih.cons _
  | failed _ _ ih => exact List.perm_middle.trans (ih.cons _)
  | @skipped p _ us fs ss _ _ ih =>
    rw [← List.append_assoc] at ih ⊢
    exact List.perm_middle.trans (ih.cons p)

/-- Paths with slots of their own are kept apart by their slots. -/
theorem Sorts.slot_notMem_updated {κ : Type} {slot : Path → κ} (hs : r.Sorts dynamic ps)
    (hn : (ps.map slot).Nodup) {p : Path} (hp : p ∈ r.failed ++ r.skipped) :
    slot p ∉ r.updated.map slot := by
  have hn' := (hs.perm.map slot).nodup_iff.2 hn
  rw [List.map_append] at hn'
  exact fun hu => (List.nodup_append'.1 hn').2.2 hu (List.mem_map_of_mem hp)

theorem withFate_perm {fates fates' : List (Path × Fate)} (hf : fates.Perm fates') (fate : Fate) :
    (withFate fate fates).Perm (withFate fate fates') := (hf.filter _).map _

end Report

section

variable [Path.Router Char] {σ κ : Type} {b : Batch} {h : Host} {editor : Editor σ} {ps : List Path}
  {fates : List (Path × Fate)} {s s₁ : σ}

namespace Editor.Stores

variable [DecidableEq κ] {slot : Path → κ} {stored : σ → κ → List Text} {writable : Path → Bool}
  {ts : List Target}

/-- A slot that no updated binary has stays as it is. -/
theorem stored_course_of_other (hk : editor.Stores slot stored writable)
    (hc : Course b editor ts s fates s₁) {k : κ}
    (ho : ∀ t ∈ ts, t.fate writable = .updated → slot t.path ≠ k) : stored s₁ k = stored s k := by
  refine hc.preserves (P := fun s' => stored s' k = stored s k) (fun t hmem s' _ _ ht hs => ?_) rfl
  obtain ⟨-, ⟨hu, _, -, hout⟩ | ⟨-, hsame⟩⟩ := hk.turn ht
  · rw [hout, if_neg (ho t hmem hu).symm, hs]
  · rw [hsame, hs]

/-- If no two binaries share a slot, then each updated one ends up with what its entries before the
batch are relocated to. -/
theorem stored_course_of_updated (hk : editor.Stores slot stored writable)
    (hc : Course b editor ts s fates s₁) (hn : (ts.map fun t => slot t.path).Nodup) {t : Target}
    (hmem : t ∈ ts) (hu : t.fate writable = .updated) :
    b.relocated t.path (stored s (slot t.path)) = .ok (stored s₁ (slot t.path)) := by
  induction hc with
  | nil => cases hmem
  | @cons u us _ _ s s' s'' hturn hcourse ih =>
    obtain ⟨hfirst, hrest⟩ := List.nodup_cons.1 hn
    have hother : ∀ v ∈ us, slot v.path ≠ slot u.path := fun v hv hs =>
      hfirst (List.mem_map.2 ⟨v, hv, hs⟩)
    obtain rfl | hmem := List.mem_cons.1 hmem
    · -- the later turns have other slots
      rw [hk.stored_course_of_other hcourse fun v hv _ => hother v hv]
      obtain ⟨-, ⟨-, out, ho, hs⟩ | ⟨hne, -⟩⟩ := hk.turn hturn
      · rw [ho, hs, if_pos rfl]
      · exact absurd hu hne
    · -- and so has the first one
      have hs : stored s' (slot t.path) = stored s (slot t.path) := by
        obtain ⟨-, ⟨-, out, -, hs⟩ | ⟨-, hs⟩⟩ := hk.turn hturn
        · rw [hs, if_neg (hother t hmem)]
        · rw [hs]
      rw [← hs]
      exact ih hrest hmem

/-- A slot that no binary reported as updated has stays as it is. -/
theorem stored_course_of_not_reported (hk : editor.Stores slot stored writable)
    (hc : Course b editor ts s fates s₁) {k : κ}
    (hu : k ∉ (Report.ofFates fates).updated.map slot) : stored s₁ k = stored s k := by
  refine hk.stored_course_of_other hc fun t ht hfate hs => hu ?_
  refine List.mem_map.2 ⟨t.path, Report.mem_withFate.2 ?_, hs⟩
  rw [hk.fates_eq hc, ← hfate]
  exact List.mem_map_of_mem ht

/-- If no two binaries share a slot, then each that is reported as updated ends up with what its
entries before the batch are relocated to. -/
theorem stored_course_of_reported (hk : editor.Stores slot stored writable)
    (hc : Course b editor ts s fates s₁) (hn : (ts.map fun t => slot t.path).Nodup) {p : Path}
    (hp : p ∈ (Report.ofFates fates).updated) :
    b.relocated p (stored s (slot p)) = .ok (stored s₁ (slot p)) := by
  have hfate := Report.mem_withFate.1 hp
  rw [hk.fates_eq hc] at hfate
  obtain ⟨t, ht, heq⟩ := List.mem_map.1 hfate
  obtain ⟨rfl, hu⟩ := Prod.mk.inj heq
  exact hk.stored_course_of_updated hc hn ht hu

/-- If no two binaries share a slot, the order in which they are relocated does not matter. -/
theorem stored_course_of_perm (hk : editor.Stores slot stored writable)
    (hc : Course b editor ts s fates s₁) {us : List Target} {fates' : List (Path × Fate)} {s₂ : σ}
    (hc' : Course { b with binaries := ps } editor us s fates' s₂) (hp : us.Perm ts)
    (hn : (ts.map fun t => slot t.path).Nodup) : stored s₂ = stored s₁ := by
  funext k
  by_cases h : ∃ t ∈ ts, t.fate writable = .updated ∧ slot t.path = k
  · obtain ⟨t, hmem, hu, rfl⟩ := h
    have h₁ := hk.stored_course_of_updated hc hn hmem hu
    have h₂ := hk.stored_course_of_updated hc' ((hp.map _).nodup_iff.2 hn) (hp.mem_iff.2 hmem) hu
    exact Except.ok.inj (h₂.symm.trans h₁)
  · have hother : ∀ t ∈ ts, t.fate writable = .updated → slot t.path ≠ k :=
      fun t hmem hu hs => h ⟨t, hmem, hu, hs⟩
    rw [hk.stored_course_of_other hc hother,
      hk.stored_course_of_other hc' fun t hmem => hother t (hp.mem_iff.1 hmem)]

end Editor.Stores

variable [Elf.Decoder]

/-- The fates in a batch sort its binaries. -/
theorem Batch.Course.sorts (hc : Course b editor (ps.map h.asTarget) s fates s₁) :
    (Report.ofFates fates).Sorts h.IsDynamic ps := by
  induction ps generalizing s fates with
  | nil =>
    cases hc
    exact .nil
  | cons p ps ih =>
    cases hc with
    | cons ht hc =>
      cases ht with
      | skipped hd => exact .skipped (of_decide_eq_false hd) (ih hc)
      | updated hd => exact .updated (of_decide_eq_true hd) (ih hc)
      | failed hd => exact .failed (of_decide_eq_true hd) (ih hc)

omit [Path.Router Char] in
theorem Host.filterMap_dynamicPath? (h : Host) (ps : List Path) :
    (ps.map h.asTarget).filterMap Target.dynamicPath? = ps.filter (h.IsDynamic ·) := by
  rw [List.filterMap_map, ← List.filterMap_eq_filter]
  refine List.filterMap_congr fun p _ => ?_
  simp [Target.dynamicPath?, Host.asTarget, Option.guard]

namespace Batch

variable [DecidableEq κ]

omit [Path.Router Char] in
theorem accepted_of_perm (ha : b.Accepted h) (hp : ps.Perm b.binaries) :
    { b with binaries := ps }.Accepted h :=
  ⟨ha.1, fun p hmem => ha.2 p (hp.mem_iff.1 hmem)⟩

/-- The report on an accepted batch sorts all of its binaries, and the dynamic ones are read and
written once each. With an editor that stores search paths, and in which each binary has a slot of
its own, the updated ones then have relocated entries and nothing else has changed; another order
of the binaries gives the same search paths and a report that differs in order only. -/
theorem relocateWith_accounts (ha : b.Accepted h) (editor : Editor σ) (s : σ) :
    ∃ (r : Report) (outs : List (Path × List Text)) (s₁ : σ),
      b.relocateWith h editor s = (.ok r, s₁)
      ∧ b.relocateWith h editor.recorded (s, []) = (.ok r, s₁, Editor.accesses outs)
      ∧ r.Sorts h.IsDynamic b.binaries
      ∧ outs.map Prod.fst = b.binaries.filter (h.IsDynamic ·)
      ∧ ∀ (slot : Path → κ) (stored : σ → κ → List Text) (writable : Path → Bool),
        editor.Stores slot stored writable → (b.binaries.map slot).Nodup →
          (∀ p ∈ r.updated, b.relocated p (stored s (slot p)) = .ok (stored s₁ (slot p)))
          ∧ (∀ p ∈ r.failed ++ r.skipped, stored s₁ (slot p) = stored s (slot p))
          ∧ (∀ k ∉ b.binaries.map slot, stored s₁ k = stored s k)
          ∧ ∀ ps : List Path, ps.Perm b.binaries → ∃ r' s₂,
            { b with binaries := ps }.relocateWith h editor s = (.ok r', s₂)
            ∧ stored s₂ = stored s₁ ∧ r'.updated.Perm r.updated ∧ r'.failed.Perm r.failed
            ∧ r'.skipped.Perm r.skipped := by
  obtain ⟨fates, s₁, hc⟩ := exists_course ha.1 editor (b.binaries.map h.asTarget) s
  obtain ⟨outs, houts, hrecorded⟩ := hc.recorded []
  rw [Host.filterMap_dynamicPath?] at houts
  refine ⟨.ofFates fates, outs, s₁, relocateWith_of_accepted ha hc,
    relocateWith_of_accepted ha hrecorded, hc.sorts, houts, fun slot stored writable hk hn => ?_⟩
  have hn' : ((b.binaries.map h.asTarget).map fun t => slot t.path).Nodup := by
    rwa [List.map_map]
  refine ⟨fun p => hk.stored_course_of_reported hc hn', fun p hp => ?_, fun k hmem => ?_,
    fun ps hp => ?_⟩
  · exact hk.stored_course_of_not_reported hc (hc.sorts.slot_notMem_updated hn hp)
  · refine hk.stored_course_of_not_reported hc fun hu => hmem ?_
    obtain ⟨p, hp, rfl⟩ := List.mem_map.1 hu
    exact List.mem_map_of_mem (hc.sorts.perm.subset (List.mem_append_left _ hp))
  · have ha' := accepted_of_perm ha hp
    obtain ⟨fates', s₂, hc'⟩ := exists_course ha'.1 editor (ps.map h.asTarget) s
    have hperm : fates'.Perm fates := by
      rw [hk.fates_eq hc', hk.fates_eq hc]
      exact (hp.map _).map _
    exact ⟨_, s₂, relocateWith_of_accepted ha' hc', hk.stored_course_of_perm hc hc' (hp.map _) hn',
      Report.withFate_perm hperm _, Report.withFate_perm hperm _, Report.withFate_perm hperm _⟩

end Batch

end

namespace Batch

/-- Two libraries, one that cannot be written, and a script; then the same from last to first. -/
theorem relocateWith_accounts_of_memory :
    let lib : Path := ⟨"/lib/a.so".toList⟩
    let locked : Path := ⟨"/lib/b.so".toList⟩
    let other : Path := ⟨"/lib/c.so".toList⟩
    let script : Path := ⟨"/lib/run".toList⟩
    let library := Files.Node.file (.native .succeed) true
    let host : Host := ⟨.ofList [(["lib".toList], .directory),
      (["lib".toList, "a.so".toList], library), (["lib".toList, "b.so".toList], library),
      (["lib".toList, "c.so".toList], library),
      (["lib".toList, "run".toList], .file (.data []) false)], .existing [], [], []⟩
    let b := absolute [lib, script, locked, other] ⟨"/old".toList⟩
      (.ofList [("/old".toList, "/new".toList)])
    let editor := Session.Memory.editor [locked.text]
    let m : Session.Memory := .ofList [(lib.text, ["/old/lib".toList]),
      (locked.text, ["/old/lib".toList]), (other.text, ["/usr".toList, "/old".toList])]
    let stored := fun (m : Session.Memory) t => (m.get? t).getD []
    (b.Accepted host ∧ editor.Stores Path.text stored (fun p => p.text ∉ [locked.text])
      ∧ (b.binaries.map Path.text).Nodup)
    ∧ ∃ outs m₁, b.relocateWith host editor.recorded (m, [])
        = (.ok ⟨[lib, other], [locked], [script]⟩, m₁, Editor.accesses outs)
      ∧ outs.map Prod.fst = [lib, locked, other]
      ∧ stored m₁ other.text = ["/usr".toList, "/new".toList]
      ∧ stored m₁ locked.text = ["/old/lib".toList]
      ∧ stored m₁ script.text = []
      ∧ ∃ r' m₂, { b with binaries := b.binaries.reverse }.relocateWith host editor m = (.ok r', m₂)
        ∧ stored m₂ = stored m₁ := by
  intro lib locked other script library host b editor m stored
  have hk := Session.Memory.stores_editor [locked.text]
  have hn : (b.binaries.map Path.text).Nodup := by decide
  have ha : b.Accepted host := ⟨rfl, fun p hp => accepts_iff.2 (by revert p; decide +kernel)⟩
  obtain ⟨r, outs, m₁, hrun, hrecorded, hsorts, houts, hstores⟩ :=
    relocateWith_accounts (κ := Text) ha editor m
  obtain ⟨hupdated, hsame, -, hperm⟩ := hstores _ _ _ hk hn
  obtain ⟨r', m₂, hrun', hm, -⟩ := hperm b.binaries.reverse b.binaries.reverse_perm
  have hr : r = ⟨[lib, other], [locked], [script]⟩ := by
    have h : (b.relocateWith host editor m).1 = .ok ⟨[lib, other], [locked], [script]⟩ := by
      decide +kernel
    rw [hrun] at h
    exact Except.ok.inj h
  subst hr
  refine ⟨⟨ha, hk, hn⟩, outs, m₁, hrecorded, houts.trans (by decide +kernel), ?_, ?_, ?_, r', m₂,
    hrun', hm⟩
  · exact Except.ok.inj ((hupdated other (by decide)).symm.trans (by decide +kernel))
  · exact (hsame locked (by decide)).trans (by decide)
  · exact (hsame script (by decide)).trans (by decide)

end Batch

end Rehome
