import Rehome.Proofs.Relocation.Outcome
import Rehome.Proofs.Rpath.FixedPoint
import Rehome.Session.Memory

/-!
# Editors that store search paths

`Editor.Stores` says what is expected of an editor that keeps one list of entries for each binary
and can write it or not, whatever the entries are. With such an editor a turn replaces the entries
of its own binary or changes nothing (`Stores.turn`), and the fates in a batch are known beforehand
(`Stores.fates_eq`). A batch in absolute style whose old and new prefixes are separated can be run
again: nothing changes any more (`Batch.absolute_run_again`).
-/

namespace Rehome

variable {σ κ : Type} [DecidableEq κ]

/-- What is expected of an editor that keeps one list of entries in the slot of each binary: reading
gives it and changes nothing, and writing replaces it or, for a binary that is not writable, fails
and changes nothing. Several paths may share a slot. -/
structure Editor.Stores (editor : Editor σ) (slot : Path → κ) (stored : σ → κ → List Text)
    (writable : Path → Bool) : Prop where
  read : ∀ p s, (editor.read p s).1 = stored s (slot p)
  stored_read : ∀ p s, stored (editor.read p s).2 = stored s
  isSome_write : ∀ p entries s, (editor.write p entries s).1.isSome = writable p
  stored_write : ∀ p entries s k, stored (editor.write p entries s).2 k
    = if writable p = true ∧ k = slot p then entries else stored s k

/-- What becomes of a binary if nothing but the binary decides whether it can be written. -/
def Target.fate (writable : Path → Bool) (t : Target) : Fate :=
  if t.dynamic then if writable t.path then .updated else .failed else .skipped

namespace Editor.Stores

open Batch

section

variable [Path.Router Char]

variable {editor : Editor σ} {slot : Path → κ} {stored : σ → κ → List Text}
  {writable : Path → Bool} {b : Batch} {t : Target} {ts : List Target} {fate : Fate}
  {fates : List (Path × Fate)} {s s₁ : σ}

/-- A turn replaces the entries of its own binary, or changes nothing. -/
theorem turn (hk : editor.Stores slot stored writable) (ht : Turn b editor t s fate s₁) :
    fate = t.fate writable ∧
      (t.fate writable = .updated ∧ (∃ out, b.relocated t.path (stored s (slot t.path)) = .ok out
          ∧ ∀ k, stored s₁ k = if k = slot t.path then out else stored s k)
        ∨ t.fate writable ≠ .updated ∧ stored s₁ = stored s) := by
  cases ht with
  | skipped hd => simp [Target.fate, hd]
  | @updated entries out said s' _ hd hr ho hw =>
    have hwritable := hk.isSome_write t.path out s'
    have hstored := hk.stored_write t.path out s'
    have hentries := hk.read t.path s
    have hsame := hk.stored_read t.path s
    rw [hw] at hwritable hstored
    rw [hr] at hentries hsame
    subst hentries
    rw [hsame] at hstored
    have hf : t.fate writable = .updated := by simp [Target.fate, hd, ← hwritable]
    refine ⟨hf.symm, .inl ⟨hf, out, ho, fun k => ?_⟩⟩
    simpa [← hwritable] using hstored k
  | @failed entries out s' _ hd hr ho hw =>
    have hwritable := hk.isSome_write t.path out s'
    have hstored := hk.stored_write t.path out s'
    have hsame := hk.stored_read t.path s
    rw [hw] at hwritable hstored
    rw [hr] at hsame
    rw [hsame] at hstored
    have hf : t.fate writable = .failed := by simp [Target.fate, hd, ← hwritable]
    refine ⟨hf.symm, .inr ⟨by simp [hf], funext fun k => ?_⟩⟩
    simpa [← hwritable] using hstored k

/-- The fates in a batch do not depend on what is stored. -/
theorem fates_eq (hk : editor.Stores slot stored writable) (hc : Course b editor ts s fates s₁) :
    fates = ts.map fun t => (t.path, t.fate writable) := by
  induction hc with
  | nil => rfl
  | cons ht _ ih => rw [List.map_cons, ih, (hk.turn ht).1]

/-! ## Running a batch again -/

section

variable {f : List Text → List Text}
  (hf : ∀ (p : Path) (entries : List Text), b.relocated p entries = .ok (f entries))

include hf

/-- What a batch with one and the same effect on all binaries leaves in a slot: with each turn for
the slot the entries are replaced once more. -/
theorem stored_turn (hk : editor.Stores slot stored writable) (ht : Turn b editor t s fate s₁)
    (k : κ) : stored s₁ k = if t.fate writable = .updated ∧ k = slot t.path then f (stored s k)
      else stored s k := by
  obtain ⟨-, ⟨hu, out, ho, hs⟩ | ⟨hu, hs⟩⟩ := hk.turn ht
  · rw [hf, Except.ok.injEq] at ho
    rw [hs]
    by_cases hkt : k = slot t.path <;> simp [hu, hkt, ho]
  · simp [hu, hs]

/-- Entries on which the effect is used up stay. -/
theorem settled_turn (hff : ∀ entries, f (f entries) = f entries)
    (hk : editor.Stores slot stored writable) (ht : Turn b editor t s fate s₁) {k : κ}
    (hs : f (stored s k) = stored s k) : f (stored s₁ k) = stored s₁ k := by
  rw [hk.stored_turn hf ht]
  split
  · exact hff _
  · exact hs

/-- After a batch, its effect is used up on all binaries that it has updated. -/
theorem settled_course (hff : ∀ entries, f (f entries) = f entries)
    (hk : editor.Stores slot stored writable) (hc : Course b editor ts s fates s₁) :
    ∀ t ∈ ts, t.fate writable = .updated →
      f (stored s₁ (slot t.path)) = stored s₁ (slot t.path) := by
  induction hc with
  | nil => simp
  | @cons t ts _ _ s s' s'' ht hc ih =>
    refine List.forall_mem_cons.2 ⟨fun hu => ?_, ih⟩
    -- used up in the turn of `t`, and then by no later turn undone
    have hown : f (stored s' (slot t.path)) = stored s' (slot t.path) := by
      rw [hk.stored_turn hf ht, if_pos ⟨hu, rfl⟩]
      exact hff _
    exact hc.preserves (P := fun s => f (stored s (slot t.path)) = stored s (slot t.path))
      (fun _ _ _ _ _ hu => hk.settled_turn hf hff hu) hown

/-- A batch whose effect is used up changes nothing. -/
theorem stored_course_of_settled (hk : editor.Stores slot stored writable)
    (hc : Course b editor ts s fates s₁)
    (hs : ∀ t ∈ ts, t.fate writable = .updated →
      f (stored s (slot t.path)) = stored s (slot t.path)) :
    stored s₁ = stored s := by
  induction hc with
  | nil => rfl
  | @cons t ts _ _ s s' s'' ht hc ih =>
    obtain ⟨ht', hts⟩ := List.forall_mem_cons.1 hs
    have hsame : stored s' = stored s := by
      funext k
      rw [hk.stored_turn hf ht]
      split
      · rename_i h
        rw [h.2, ht' h.1]
      · rfl
    rw [ih (by rwa [hsame]), hsame]

end

end

end Editor.Stores

/-- The editor over a memory stores search paths by the texts of paths. -/
theorem Session.Memory.stores_editor (failing : List Text) :
    (Session.Memory.editor failing).Stores Path.text (fun m t => (m.get? t).getD [])
      (fun p => p.text ∉ failing) where
  read p m := rfl
  stored_read p m := rfl
  isSome_write p entries m := by
    unfold editor
    by_cases h : p.text ∈ failing <;> simp [h]
  stored_write p entries m k := by
    unfold editor
    by_cases h : p.text ∈ failing
    · simp [h]
    · simp only [h, if_false, OrderedMap.get?_insert]
      by_cases hk : k = p.text <;> simp [hk]

namespace Batch

section

variable [Elf.Decoder] [Path.Router Char] {b : Batch} {editor : Editor σ} {slot : Path → κ}
  {stored : σ → κ → List Text} {writable : Path → Bool}

/-- In absolute style, with separated prefixes, a second run of a batch finds everything done: it
leaves the search paths as they are, and reports the same or fails in the same way. -/
theorem absolute_run_again (hs : b.style = .absolute) (hm : b.substitution.Separated)
    (hk : editor.Stores slot stored writable) (h : Host) (s : σ) :
    let once := b.relocateWith h editor s
    let twice := b.relocateWith h editor once.2
    twice.1 = once.1 ∧ stored twice.2 = stored once.2 := by
  intro once twice
  have hf : ∀ (p : Path) (entries : List Text),
      b.relocated p entries = .ok (b.substitution.replaceAll entries) := by
    intro p entries
    simp [relocated, hs]
  obtain ha | ⟨fault, hr⟩ := accepted_or_refused b h
  · obtain ⟨fates, s₁, hc⟩ := exists_course ha.1 editor (b.binaries.map h.asTarget) s
    obtain ⟨fates', s₂, hc'⟩ := exists_course ha.1 editor (b.binaries.map h.asTarget) s₁
    have honce : once = (.ok (.ofFates fates), s₁) := relocateWith_of_accepted ha hc
    have htwice : twice = (.ok (.ofFates fates'), s₂) := by
      rw [← relocateWith_of_accepted ha hc']
      exact congrArg (fun o => b.relocateWith h editor o.2) honce
    have hsettled := hk.settled_course hf hm.replaceAll_replaceAll hc
    rw [honce, htwice]
    exact ⟨by rw [hk.fates_eq hc, hk.fates_eq hc'], hk.stored_course_of_settled hf hc' hsettled⟩
  · have honce : once = (.error fault, s) := relocateWith_of_refused hr editor s
    have htwice : twice = (.error fault, once.2) := relocateWith_of_refused hr editor once.2
    rw [htwice]
    exact ⟨by rw [honce], rfl⟩

end

/-- A batch with a binary that occurs twice, one that cannot be written, and a script. -/
theorem absolute_run_again_of_memory :
    let lib : Path := ⟨"/lib/a.so".toList⟩
    let locked : Path := ⟨"/lib/b.so".toList⟩
    let script : Path := ⟨"/lib/run".toList⟩
    let host : Host := ⟨.ofList [(["lib".toList], .directory),
      (["lib".toList, "a.so".toList], .file (.native .succeed) true),
      (["lib".toList, "b.so".toList], .file (.native .succeed) true),
      (["lib".toList, "run".toList], .file (.data []) false)], .existing [], [], []⟩
    let b := absolute [lib, script, locked, lib] ⟨"/old".toList⟩
      (.ofList [("/old".toList, "/new".toList), ("/old/gcc".toList, "/usr".toList)])
    let editor := Session.Memory.editor [locked.text]
    let m : Session.Memory := .ofList
      [(lib.text, ["/old/lib".toList, "/new/lib".toList, "/old/gcc/lib".toList]),
        (locked.text, ["/old/lib".toList])]
    let once := b.relocateWith host editor m
    let twice := b.relocateWith host editor once.2
    (b.style = .absolute ∧ b.substitution.Separated
      ∧ editor.Stores Path.text (fun m t => (m.get? t).getD []) (fun p => p.text ∉ [locked.text]))
    ∧ once.1 = .ok ⟨[lib, lib], [locked], [script]⟩
    ∧ (once.2.get? lib.text).getD [] = ["/new/lib".toList, "/usr/lib".toList]
    ∧ (once.2.get? locked.text).getD [] = ["/old/lib".toList]
    ∧ twice.1 = once.1
    ∧ (fun t => (twice.2.get? t).getD []) = fun t => (once.2.get? t).getD [] := by
  intro lib locked script host b editor m once twice
  have hk := Session.Memory.stores_editor [locked.text]
  have hm : b.substitution.Separated := by decide
  exact ⟨⟨rfl, hm, hk⟩, by decide +kernel, by decide +kernel, by decide +kernel,
    absolute_run_again rfl hm hk host m⟩

end Batch

end Rehome
