import Rehome.Editor
import Rehome.Error
import Rehome.Host.ReadBack

/-!
# Tools that keep search paths

`Launcher.Keeps` says what is expected of a patch tool that keeps a search path for a binary,
whether its single calls succeed or not. A tool that keeps it in a file beside the binary is one of
them, as long as no other binary has the same file (`keeps_keeping`).
-/

namespace Rehome

/-- Has a tool carry out a call. -/
def Launcher.call (launch : Launcher) (tool : Path) (c : Call) (h : Host) : Option Output × Host :=
  launch tool c.arguments h

namespace Editor

/-- Whether a process was started and succeeded. -/
def succeeded (output : Option Output) : Bool := output.any Output.success

theorem printedEntries_of_not_succeeded {output : Option Output} (h : succeeded output = false) :
    printedEntries output = [] := by
  cases output with
  | none => rfl
  | some output =>
    have hs : output.success = false := by simpa [succeeded] using h
    simp [printedEntries, hs]

theorem outputText?_eq_none_iff {output : Option Output} :
    outputText? output = none ↔ succeeded output = false := by
  cases output with
  | none => simp [outputText?, succeeded]
  | some output => cases hs : output.success <;> simp [outputText?, succeeded, hs]

variable (launch : Launcher) (tool p : Path) (entries : List Text) (h : Host)

theorem read_patchTool : (patchTool launch tool).read p h
    = (printedEntries (launch.call tool (.print p.text) h).1,
      (launch.call tool (.print p.text) h).2) :=
  rfl

theorem write_patchTool : (patchTool launch tool).write p entries h
    = (outputText? (launch.call tool (.set (Rpath.render entries) p.text) h).1,
      (launch.call tool (.set (Rpath.render entries) p.text) h).2) :=
  rfl

end Editor

/-- What is expected of a tool that keeps a search path for a binary `p`, whatever it is called for
among `binaries`: printing changes nothing, setting the search path of another binary does not
change that of `p`, and setting that of `p` changes it only if the call succeeds. What else the tool
depends on is `good`, and stays so. -/
structure Launcher.Keeps (launch : Launcher) (tool : Path) (binaries : List Path) (p : Path)
    (good : Host → Prop) (kept : Host → Bytes) : Prop where
  good_call : ∀ q ∈ binaries, ∀ entries h, good h → good (launch.call tool (.print q.text) h).2
    ∧ good (launch.call tool (.set entries q.text) h).2
  print : ∀ q ∈ binaries, ∀ h, good h → kept (launch.call tool (.print q.text) h).2 = kept h
  set_other : ∀ q ∈ binaries, q ≠ p → ∀ entries h, good h →
    kept (launch.call tool (.set entries q.text) h).2 = kept h
  set_failed : ∀ entries h, good h →
    Editor.succeeded (launch.call tool (.set entries p.text) h).1 = false →
    kept (launch.call tool (.set entries p.text) h).2 = kept h
  set_done : ∀ entries h, good h →
    Editor.succeeded (launch.call tool (.set entries p.text) h).1 = true →
    kept (launch.call tool (.set entries p.text) h).2 = Text.utf8 entries

/-- What becomes of the search path when the empty one is set. -/
theorem Launcher.Keeps.kept_emptied {launch : Launcher} {tool p : Path} {binaries : List Path}
    {good : Host → Prop} {kept : Host → Bytes} {h : Host}
    (hk : launch.Keeps tool binaries p good kept) (hm : p ∈ binaries)
    (hg : good h) :
    let emptied := launch.call tool (.set [] p.text) (launch.call tool (.print p.text) h).2
    kept emptied.2 = if Editor.succeeded emptied.1 then [] else kept h := by
  intro emptied
  have hg' := (hk.good_call p hm [] h hg).1
  cases hs : Editor.succeeded emptied.1 with
  | false => exact (hk.set_failed [] _ hg' hs).trans (hk.print p hm h hg)
  | true => exact hk.set_done [] _ hg' hs

/-- A tool that keeps search paths in files beside the binaries. -/
def Launcher.keeping : Launcher := fun _ arguments h =>
  (some (h.run .keeper arguments).1, (h.run .keeper arguments).2)

namespace Launcher

open Host

/-- What is kept in the file beside a binary, without the end of its line. -/
def keptBeside (binary : Text) (h : Host) : Bytes :=
  match h.read (beside binary ".rpath") with
  | .ok bytes => bytes.dropLast
  | .error _ => []

theorem call_keeping_print (tool : Path) (binary : Text) (h : Host) :
    keeping.call tool (.print binary) h = (some (h.printKept binary), h) := by
  simp [call, keeping, Host.run, Call.ofArguments?_arguments]

/-- A file beside a binary that can be read keeps what is set, or the call to set it fails. -/
theorem call_keeping_set_of_read {h : Host} {binary : Text} {bytes : Bytes}
    (hr : h.read (beside binary ".rpath") = .ok bytes) (tool : Path) (entries : Text) :
    let set := keeping.call tool (.set entries binary) h
    (Editor.succeeded set.1 = false ∧ set.2 = h)
    ∨ Editor.succeeded set.1 = true
      ∧ h.write? (beside binary ".rpath") (.data (Text.utf8 (entries ++ ['\n'])))
        = some set.2 := by
  obtain ⟨h', hw⟩ := exists_of_write? hr (.data (Text.utf8 (entries ++ ['\n'])))
  simp only [call, keeping, Host.run, Call.ofArguments?_arguments]
  unfold Host.keep
  split
  · exact .inl ⟨rfl, rfl⟩
  · exact .inr ⟨rfl, by simp only [hw, Option.getD_some]⟩

/-- Whether the files beside all binaries can be read, and that of `p` is another one than those of
the others. -/
structure BesideApart (binaries : List Path) (p : Path) (h : Host) : Prop where
  readable : ∀ q ∈ binaries, ∃ bytes, h.read (beside q.text ".rpath") = .ok bytes
  apart : ∀ q ∈ binaries, q ≠ p →
    h.lookup (beside q.text ".rpath") ≠ h.lookup (beside p.text ".rpath")

instance (binaries : List Path) (p : Path) (h : Host) : Decidable (BesideApart binaries p h) :=
  decidable_of_iff
    ((∀ q ∈ binaries, ∃ bytes, h.read (beside q.text ".rpath") = .ok bytes)
      ∧ ∀ q ∈ binaries, q ≠ p →
        h.lookup (beside q.text ".rpath") ≠ h.lookup (beside p.text ".rpath"))
    ⟨fun ⟨hr, ha⟩ => ⟨hr, ha⟩, fun hg => ⟨hg.readable, hg.apart⟩⟩

section

variable {binaries : List Path} {p q : Path} {h h' : Host} {contents : Files.Contents}

theorem BesideApart.of_write? (hg : BesideApart binaries p h) (hq : q ∈ binaries)
    (hw : h.write? (beside q.text ".rpath") contents = some h') : BesideApart binaries p h' := by
  obtain ⟨bytes, hr⟩ := hg.readable q hq
  refine ⟨fun q' hq' => exists_read_of_write? hr hw (hg.readable q' hq'), fun q' hq' hne => ?_⟩
  rw [lookup_of_write? hr hw, lookup_of_write? hr hw]
  exact hg.apart q' hq' hne

/-- What is kept beside `p` stays there when the file beside another binary is written. -/
theorem BesideApart.keptBeside_eq (hg : BesideApart binaries p h) (hq : q ∈ binaries) (hne : q ≠ p)
    (hw : h.write? (beside q.text ".rpath") contents = some h') :
    keptBeside p.text h' = keptBeside p.text h := by
  obtain ⟨bytes, hr⟩ := hg.readable q hq
  unfold keptBeside
  rw [read_of_write?_of_ne hr hw fun e => hg.apart q hq hne e.symm]

/-- A tool that keeps search paths beside the binaries keeps that of `p`, among binaries whose files
are other ones. -/
theorem keeps_keeping (tool : Path) (hp : p ∈ binaries) :
    keeping.Keeps tool binaries p (BesideApart binaries p) (keptBeside p.text) where
  good_call q hq entries h hg := by
    obtain ⟨bytes, hr⟩ := hg.readable q hq
    rw [call_keeping_print]
    refine ⟨hg, ?_⟩
    obtain ⟨-, he⟩ | ⟨-, hw⟩ := call_keeping_set_of_read hr tool entries
    · rw [he]
      exact hg
    · exact hg.of_write? hq hw
  print q _ h _ := by rw [call_keeping_print]
  set_other q hq hne entries h hg := by
    obtain ⟨bytes, hr⟩ := hg.readable q hq
    obtain ⟨-, he⟩ | ⟨-, hw⟩ := call_keeping_set_of_read hr tool entries
    · rw [he]
    · exact hg.keptBeside_eq hq hne hw
  set_failed entries h hg hs := by
    obtain ⟨bytes, hr⟩ := hg.readable p hp
    obtain ⟨-, he⟩ | ⟨ho, -⟩ := call_keeping_set_of_read hr tool entries
    · rw [he]
    · rw [ho] at hs
      cases hs
  set_done entries h hg hs := by
    obtain ⟨bytes, hr⟩ := hg.readable p hp
    obtain ⟨ho, -⟩ | ⟨-, hw⟩ := call_keeping_set_of_read hr tool entries
    · rw [ho] at hs
      cases hs
    · have hline : Text.utf8 ['\n'] = [10] := by decide
      rw [keptBeside, read_of_write? hr hw, Files.Contents.bytes, Text.utf8_append, hline]
      exact List.dropLast_concat

end

end Launcher

end Rehome
