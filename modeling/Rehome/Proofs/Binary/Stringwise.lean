import Mathlib.Data.List.Forall2
import Mathlib.Data.List.TakeWhile
import Rehome.Data.Split
import Rehome.Proofs.Binary.Occurrence

/-!
# Replacing string by string

`replaceStrings?` runs through the data from one occurrence to the next NUL and on from there.
`replaceStrings_stringwise` says what this comes to: the data is cut at its NULs, each string in
front of a NUL is replaced in and filled up for itself (`Patched`), and what no NUL ends is kept.
-/

namespace Rehome.Binary

variable {old new s rest tail : Bytes}

/-! ## Data as strings -/

/-- The data that consists of these strings, each with a NUL behind it, and a tail. -/
def join (terminated : List Bytes) (tail : Bytes) : Bytes :=
  terminated.flatMap (· ++ [0]) ++ tail

/-- Where the string with a given index begins in such data. -/
def start (terminated : List Bytes) (index : Nat) : Nat :=
  (join (terminated.take index) []).length

/-- `s` and a NUL stand at an offset of the data. -/
def StringAt (data : Bytes) (offset : Nat) (s : Bytes) : Prop :=
  s ++ [0] <+: data.drop offset

/-- Data cut at its NULs: the strings that a NUL ends, and what is behind the last NUL. -/
structure Strings where
  terminated : List Bytes
  tail : Bytes
  nul_not_mem : ∀ s ∈ terminated, 0 ∉ s
  nul_not_mem_tail : 0 ∉ tail

def Strings.ofBytes (data : Bytes) : Strings where
  terminated := (data.splitOn 0).dropLast
  tail := (data.splitOn 0).getLast (List.splitOn_ne_nil 0 data)
  nul_not_mem _ hs := not_mem_of_mem_splitOn (List.dropLast_subset _ hs)
  nul_not_mem_tail := not_mem_of_mem_splitOn (List.getLast_mem _)

def Strings.bytes (strings : Strings) : Bytes :=
  join strings.terminated strings.tail

@[simp]
theorem join_nil (tail : Bytes) : join [] tail = tail := rfl

@[simp]
theorem join_cons (s : Bytes) (ss : List Bytes) (tail : Bytes) :
    join (s :: ss) tail = s ++ 0 :: join ss tail := by
  simp [join]

theorem join_append (ss ts : List Bytes) (tail : Bytes) :
    join (ss ++ ts) tail = join ss [] ++ join ts tail := by
  simp [join]

theorem intercalate_append_singleton (ss : List Bytes) (tail : Bytes) :
    List.intercalate [0] (ss ++ [tail]) = join ss tail := by
  induction ss with
  | nil => simp [List.intercalate]
  | cons s ss ih =>
    rw [List.cons_append, List.intercalate_cons_of_ne_nil (by simp), ih, join_cons]
    simp

theorem Strings.bytes_ofBytes (data : Bytes) : (ofBytes data).bytes = data := by
  rw [bytes, ofBytes, ← intercalate_append_singleton, List.dropLast_concat_getLast,
    List.intercalate_splitOn]

/-! ## Patched strings -/

/-- `out` is `s` with `old` replaced by `new` and, for each occurrence replaced, as many NULs at the
end as `new` is shorter. -/
def Patched (old new s out : Bytes) : Prop :=
  ∃ count text, Replaced old new count s text ∧
    out = text ++ List.replicate (count * (old.length - new.length)) 0

/-- The one choice for `out`, computed. -/
def patch (old new s : Bytes) : Bytes :=
  padTo s.length (replaceAll old new s)

namespace Patched

variable {out out' : Bytes}

theorem unique (h : Patched old new s out) (h' : Patched old new s out') : out = out' := by
  obtain ⟨count, text, hr, rfl⟩ := h
  obtain ⟨count', text', hr', rfl⟩ := h'
  obtain ⟨rfl, rfl⟩ := hr.unique hr'
  rfl

theorem length_eq (hlen : new.length ≤ old.length) (h : Patched old new s out) :
    out.length = s.length := by
  obtain ⟨count, text, hr, rfl⟩ := h
  rw [List.length_append, List.length_replicate, hr.length_add hlen]

theorem of_absent (h : ¬ old <:+: s) : Patched old new s s :=
  ⟨0, s, .done h, by simp⟩

end Patched

theorem patched_patch (hold : old ≠ []) (hlen : new.length ≤ old.length) (s : Bytes) :
    Patched old new s (patch old new s) := by
  obtain ⟨count, hr⟩ := exists_replaced hold new s
  refine ⟨count, _, hr, ?_⟩
  rw [patch, padTo, ← hr.length_add hlen, Nat.add_sub_cancel_left]

theorem patch_of_absent (h : ¬ old <:+: s) : patch old new s = s := by
  simp [patch, replaceAll_of_absent h, padTo]

theorem patch_of_cut? {before behind : Bytes} (hold : old ≠ [])
    (h : cut? old s = some (before, behind)) :
    patch old new s = before ++ patch old new (old ++ behind) := by
  have hcut : cut? old (old ++ behind) = some ([], behind) := by
    obtain ⟨c, cs, rfl⟩ := List.exists_cons_of_ne_nil hold
    simp [cut?]
  rw [patch, patch, replaceAll_of_cut? hold h, replaceAll_of_cut? hold hcut, eq_append_of_cut? h,
    padTo, padTo, List.nil_append, List.append_assoc]
  congr 3
  simp only [List.length_append]
  omega

/-! ## One string of the data -/

theorem prefix_of_prefix_append_nul (hnul : 0 ∉ old) (h : old <+: s ++ 0 :: rest) : old <+: s := by
  rcases Nat.lt_or_ge s.length old.length with hlt | hle
  · -- an occurrence that goes past `s` would contain the NUL
    have hsub : s ++ [0] <+: old := List.prefix_of_prefix_length_le
      (by simp) h (by rw [List.length_append]; exact hlt)
    exact absurd (hsub.subset (by simp)) hnul
  · exact List.prefix_of_prefix_length_le h (List.prefix_append s _) hle

theorem cut?_append_nul (hold : old ≠ []) (hnul : 0 ∉ old) (h : ¬ old <:+: s) (rest : Bytes) :
    cut? old (s ++ 0 :: rest) = (cut? old rest).map fun parts => (s ++ 0 :: parts.1, parts.2) := by
  induction s with
  | nil =>
    have hp : ¬ old.isPrefixOf (0 :: rest) = true := fun hp =>
      hold (List.prefix_nil.1 (prefix_of_prefix_append_nul hnul (s := [])
        (List.isPrefixOf_iff_prefix.1 hp)))
    rw [List.nil_append, cut?, if_neg hp]
    rfl
  | cons b bytes ih =>
    rw [List.infix_cons_iff, not_or] at h
    have hp : ¬ old.isPrefixOf (b :: (bytes ++ 0 :: rest)) = true := fun hp =>
      h.1 (prefix_of_prefix_append_nul hnul (s := b :: bytes) (List.isPrefixOf_iff_prefix.1 hp))
    rw [List.cons_append, cut?, if_neg hp, ih h.2, Option.map_map]
    rfl

theorem occurrence?_append_nul (hold : old ≠ []) (hnul : 0 ∉ old) (h : ¬ old <:+: s)
    (rest : Bytes) : occurrence? old (s ++ 0 :: rest) =
      (occurrence? old rest).map fun o => { o with before := s ++ 0 :: o.before } := by
  unfold occurrence?
  rw [cut?_append_nul hold hnul h]
  cases cut? old rest with
  | none => rfl
  | some parts =>
    simp only [Option.map_some]
    cases parts.2.dropWhile (· ≠ 0) <;> rfl

theorem ne_nul_of_cut? {before behind : Bytes} (hs : 0 ∉ s)
    (h : cut? old s = some (before, behind)) : ∀ b ∈ behind, decide (b ≠ 0) = true := by
  intro b hb
  refine decide_eq_true fun hb0 => hs ?_
  rw [eq_append_of_cut? h, ← hb0]
  simp [hb]

theorem occurrence?_of_cut? {before behind : Bytes} (hs : 0 ∉ s)
    (h : cut? old s = some (before, behind)) (rest : Bytes) :
    occurrence? old (s ++ 0 :: rest) = some ⟨before, old ++ behind, 0 :: rest⟩ := by
  have hbehind := ne_nul_of_cut? hs h
  simp only [occurrence?, cut?_append h, List.dropWhile_append_of_pos hbehind,
    List.takeWhile_append_of_pos hbehind]
  simp

theorem occurrence?_eq_none (htail : 0 ∉ tail) : occurrence? old tail = none := by
  cases hc : cut? old tail with
  | none => simp [occurrence?, hc]
  | some parts =>
    have hbehind := List.dropWhile_eq_nil_iff.2 (ne_nul_of_cut? htail hc)
    simp only [occurrence?, hc, hbehind]

theorem replaceStrings?_eq (hold : old ≠ []) (new data : Bytes) :
    replaceStrings? old new data = (occurrence? old data).map fun o =>
      o.before ++ patch old new o.string ++ (replaceStrings? old new o.rest).getD o.rest := by
  rw [replaceStrings?, dif_neg hold]
  split <;> simp [*, patch]

theorem replaceStrings?_of_absent (hold : old ≠ []) (hnul : 0 ∉ old) (h : ¬ old <:+: s)
    (rest : Bytes) : replaceStrings? old new (s ++ 0 :: rest) =
      (replaceStrings? old new rest).map (s ++ 0 :: ·) := by
  rw [replaceStrings?_eq hold, occurrence?_append_nul hold hnul h, replaceStrings?_eq hold new rest,
    Option.map_map, Option.map_map]
  congr 1
  funext o
  simp

theorem replaceStrings?_of_present (hold : old ≠ []) (hnul : 0 ∉ old) (hs : 0 ∉ s)
    (h : old <:+: s) (rest : Bytes) : replaceStrings? old new (s ++ 0 :: rest) =
      some (patch old new s ++ 0 :: (replaceStrings? old new rest).getD rest) := by
  obtain ⟨before, behind, hc⟩ := exists_cut?_of_present h
  -- the search goes on at the NUL, as if an empty string without the text stood in front of it
  have hnext : replaceStrings? old new (0 :: rest) =
      (replaceStrings? old new rest).map (0 :: ·) :=
    replaceStrings?_of_absent hold hnul (s := []) (by simpa using hold) rest
  rw [replaceStrings?_eq hold, occurrence?_of_cut? hs hc, Option.map_some, hnext,
    patch_of_cut? hold hc]
  cases replaceStrings? old new rest <;> rfl

/-! ## All strings of the data -/

theorem isSome_replaceStrings?_join (hold : old ≠ []) (hnul : 0 ∉ old) (new : Bytes)
    (htail : 0 ∉ tail) {ss : List Bytes} (hss : ∀ s ∈ ss, 0 ∉ s) :
    (replaceStrings? old new (join ss tail)).isSome ↔ ∃ s ∈ ss, old <:+: s := by
  induction ss with
  | nil =>
    rw [join_nil, replaceStrings?_eq hold, occurrence?_eq_none htail]
    simp
  | cons s ss ih =>
    rw [List.forall_mem_cons] at hss
    rw [join_cons, List.exists_mem_cons_iff]
    by_cases h : old <:+: s
    · simp [replaceStrings?_of_present hold hnul hss.1 h, h]
    · simp [replaceStrings?_of_absent hold hnul h, h, ih hss.2]

theorem getD_replaceStrings?_join (hold : old ≠ []) (hnul : 0 ∉ old) (new : Bytes)
    (htail : 0 ∉ tail) {ss : List Bytes} (hss : ∀ s ∈ ss, 0 ∉ s) :
    (replaceStrings? old new (join ss tail)).getD (join ss tail) =
      join (ss.map (patch old new)) tail := by
  induction ss with
  | nil =>
    rw [join_nil, replaceStrings?_eq hold, occurrence?_eq_none htail]
    simp
  | cons s ss ih =>
    rw [List.forall_mem_cons] at hss
    rw [List.map_cons, join_cons, join_cons, ← ih hss.2]
    by_cases h : old <:+: s
    · rw [replaceStrings?_of_present hold hnul hss.1 h, Option.getD_some]
    · rw [replaceStrings?_of_absent hold hnul h, patch_of_absent h]
      cases replaceStrings? old new (join ss tail) <;> rfl

/-- Patching all strings leaves one choice of a result. -/
theorem forall₂_patched_iff (hold : old ≠ []) (hlen : new.length ≤ old.length)
    {ss patched : List Bytes} :
    List.Forall₂ (Patched old new) ss patched ↔ patched = ss.map (patch old new) := by
  constructor
  · intro h
    induction h with
    | nil => rfl
    | cons hp _ ih => rw [List.map_cons, hp.unique (patched_patch hold hlen _), ih]
  · rintro rfl
    exact List.forall₂_map_right_iff.2 (List.forall₂_same.2 fun s _ => patched_patch hold hlen s)

theorem replaceStrings?_join_eq_some_iff (hold : old ≠ []) (hnul : 0 ∉ old)
    (hlen : new.length ≤ old.length) (htail : 0 ∉ tail) {ss : List Bytes} (hss : ∀ s ∈ ss, 0 ∉ s)
    (result : Bytes) : replaceStrings? old new (join ss tail) = some result ↔
      (∃ s ∈ ss, old <:+: s) ∧
        ∃ patched, List.Forall₂ (Patched old new) ss patched ∧ result = join patched tail := by
  have hsome := isSome_replaceStrings?_join hold hnul new htail hss
  have hgetD := getD_replaceStrings?_join hold hnul new htail hss
  simp only [forall₂_patched_iff hold hlen, exists_eq_left, ← hsome, ← hgetD]
  cases replaceStrings? old new (join ss tail) <;> simp [eq_comm]

/-! ## Where the strings are -/

theorem stringAt_join {ss : List Bytes} {i : Nat} (h : ss[i]? = some s) (tail : Bytes) :
    StringAt (join ss tail) (start ss i) s := by
  have hjoin : join ss tail = join (ss.take i) [] ++ join (ss.drop i) tail := by
    rw [← join_append, List.take_append_drop]
  rw [StringAt, start, hjoin, List.drop_left, List.drop_eq_getElem?_toList_append, h]
  simp

theorem drop_start_length (ss : List Bytes) (tail : Bytes) :
    (join ss tail).drop (start ss ss.length) = tail := by
  have hjoin : join ss tail = join ss [] ++ tail := by simp [join]
  rw [start, List.take_length, hjoin, List.drop_left]

theorem exists_patched_getElem? {ss patched : List Bytes} {i : Nat}
    (h : List.Forall₂ (Patched old new) ss patched) (hs : ss[i]? = some s) :
    ∃ p, patched[i]? = some p ∧ Patched old new s p := by
  induction h generalizing i with
  | nil => simp at hs
  | @cons t p ss patched hp _ ih =>
    cases i with
    | zero =>
      obtain rfl : t = s := by simpa using hs
      exact ⟨p, rfl, hp⟩
    | succ i => exact ih hs

section

variable (hlen : new.length ≤ old.length) {ss patched : List Bytes}
  (h : List.Forall₂ (Patched old new) ss patched)

include hlen h

theorem length_join_of_forall₂ (tail : Bytes) :
    (join patched tail).length = (join ss tail).length := by
  induction h with
  | nil => rfl
  | cons hp _ ih => simp [hp.length_eq hlen, ih]

theorem start_eq_of_forall₂ (i : Nat) : start patched i = start ss i :=
  length_join_of_forall₂ hlen (List.forall₂_take i h) []

/-- A patched string stands where the string stood, and is that string if there was nothing to
replace in it. -/
theorem exists_patched_stringAt {i : Nat} (hs : ss[i]? = some s) (tail : Bytes) :
    ∃ p, Patched old new s p ∧ p.length = s.length ∧ (¬ old <:+: s → p = s) ∧
      StringAt (join patched tail) (start ss i) p := by
  obtain ⟨p, hp, hsp⟩ := exists_patched_getElem? h hs
  refine ⟨p, hsp, hsp.length_eq hlen, fun hno => hsp.unique (.of_absent hno), ?_⟩
  rw [← start_eq_of_forall₂ hlen h i]
  exact stringAt_join hp tail

end

/-- Replacing a text without NULs by one that is no longer is replacing it in each string for
itself. There is nothing to do if no terminated string contains it. Otherwise each string stays
where it was and keeps its room, and the strings without the text and the tail stay as they are. -/
theorem replaceStrings_stringwise (old new data : Bytes) (hold : old ≠ []) (hnul : 0 ∉ old)
    (hlen : new.length ≤ old.length) :
    let strings := Strings.ofBytes data
    strings.bytes = data ∧
    (replaceStrings? old new data = none ↔ ∀ s ∈ strings.terminated, ¬ old <:+: s) ∧
    (∀ result, replaceStrings? old new data = some result ↔
      (∃ s ∈ strings.terminated, old <:+: s) ∧
        ∃ patched, List.Forall₂ (Patched old new) strings.terminated patched ∧
          result = join patched strings.tail) ∧
    ∀ result, replaceStrings? old new data = some result →
      result.length = data.length ∧
      (∀ i s, strings.terminated[i]? = some s →
        StringAt data (start strings.terminated i) s ∧
          ∃ p, Patched old new s p ∧ p.length = s.length ∧ (¬ old <:+: s → p = s) ∧
            StringAt result (start strings.terminated i) p) ∧
      result.drop (start strings.terminated strings.terminated.length) = strings.tail := by
  intro strings
  have hbytes : join strings.terminated strings.tail = data := Strings.bytes_ofBytes data
  have hsome := isSome_replaceStrings?_join hold hnul new strings.nul_not_mem_tail
    strings.nul_not_mem
  have hresult := replaceStrings?_join_eq_some_iff hold hnul hlen strings.nul_not_mem_tail
    strings.nul_not_mem
  rw [hbytes] at hsome hresult
  refine ⟨hbytes, ?_, hresult, fun result h => ?_⟩
  · rw [← Option.not_isSome_iff_eq_none, hsome]
    simp
  · obtain ⟨-, patched, hpatched, rfl⟩ := (hresult result).1 h
    refine ⟨?_, fun i s hs => ⟨?_, ?_⟩, ?_⟩
    · rw [length_join_of_forall₂ hlen hpatched, hbytes]
    · rw [← hbytes]
      exact stringAt_join hs strings.tail
    · exact exists_patched_stringAt hlen hpatched hs strings.tail
    · rw [← start_eq_of_forall₂ hlen hpatched, hpatched.length_eq, drop_start_length]

/-- Of two candidates that overlap the left one is replaced, and a tail that no NUL ends is kept. -/
theorem replaceStrings_stringwise_of_overlap :
    replaceStrings? [1, 1] [3] [1, 1, 1, 0, 2, 0, 1, 1] = some [3, 1, 0, 0, 2, 0, 1, 1] := by
  have h := (replaceStrings_stringwise [1, 1] [3] [1, 1, 1, 0, 2, 0, 1, 1] (by decide) (by decide)
    (by decide)).2.2.1
  have hfirst : FirstAt [1, 1] [] [1] := fun _ _ _ => Nat.zero_le _
  have hpatched : Patched [1, 1] [3] [1, 1, 1] [3, 1, 0] :=
    ⟨1, [3, 1], .next hfirst (.done (by decide)), rfl⟩
  have hkept : Patched [1, 1] [3] [2] [2] := .of_absent (by decide)
  exact (h _).2 ⟨⟨[1, 1, 1], by decide, by decide⟩, [[3, 1, 0], [2]],
    .cons hpatched (.cons hkept .nil), rfl⟩

end Rehome.Binary
