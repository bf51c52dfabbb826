import Rehome.Text.Utf8

/-!
# Characters stay apart in UTF-8

No byte inside a character can begin one, and no character begins another one. So where the bytes of
two texts meet, the characters do: what ends the bytes of one text and begins those of another one
is made of whole characters (`exists_of_utf8_overlap`), and a text whose bytes occur in those of
another one occurs in it (`utf8_infix_iff`).
-/

namespace Rehome.Text

open String

variable {s t : Text} {x y z : Bytes}

theorem utf8_cons (c : Char) (t : Text) : utf8 (c :: t) = utf8EncodeChar c ++ utf8 t :=
  List.flatMap_cons

theorem utf8_eq_nil_iff : utf8 t = [] ↔ t = [] := by
  cases t with
  | nil => simp [utf8]
  | cons c t => simp [utf8_cons, utf8EncodeChar_ne_nil]

/-- A character has a first byte, and no other byte of it could be one. -/
theorem exists_utf8EncodeChar_eq (c : Char) :
    ∃ b rest, utf8EncodeChar c = b :: rest ∧ b.IsUTF8FirstByte
      ∧ ∀ r ∈ rest, ¬ r.IsUTF8FirstByte := by
  obtain ⟨b, rest, h⟩ := List.exists_cons_of_ne_nil (utf8EncodeChar_ne_nil (c := c))
  have hfirst : ∀ i (hi : i < (b :: rest).length), (b :: rest)[i].IsUTF8FirstByte ↔ i = 0 := by
    rw [← h]
    exact fun i hi => UInt8.isUTF8FirstByte_getElem_utf8EncodeChar
  refine ⟨b, rest, h, (hfirst 0 (by simp)).2 rfl, fun r hr => ?_⟩
  obtain ⟨i, hi, rfl⟩ := List.mem_iff_getElem.1 hr
  have := hfirst (i + 1) (by simpa using hi)
  simpa using this

/-- What follows a character does not change it. -/
theorem eq_of_utf8EncodeChar_append {c d : Char}
    (h : utf8EncodeChar c ++ x = utf8EncodeChar d ++ y) : c = d := by
  have hbytes := congrArg (fun bytes => bytes.toByteArray.utf8DecodeChar? 0) h
  simp only [List.toByteArray_append, ByteArray.utf8DecodeChar?_utf8EncodeChar_append] at hbytes
  exact Option.some.inj hbytes

theorem exists_append_of_utf8 (h : utf8 s ++ x = utf8 t) : ∃ r, t = s ++ r := by
  induction s generalizing t with
  | nil => exact ⟨t, rfl⟩
  | cons c s ih =>
    cases t with
    | nil => simp [utf8, utf8EncodeChar_ne_nil] at h
    | cons d t =>
      rw [utf8_cons, utf8_cons, List.append_assoc] at h
      obtain rfl := eq_of_utf8EncodeChar_append h
      obtain ⟨r, rfl⟩ := ih (List.append_cancel_left h)
      exact ⟨r, rfl⟩

/-- A text can be cut in front of each byte that begins a character. -/
theorem exists_cut_of_utf8 (h : utf8 t = x ++ z) (hz : ∀ b ∈ z.head?, b.IsUTF8FirstByte) :
    ∃ front back, t = front ++ back ∧ utf8 front = x ∧ utf8 back = z := by
  induction t generalizing x with
  | nil =>
    obtain ⟨rfl, rfl⟩ := List.append_eq_nil_iff.1 h.symm
    exact ⟨[], [], rfl, rfl, rfl⟩
  | cons c t ih =>
    cases x with
    | nil => exact ⟨[], c :: t, rfl, rfl, h⟩
    | cons a x =>
      obtain ⟨b, rest, hc, -, hrest⟩ := exists_utf8EncodeChar_eq c
      rw [utf8_cons, hc, List.cons_append, List.cons_append, List.cons.injEq] at h
      obtain ⟨rfl, h⟩ := h
      -- the cut is behind the bytes of `c`, or in front of one of them that begins no character
      obtain ⟨mid, rfl, ht⟩ | ⟨mid, hmid, ht⟩ := List.append_eq_append_iff.1 h
      · obtain ⟨front, back, rfl, hfront, hback⟩ := ih ht
        exact ⟨c :: front, back, rfl, by rw [utf8_cons, hc, hfront]; rfl, hback⟩
      · cases mid with
        | nil =>
          rw [List.append_nil] at hmid
          refine ⟨[c], t, rfl, ?_, ht.symm⟩
          rw [utf8_cons, hc, hmid]
          simp [utf8]
        | cons m mid =>
          have hm : m ∈ z.head? := by rw [ht]; rfl
          exact absurd (hz m hm) (hrest m (by rw [hmid]; simp))

theorem isUTF8FirstByte_head? (h : z <+: utf8 t) : ∀ b ∈ z.head?, b.IsUTF8FirstByte := by
  intro b hb
  obtain ⟨z, rfl⟩ := List.head?_eq_some_iff.1 hb
  obtain ⟨y, hy⟩ := h
  cases t with
  | nil => cases hy
  | cons c t =>
    obtain ⟨a, rest, hc, ha, -⟩ := exists_utf8EncodeChar_eq c
    rw [utf8_cons, hc, List.cons_append, List.cons_append, List.cons.injEq] at hy
    exact hy.1 ▸ ha

/-- Where the bytes of a text end with what those of another one begin with, so do the texts. -/
theorem exists_of_utf8_overlap (hs : z <:+ utf8 s) (ht : z <+: utf8 t) :
    ∃ part, utf8 part = z ∧ part <:+ s ∧ part <+: t := by
  obtain ⟨x, hx⟩ := hs
  obtain ⟨front, part, rfl, -, rfl⟩ := exists_cut_of_utf8 hx.symm (isUTF8FirstByte_head? ht)
  obtain ⟨y, hy⟩ := ht
  obtain ⟨r, rfl⟩ := exists_append_of_utf8 hy
  exact ⟨part, rfl, List.suffix_append front part, List.prefix_append part r⟩

theorem utf8_infix_iff : utf8 s <:+: utf8 t ↔ s <:+: t := by
  constructor
  · rintro ⟨x, y, h⟩
    by_cases hs : s = []
    · exact hs ▸ List.nil_infix
    have hhead : ∀ b ∈ (utf8 s ++ y).head?, b.IsUTF8FirstByte := by
      obtain ⟨b, bytes, hb⟩ := List.exists_cons_of_ne_nil (mt utf8_eq_nil_iff.1 hs)
      have hfirst := isUTF8FirstByte_head? (List.prefix_refl (utf8 s))
      rw [hb] at hfirst ⊢
      exact hfirst
    rw [List.append_assoc] at h
    obtain ⟨front, back, rfl, -, hback⟩ := exists_cut_of_utf8 h.symm hhead
    obtain ⟨r, rfl⟩ := exists_append_of_utf8 hback.symm
    exact List.infix_append' front s r
  · rintro ⟨x, y, rfl⟩
    exact ⟨utf8 x, utf8 y, by rw [utf8_append, utf8_append]⟩

theorem nul_mem_utf8EncodeChar_iff {c : Char} : 0 ∈ utf8EncodeChar c ↔ c = '\x00' := by
  constructor
  · intro h
    obtain ⟨b, rest, hc, -, hrest⟩ := exists_utf8EncodeChar_eq c
    rw [hc] at h
    obtain rfl := (List.mem_cons.1 h).resolve_right fun hr => hrest 0 hr (.inl rfl)
    have hnul : utf8EncodeChar c ++ [] = utf8EncodeChar '\x00' ++ rest := by
      rw [hc, List.append_nil]
      rfl
    exact eq_of_utf8EncodeChar_append hnul
  · rintro rfl
    decide

/-- Only the NUL character has a NUL among its bytes. -/
theorem nul_mem_utf8_iff : 0 ∈ utf8 t ↔ '\x00' ∈ t := by
  simp [utf8, List.mem_flatMap, nul_mem_utf8EncodeChar_iff]

end Rehome.Text
