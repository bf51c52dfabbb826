import Rehome.Text.Utf8

/-!
# Theory of reading bytes as text

Bytes that are UTF-8 read as the text they were made of (`ofUtf8_utf8`). A byte below `0x80` is a
character of its own wherever it stands: what is in front of it and what is behind it are read apart
(`ofUtf8_append_cons`), and no other byte reads as that character (`eq_of_firstChar`).
-/

namespace Rehome.Text

variable {b lead : UInt8} {bytes rest : Bytes} {c : Char} {value count skip : Nat}

/-! ## Bytes below `0x80` -/

theorem firstChar_of_lt (h : lead < 0x80) (bytes : Bytes) :
    firstChar lead bytes = (Char.ofNat lead.toNat, 0) := if_pos h

theorem isContinuation_of_lt (h : b < 0x80) : isContinuation b = false := by
  have hn : ¬ (0x80 : UInt8) ≤ b := UInt8.not_le.2 h
  simp [isContinuation, hn]

/-- The range that a lead byte leaves for the byte behind it has none below `0x80`. -/
theorem le_of_leadShape? {low high : UInt8} {more : Nat}
    (h : leadShape? lead = some ((low, high), more)) : 0x80 ≤ low := by
  unfold leadShape? at h
  repeat' split at h
  all_goals cases h
  all_goals decide

section

variable (hb : b < 0x80)

include hb

/-- A byte below `0x80` ends every character in front of it. -/
theorem continueFrom_append (value count : Nat) (bytes rest : Bytes) :
    continueFrom value count (bytes ++ b :: rest) = continueFrom value count bytes := by
  induction bytes generalizing value count with
  | nil =>
    cases count with
    | zero => rfl
    | succ count => simp [continueFrom, isContinuation_of_lt hb]
  | cons d bytes ih =>
    cases count with
    | zero => rfl
    | succ count => simp only [List.cons_append, continueFrom, ih]

theorem firstChar_append (lead : UInt8) (bytes rest : Bytes) :
    firstChar lead (bytes ++ b :: rest) = firstChar lead bytes := by
  unfold firstChar
  split
  · rfl
  · cases hs : leadShape? lead with
    | none => rfl
    | some shape =>
      obtain ⟨⟨low, high⟩, more⟩ := shape
      cases bytes with
      | nil =>
        have hlow : ¬ low ≤ b :=
          fun h => UInt8.not_le.2 hb (UInt8.le_trans (le_of_leadShape? hs) h)
        simp [hlow]
      | cons second bytes => simp only [List.cons_append, continueFrom_append hb]

end

theorem length_of_continueFrom {v : Nat} (h : continueFrom value count bytes = .ok v) :
    count ≤ bytes.length := by
  induction count generalizing value bytes with
  | zero => exact Nat.zero_le _
  | succ count ih =>
    cases bytes with
    | nil => cases h
    | cons b bytes =>
      simp only [continueFrom] at h
      split at h
      · split at h
        · rename_i w hw
          cases h
          exact Nat.succ_le_succ (ih hw)
        · cases h
      · cases h

theorem length_of_continueFrom_error {good : Nat}
    (h : continueFrom value count bytes = .error good) : good ≤ bytes.length := by
  induction count generalizing value bytes good with
  | zero => cases h
  | succ count ih =>
    cases bytes with
    | nil => cases h; exact Nat.le_refl _
    | cons b bytes =>
      simp only [continueFrom] at h
      split at h
      · split at h
        · cases h
        · rename_i g hg
          cases h
          exact Nat.succ_le_succ (ih hg)
      · cases h; exact Nat.zero_le _

/-- A character has no more bytes than there are. -/
theorem firstChar_length (lead : UInt8) (bytes : Bytes) :
    (firstChar lead bytes).2 ≤ bytes.length := by
  unfold firstChar
  split
  · exact Nat.zero_le _
  · split
    · rename_i more second others _
      split
      · split
        · rename_i v h
          exact Nat.succ_le_succ (length_of_continueFrom h)
        · rename_i good h
          exact Nat.succ_le_succ (length_of_continueFrom_error h)
      · exact Nat.zero_le _
    · exact Nat.zero_le _

theorem ofUtf8After_append_cons (hb : b < 0x80) (bytes rest : Bytes) (hskip : skip ≤ bytes.length) :
    ofUtf8After skip (bytes ++ b :: rest)
      = ofUtf8After skip bytes ++ Char.ofNat b.toNat :: ofUtf8 rest := by
  induction bytes generalizing skip with
  | nil =>
    obtain rfl : skip = 0 := by simpa using hskip
    simp [ofUtf8After, firstChar_of_lt hb, ofUtf8]
  | cons lead bytes ih =>
    cases skip with
    | succ skip => exact ih (by simpa using hskip)
    | zero =>
      rw [List.cons_append, ofUtf8After, firstChar_append hb, ih (firstChar_length lead bytes)]
      rfl

/-- What is in front of a byte below `0x80` and what is behind it are read apart. -/
theorem ofUtf8_append_cons (hb : b < 0x80) (bytes rest : Bytes) :
    ofUtf8 (bytes ++ b :: rest) = ofUtf8 bytes ++ Char.ofNat b.toNat :: ofUtf8 rest :=
  ofUtf8After_append_cons hb bytes rest (Nat.zero_le _)

/-! ## Characters below `0x80` -/

theorem le_of_continueFrom {v : Nat} (h : continueFrom value count bytes = .ok v) :
    value * Nat.pow 64 count ≤ v := by
  induction count generalizing value bytes with
  | zero =>
    cases h
    exact Nat.le_of_eq (Nat.mul_one _)
  | succ count ih =>
    cases bytes with
    | nil => cases h
    | cons b bytes =>
      simp only [continueFrom] at h
      split at h
      · split at h
        · rename_i w hw
          cases h
          have hpow : Nat.pow 64 (count + 1) = Nat.pow 64 count * 64 := rfl
          calc value * Nat.pow 64 (count + 1) = value * 64 * Nat.pow 64 count := by
                rw [hpow, Nat.mul_comm (Nat.pow 64 count), Nat.mul_assoc]
            _ ≤ (value * 64 + b.toNat % 64) * Nat.pow 64 count :=
                Nat.mul_le_mul_right _ (Nat.le_add_right _ _)
            _ ≤ _ := ih hw
        · cases h
      · cases h

/-- What a lead byte and the byte behind it stand for is `0x80` at least. -/
theorem le_value_of_leadShape? {low high second : UInt8} {more : Nat}
    (h : leadShape? lead = some ((low, high), more)) (hlow : low ≤ second) (hhigh : second ≤ high) :
    0x80 ≤ (leadValue lead * 64 + second.toNat % 64) * Nat.pow 64 more := by
  unfold leadShape? at h
  unfold leadValue
  simp only [Bool.and_eq_true, decide_eq_true_eq, UInt8.le_iff_toNat_le, UInt8.lt_iff_toNat_lt,
    ← UInt8.toNat_inj] at h hlow hhigh ⊢
  repeat' split at h
  all_goals cases h
  all_goals simp only [UInt8.reduceToNat, Nat.pow] at *
  all_goals grind

theorem toNat_ofNat_of_ne {n : Nat} (h : (Char.ofNat n).toNat ≠ 0) : (Char.ofNat n).toNat = n := by
  unfold Char.ofNat at h ⊢
  by_cases hv : n.isValidChar
  · rw [dif_pos hv]
    rfl
  · rw [dif_neg hv] at h
    exact absurd rfl h

/-- A byte of `0x80` or above reads as a character of `0x80` or above. -/
theorem exists_firstChar_eq (h : ¬ lead < 0x80) (bytes : Bytes) :
    ∃ value, 0x80 ≤ value ∧ (firstChar lead bytes).1 = Char.ofNat value := by
  have hother : ∃ value, 0x80 ≤ value ∧ replacementChar = Char.ofNat value :=
    ⟨0xFFFD, by decide, rfl⟩
  unfold firstChar
  rw [if_neg h]
  split
  · rename_i hs
    split
    · rename_i hrange
      obtain ⟨hlow, hhigh⟩ := Bool.and_eq_true_iff.1 hrange
      split
      · rename_i value hvalue
        have hle := le_value_of_leadShape? hs (of_decide_eq_true hlow) (of_decide_eq_true hhigh)
        exact ⟨value, Nat.le_trans hle (le_of_continueFrom hvalue), rfl⟩
      · exact hother
    · exact hother
  · exact hother

/-- A character below `0x80` is read from a byte of its own. -/
theorem eq_of_firstChar {c : Char} (hc : c.toNat ≠ 0) (hlt : c.toNat < 0x80)
    (h : (firstChar lead bytes).1 = c) : firstChar lead bytes = (c, 0) ∧ lead.toNat = c.toNat := by
  subst h
  by_cases hlead : lead < 0x80
  · rw [firstChar_of_lt hlead] at hc ⊢
    exact ⟨rfl, (toNat_ofNat_of_ne hc).symm⟩
  · obtain ⟨value, hle, he⟩ := exists_firstChar_eq hlead bytes
    rw [he] at hc hlt
    rw [toNat_ofNat_of_ne hc] at hlt
    omega

theorem mem_of_mem_ofUtf8After {c : Char} (hc : c.toNat ≠ 0) (hlt : c.toNat < 0x80)
    (h : c ∈ ofUtf8After skip bytes) : UInt8.ofNat c.toNat ∈ bytes := by
  induction bytes generalizing skip with
  | nil => simp [ofUtf8After] at h
  | cons lead bytes ih =>
    cases skip with
    | succ skip => exact List.mem_cons_of_mem lead (ih h)
    | zero =>
      rw [ofUtf8After, List.mem_cons] at h
      obtain h | h := h
      · have hlead := (eq_of_firstChar hc hlt h.symm).2
        rw [← hlead, UInt8.ofNat_toNat]
        exact List.mem_cons_self
      · exact List.mem_cons_of_mem lead (ih h)

theorem eq_cons_of_ofUtf8 {c : Char} {text : Text} (hc : c.toNat ≠ 0) (hlt : c.toNat < 0x80)
    (h : ofUtf8 bytes = c :: text) :
    ∃ rest, bytes = UInt8.ofNat c.toNat :: rest ∧ ofUtf8 rest = text := by
  cases bytes with
  | nil => cases h
  | cons lead bytes =>
    rw [ofUtf8, ofUtf8After, List.cons.injEq] at h
    obtain ⟨hfirst, hlead⟩ := eq_of_firstChar hc hlt h.1
    refine ⟨bytes, ?_, ?_⟩
    · rw [← hlead, UInt8.ofNat_toNat]
    · rw [← h.2, hfirst]
      rfl

/-! ## Bytes that are UTF-8 -/

/-- A byte that continues a character, by its value. -/
theorem continueFrom_cons (value count n : Nat) (bytes : Bytes) :
    continueFrom value (count + 1) (UInt8.ofNat (n % 64 + 128) :: bytes)
      = match continueFrom (value * 64 + n % 64) count bytes with
        | .ok v => .ok v
        | .error good => .error (good + 1) := by
  have hn : (UInt8.ofNat (n % 64 + 128)).toNat = n % 64 + 128 := by
    rw [UInt8.toNat_ofNat']
    omega
  have hc : isContinuation (UInt8.ofNat (n % 64 + 128)) = true := by
    simp only [isContinuation, Bool.and_eq_true, decide_eq_true_eq, UInt8.le_iff_toNat_le, hn,
      UInt8.reduceToNat]
    omega
  have hm : (n % 64 + 128) % 64 = n % 64 := by omega
  cases h : continueFrom (value * 64 + n % 64) count bytes <;>
    simp only [continueFrom, if_pos hc, hn, hm, h]

/-- The lead byte of a character lets its next byte stand behind it. -/
theorem exists_leadShape? {n second more : Nat} (h : 0xC2 ≤ n ∧ n ≤ 0xDF ∧ more = 0
    ∨ 0xE0 ≤ n ∧ n ≤ 0xEF ∧ more = 1 ∧ (n = 0xE0 → 0xA0 ≤ second) ∧ (n = 0xED → second ≤ 0x9F)
    ∨ 0xF0 ≤ n ∧ n ≤ 0xF4 ∧ more = 2 ∧ (n = 0xF0 → 0x90 ≤ second) ∧ (n = 0xF4 → second ≤ 0x8F))
    (hsecond : 0x80 ≤ second ∧ second ≤ 0xBF) :
    ∃ low high, leadShape? (UInt8.ofNat n) = some ((low, high), more)
      ∧ low ≤ UInt8.ofNat second ∧ UInt8.ofNat second ≤ high := by
  have hn : (UInt8.ofNat n).toNat = n := by rw [UInt8.toNat_ofNat']; omega
  have hs : (UInt8.ofNat second).toNat = second := by rw [UInt8.toNat_ofNat']; omega
  unfold leadShape?
  simp only [Bool.and_eq_true, decide_eq_true_eq, UInt8.le_iff_toNat_le, ← UInt8.toNat_inj, hn, hs,
    UInt8.reduceToNat]
  split
  · obtain rfl : more = 0 := by omega
    exact ⟨_, _, rfl, hsecond⟩
  split
  · obtain rfl : more = 1 := by omega
    exact ⟨_, _, rfl, (by omega : 0xA0 ≤ second), hsecond.2⟩
  split
  · obtain rfl : more = 1 := by omega
    exact ⟨_, _, rfl, hsecond.1, (by omega : second ≤ 0x9F)⟩
  split
  · obtain rfl : more = 1 := by omega
    exact ⟨_, _, rfl, hsecond⟩
  split
  · obtain rfl : more = 2 := by omega
    exact ⟨_, _, rfl, (by omega : 0x90 ≤ second), hsecond.2⟩
  split
  · obtain rfl : more = 2 := by omega
    exact ⟨_, _, rfl, hsecond⟩
  split
  · obtain rfl : more = 2 := by omega
    exact ⟨_, _, rfl, hsecond.1, (by omega : second ≤ 0x8F)⟩
  · omega

/-- A character of several bytes, by the values of its first two. -/
theorem firstChar_of_lead {n m : Nat} (more : Nat) (h : 0xC2 ≤ n ∧ n ≤ 0xDF ∧ more = 0
    ∨ 0xE0 ≤ n ∧ n ≤ 0xEF ∧ more = 1 ∧ (n = 0xE0 → 0x20 ≤ m % 64) ∧ (n = 0xED → m % 64 ≤ 0x1F)
    ∨ 0xF0 ≤ n ∧ n ≤ 0xF4 ∧ more = 2 ∧ (n = 0xF0 → 0x10 ≤ m % 64) ∧ (n = 0xF4 → m % 64 ≤ 0x0F))
    (bytes : Bytes) :
    firstChar (UInt8.ofNat n) (UInt8.ofNat (m % 64 + 128) :: bytes)
      = match continueFrom ((n % if n < 0xE0 then 32 else if n < 0xF0 then 16 else 8) * 64 + m % 64)
          more bytes with
        | .ok value => (Char.ofNat value, more + 1)
        | .error good => (replacementChar, good + 1) := by
  obtain ⟨low, high, hshape, hlow, hhigh⟩ : ∃ low high,
      leadShape? (UInt8.ofNat n) = some ((low, high), more)
        ∧ low ≤ UInt8.ofNat (m % 64 + 128) ∧ UInt8.ofNat (m % 64 + 128) ≤ high :=
    exists_leadShape? (by omega) (by omega)
  have hn : (UInt8.ofNat n).toNat = n := by rw [UInt8.toNat_ofNat']; omega
  have hm : (UInt8.ofNat (m % 64 + 128)).toNat % 64 = m % 64 := by
    rw [UInt8.toNat_ofNat']
    omega
  have hlead : ¬ UInt8.ofNat n < 0x80 := by
    simp only [UInt8.lt_iff_toNat_lt, hn, UInt8.reduceToNat]
    omega
  have hvalue : leadValue (UInt8.ofNat n)
      = n % if n < 0xE0 then 32 else if n < 0xF0 then 16 else 8 := by
    simp only [leadValue, UInt8.lt_iff_toNat_lt, hn, UInt8.reduceToNat]
    split
    · rfl
    · split <;> rfl
  rw [← hvalue]
  cases h : continueFrom (leadValue (UInt8.ofNat n) * 64 + m % 64) more bytes <;>
    simp only [firstChar, if_neg hlead, hshape, hlow, hhigh, hm, h, decide_true, Bool.and_self,
      if_true]

/-- The bytes of a character are read as that character, whatever comes behind them. -/
theorem firstChar_utf8EncodeChar (c : Char) (rest : Bytes) :
    ∃ lead bytes, String.utf8EncodeChar c = lead :: bytes
      ∧ firstChar lead (bytes ++ rest) = (c, bytes.length) := by
  have hvalid : c.toNat < 0xD800 ∨ 0xDFFF < c.toNat ∧ c.toNat < 0x110000 := c.valid
  have hc : ∀ n, n = c.toNat → Char.ofNat n = c := fun n h => h ▸ Char.ofNat_toNat c
  rw [String.utf8EncodeChar]
  simp only [show c.val.toNat = c.toNat from rfl]
  generalize c.toNat = v at hvalid hc
  split
  · have hv : (UInt8.ofNat v).toNat = v := by rw [UInt8.toNat_ofNat']; omega
    have hlt : UInt8.ofNat v < 0x80 := by
      simp only [UInt8.lt_iff_toNat_lt, hv, UInt8.reduceToNat]
      omega
    exact ⟨_, _, rfl, by rw [firstChar_of_lt hlt, hv, hc v rfl]; rfl⟩
  split
  · refine ⟨_, _, rfl, ?_⟩
    simp only [List.cons_append, List.nil_append, List.length_cons, List.length_nil]
    rw [firstChar_of_lead 0 (by omega)]
    simp only [continueFrom]
    rw [if_pos (by omega), hc _ (by omega)]
  split
  · refine ⟨_, _, rfl, ?_⟩
    simp only [List.cons_append, List.nil_append, List.length_cons, List.length_nil]
    rw [firstChar_of_lead 1 (by omega), continueFrom_cons]
    simp only [continueFrom]
    rw [if_neg (by omega), if_pos (by omega), hc _ (by omega)]
  · refine ⟨_, _, rfl, ?_⟩
    simp only [List.cons_append, List.nil_append, List.length_cons, List.length_nil]
    rw [firstChar_of_lead 2 (by omega), continueFrom_cons, continueFrom_cons]
    simp only [continueFrom]
    rw [if_neg (by omega), if_neg (by omega), hc _ (by omega)]

theorem ofUtf8After_length (bytes rest : Bytes) :
    ofUtf8After bytes.length (bytes ++ rest) = ofUtf8 rest := by
  induction bytes with
  | nil => rfl
  | cons b bytes ih => exact ih

/-- The bytes of a text read as that text. -/
theorem ofUtf8_utf8 (text : Text) : ofUtf8 (utf8 text) = text := by
  induction text with
  | nil => rfl
  | cons c text ih =>
    obtain ⟨lead, bytes, hc, hfirst⟩ := firstChar_utf8EncodeChar c (utf8 text)
    have hcons : utf8 (c :: text) = lead :: (bytes ++ utf8 text) := by
      rw [utf8, List.flatMap_cons, hc]
      rfl
    rw [hcons, ofUtf8, ofUtf8After, hfirst, ofUtf8After_length, ih]

end Rehome.Text
