import Rehome.Text.Basic

/-!
# UTF-8

Texts as bytes, and bytes read as text. Reading never fails: each longest beginning of a
character that is not completed, and each byte that begins no character, reads as U+FFFD.
-/

namespace Rehome

abbrev Bytes := List UInt8

namespace Text

def utf8 (text : Text) : Bytes :=
  text.flatMap String.utf8EncodeChar

theorem utf8_append (text text' : Text) : utf8 (text ++ text') = utf8 text ++ utf8 text' :=
  List.flatMap_append

/-- The character that stands for bytes which are not UTF-8. -/
def replacementChar : Char := Char.ofNat 0xFFFD

/-- Whether `b` continues a character: `10xxxxxx`. -/
def isContinuation (b : UInt8) : Bool :=
  0x80 ≤ b && b ≤ 0xBF

/-- Which bytes may follow `lead` in a character of several bytes, and how many bytes come after
that one. -/
def leadShape? (lead : UInt8) : Option ((UInt8 × UInt8) × Nat) :=
  if 0xC2 ≤ lead && lead ≤ 0xDF then some ((0x80, 0xBF), 0)
  else if lead = 0xE0 then some ((0xA0, 0xBF), 1)
  else if lead = 0xED then some ((0x80, 0x9F), 1)
  else if 0xE1 ≤ lead && lead ≤ 0xEF then some ((0x80, 0xBF), 1)
  else if lead = 0xF0 then some ((0x90, 0xBF), 2)
  else if 0xF1 ≤ lead && lead ≤ 0xF3 then some ((0x80, 0xBF), 2)
  else if lead = 0xF4 then some ((0x80, 0x8F), 2)
  else none

/-- The value of the character whose lead byte is `lead`, before its other bytes are added. -/
def leadValue (lead : UInt8) : Nat :=
  if lead < 0xE0 then lead.toNat % 32 else if lead < 0xF0 then lead.toNat % 16 else lead.toNat % 8

/-- Reads `count` continuation bytes onto `value`: the value, or how many bytes were good. -/
def continueFrom (value : Nat) : (count : Nat) → Bytes → Except Nat Nat
  | 0, _ => .ok value
  | _ + 1, [] => .error 0
  | count + 1, b :: bytes =>
    if isContinuation b then
      match continueFrom (value * 64 + b.toNat % 64) count bytes with
      | .ok v => .ok v
      | .error good => .error (good + 1)
    else .error 0

/-- The character at the start of `lead :: bytes`, and how many of `bytes` belong to it. -/
def firstChar (lead : UInt8) (bytes : Bytes) : Char × Nat :=
  if lead < 0x80 then (Char.ofNat lead.toNat, 0)
  else
    match leadShape? lead, bytes with
    | some ((low, high), more), second :: others =>
      if low ≤ second && second ≤ high then
        match continueFrom (leadValue lead * 64 + second.toNat % 64) more others with
        | .ok value => (Char.ofNat value, more + 1)
        | .error good => (replacementChar, good + 1)
      else (replacementChar, 0)
    | _, _ => (replacementChar, 0)

/-- Reads bytes as text, after leaving out the first `skip` of them. -/
def ofUtf8After : (skip : Nat) → Bytes → Text
  | _, [] => []
  | skip + 1, _ :: bytes => ofUtf8After skip bytes
  | 0, b :: bytes => (firstChar b bytes).1 :: ofUtf8After (firstChar b bytes).2 bytes

/-- Reads bytes as text; what is not UTF-8 reads as U+FFFD. -/
def ofUtf8 (bytes : Bytes) : Text :=
  ofUtf8After 0 bytes

end Text

end Rehome
