import Lexing.Bytes

/-!
# Escaped text

Arbitrary bytes are shown inside quotation marks. Printable ASCII stands for itself, except that a
quotation mark of either kind and the backslash are marked by a backslash; tab, carriage return and
line feed have letters; any other byte is written as two hexadecimal digits.

Results:

* `escape_append`: escaping works byte by byte.
* `all_isPrintable_escape`: the escaped form is printable ASCII, whatever the bytes.
-/

namespace Lexing.Text

/-- The two lower-case hexadecimal digits of a byte. -/
def hexDigits (b : UInt8) : List Char :=
  [Nat.digitChar (b.toNat / 16), Nat.digitChar (b.toNat % 16)]

/-- The escaped form of one byte. -/
def escapeByte (b : UInt8) : List Char :=
  if b = 0x09 then "\\t".toList
  else if b = 0x0d then "\\r".toList
  else if b = 0x0a then "\\n".toList
  else if b = 0x27 then "\\'".toList
  else if b = 0x22 then "\\\"".toList
  else if b = 0x5c then "\\\\".toList
  else if 0x20 ≤ b ∧ b ≤ 0x7e then [Char.ofUInt8 b]
  else "\\x".toList ++ hexDigits b

/-- The escaped form of a byte string (`escape_ascii`). -/
def escape (bytes : Bytes) : String := String.ofList (bytes.flatMap escapeByte)

theorem escape_append (a b : Bytes) : escape (a ++ b) = escape a ++ escape b := by
  simp [escape, String.ofList_append]

theorem toNat_ofUInt8 (b : UInt8) : (Char.ofUInt8 b).toNat = b.toNat := UInt8.toNat_toUInt32 b

/-- A character is printable ASCII. -/
def isPrintable (c : Char) : Bool := 0x20 ≤ c.toNat && c.toNat ≤ 0x7e

theorem isPrintable_digitChar : ∀ n < 16, isPrintable (Nat.digitChar n) = true := by decide

theorem all_isPrintable_hexDigits (b : UInt8) : (hexDigits b).all isPrintable = true := by
  have := b.toNat_lt
  simp only [hexDigits, List.all_cons, List.all_nil, Bool.and_true]
  rw [isPrintable_digitChar _ (by omega), isPrintable_digitChar _ (by omega)]
  rfl

theorem all_isPrintable_escapeByte (b : UInt8) : (escapeByte b).all isPrintable = true := by
  unfold escapeByte
  split
  · decide
  split
  · decide
  split
  · decide
  split
  · decide
  split
  · decide
  split
  · decide
  split
  next h => simpa [isPrintable, UInt8.le_iff_toNat_le, toNat_ofUInt8] using h
  next => rw [List.all_append, all_isPrintable_hexDigits, Bool.and_true]; decide

theorem all_isPrintable_escape (bytes : Bytes) : (escape bytes).toList.all isPrintable = true := by
  rw [escape, String.toList_ofList, List.all_flatMap]
  exact List.all_eq_true.mpr fun b _ => all_isPrintable_escapeByte b

end Lexing.Text
