import Lexing.Bytes
import Lexing.Token.Symbol

/-!
# The classes of bytes

What a token is depends first on the class of its first byte. Letters, digits and symbols are ASCII;
every byte beyond ASCII, and every control byte that is not layout, belongs to no class of the
language.

Results:

* `ByteClass.of_eq_layout_iff` and its companions: the tests for the classes exclude one another, so
  the order in which `ByteClass.of` makes them does not matter.
-/

namespace Lexing

/-- An ASCII letter or the underscore (`is_ident_byte`). -/
def Bytes.isLetter (b : UInt8) : Bool :=
  (0x61 ≤ b && b ≤ 0x7a) || (0x41 ≤ b && b ≤ 0x5a) || b == 0x5f

/-- An ASCII digit. -/
def Bytes.isDigit (b : UInt8) : Bool := 0x30 ≤ b && b ≤ 0x39

/-- What a byte means outside string literals. -/
inductive ByteClass
  | layout
  | quote
  | letter
  | digit
  | symbol (s : Symbol)
  | foreign
  deriving DecidableEq, Repr

/-- The class of a byte. -/
def ByteClass.of (b : UInt8) : ByteClass :=
  if Bytes.isLayout b then layout
  else if b = Bytes.quote then quote
  else if Bytes.isLetter b then letter
  else if Bytes.isDigit b then digit
  else
    match Symbol.ofByte? b with
    | some s => symbol s
    | none => foreign

namespace ByteClass

theorem of_eq_layout_iff (b : UInt8) : of b = layout ↔ Bytes.isLayout b = true :=
  Bytes.forall_of_lt (p := fun b => of b = layout ↔ Bytes.isLayout b = true)
    (by decide +kernel) b

theorem of_eq_quote_iff (b : UInt8) : of b = quote ↔ b = Bytes.quote :=
  Bytes.forall_of_lt (p := fun b => of b = quote ↔ b = Bytes.quote)
    (by decide +kernel) b

theorem of_eq_letter_iff (b : UInt8) : of b = letter ↔ Bytes.isLetter b = true :=
  Bytes.forall_of_lt (p := fun b => of b = letter ↔ Bytes.isLetter b = true)
    (by decide +kernel) b

theorem of_eq_digit_iff (b : UInt8) : of b = digit ↔ Bytes.isDigit b = true :=
  Bytes.forall_of_lt (p := fun b => of b = digit ↔ Bytes.isDigit b = true)
    (by decide +kernel) b

theorem of_byte (s : Symbol) : of s.byte = symbol s := by cases s <;> decide

theorem of_eq_symbol_iff (b : UInt8) (s : Symbol) : of b = symbol s ↔ s.byte = b := by
  constructor
  · intro h
    apply Symbol.ofByte?_eq_some_iff.mp
    unfold of at h
    split at h <;> try contradiction
    split at h <;> try contradiction
    split at h <;> try contradiction
    split at h <;> try contradiction
    split at h
    next t ht =>
      rw [ht]
      injection h with h
      rw [h]
    next => contradiction
  · rintro rfl
    exact of_byte s

/-- A byte that is no symbol by its class is none by the table either. -/
theorem ofByte?_eq_none {b : UInt8} (h : ∀ s, of b ≠ symbol s) : Symbol.ofByte? b = none := by
  rw [Option.eq_none_iff_forall_ne_some]
  exact fun s hs => h s ((of_eq_symbol_iff b s).mpr (Symbol.ofByte?_eq_some_iff.mp hs))

theorem of_eq_foreign_iff (b : UInt8) :
    of b = foreign ↔ Bytes.isLayout b = false ∧ b ≠ Bytes.quote ∧ Bytes.isLetter b = false ∧
      Bytes.isDigit b = false ∧ ∀ s : Symbol, s.byte ≠ b := by
  rw [← Bool.not_eq_true, ← Bool.not_eq_true, ← Bool.not_eq_true, ← of_eq_layout_iff,
    ne_eq, ← of_eq_quote_iff, ← of_eq_letter_iff, ← of_eq_digit_iff]
  simp only [ne_eq, ← of_eq_symbol_iff]
  cases of b <;> simp

end ByteClass

end Lexing
