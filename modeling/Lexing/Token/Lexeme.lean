import Lexing.Token.Alphabet
import Lexing.Token.Basic

/-!
# The token at the front of a source

The first byte decides the shape of a token, and the token then takes as many bytes as its shape
allows: a word all letters that follow, an integer all digits, a string everything up to its closing
quote. The equals sign and the exclamation mark look one byte ahead.

Results:

* `size_pos`, `size_le`: a token takes at least its first byte and no more than there are.
* `kind_ne_endOfInput`: the end of input is never read off bytes.
* `decimal_concat`: how one more digit changes the value of a digit string.
-/

namespace Lexing

/-- What the token at the front of a source is and how many bytes it takes. -/
structure Lexeme where
  kind : TokenKind
  size : Nat
  deriving DecidableEq

/-- The value of a digit. -/
def Bytes.digitValue (d : UInt8) : Nat := d.toNat - 0x30

/-- The value of a string of digits in 64-bit arithmetic, where every step wraps around
(`Scanner::integer`). -/
def Bytes.decimal (digits : Bytes) : Int64 :=
  digits.foldl (fun value d => value * 10 + Int64.ofNat (digitValue d)) 0

/-- The token that a symbol makes with an equals sign after it. -/
def Symbol.withEqualsSign? : Symbol → Option TokenKind
  | assign => some .equal
  | bang => some .notEqual
  | _ => none

namespace Lexeme

/-- A word is a keyword if it is spelled like one, and an identifier if not
(`Scanner::identifier`). -/
def ofWord (word : Bytes) : Lexeme :=
  match Keyword.ofBytes? word with
  | some k => ⟨.keyword k, word.length⟩
  | none => ⟨.identifier word, word.length⟩

/-- An integer literal (`Scanner::integer`). -/
def ofDigits (digits : Bytes) : Lexeme := ⟨.integer digits.decimal, digits.length⟩

/-- A string literal, given what follows its opening quote. The closing quote belongs to it; a
literal without one reaches to the end (`Scanner::string`). -/
def ofQuoted (rest : Bytes) : Lexeme :=
  let body := rest.takeWhile (· != Bytes.quote)
  let closing := if (rest.drop body.length).isEmpty then 0 else 1
  ⟨.string body, 1 + body.length + closing⟩

/-- A symbol, or the token of two bytes that it makes with an equals sign (`Scanner::with_equal`,
`Scanner::single`). -/
def ofSymbol (s : Symbol) (rest : Bytes) : Lexeme :=
  match s.withEqualsSign? with
  | some kind => if rest.head? = some Bytes.equalsSign then ⟨kind, 2⟩ else ⟨.symbol s, 1⟩
  | none => ⟨.symbol s, 1⟩

/-- The token at the front of a source that starts with `first` and goes on with `rest`
(`Scanner::next_token`). -/
def ofBytes (first : UInt8) (rest : Bytes) : Lexeme :=
  match ByteClass.of first with
  | .quote => ofQuoted rest
  | .letter => ofWord (first :: rest.takeWhile Bytes.isLetter)
  | .digit => ofDigits (first :: rest.takeWhile Bytes.isDigit)
  | .symbol s => ofSymbol s rest
  | .layout | .foreign => ⟨.illegal first, 1⟩

/-! ## Size -/

@[simp]
theorem size_ofWord (word : Bytes) : (ofWord word).size = word.length := by
  unfold ofWord
  split <;> rfl

theorem size_ofQuoted (rest : Bytes) :
    0 < (ofQuoted rest).size ∧ (ofQuoted rest).size ≤ rest.length + 1 := by
  have := (List.takeWhile_prefix (· != Bytes.quote) (l := rest)).length_le
  simp only [ofQuoted]
  split
  next => omega
  next h =>
    rw [Bool.not_eq_true, List.isEmpty_eq_false_iff, ← List.length_pos_iff, List.length_drop] at h
    omega

theorem size_ofSymbol (s : Symbol) (rest : Bytes) :
    0 < (ofSymbol s rest).size ∧ (ofSymbol s rest).size ≤ rest.length + 1 := by
  unfold ofSymbol
  split
  · split
    next h =>
      cases rest with
      | nil => cases h
      | cons b rest => simp
    next => simp
  · simp

theorem size_ofBytes (first : UInt8) (rest : Bytes) :
    0 < (ofBytes first rest).size ∧ (ofBytes first rest).size ≤ rest.length + 1 := by
  have length_takeWhile (p : UInt8 → Bool) : (rest.takeWhile p).length ≤ rest.length :=
    (List.takeWhile_prefix p).length_le
  unfold ofBytes
  split
  · exact size_ofQuoted rest
  · simp [length_takeWhile]
  · simp [ofDigits, length_takeWhile]
  · exact size_ofSymbol _ _
  · simp
  · simp

theorem size_pos (first : UInt8) (rest : Bytes) : 0 < (ofBytes first rest).size :=
  (size_ofBytes first rest).1

theorem size_le (first : UInt8) (rest : Bytes) : (ofBytes first rest).size ≤ rest.length + 1 :=
  (size_ofBytes first rest).2

theorem kind_ne_endOfInput (first : UInt8) (rest : Bytes) :
    (ofBytes first rest).kind ≠ .endOfInput := by
  unfold ofBytes ofQuoted ofWord ofDigits ofSymbol Symbol.withEqualsSign?
  grind

end Lexeme

/-! ## Digit strings -/

theorem Bytes.decimal_concat (digits : Bytes) (d : UInt8) :
    decimal (digits ++ [d]) = decimal digits * 10 + Int64.ofNat (digitValue d) := by
  simp [decimal]

end Lexing
