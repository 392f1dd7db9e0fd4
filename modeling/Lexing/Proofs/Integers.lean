import Lexing.Proofs.Joining

/-!
# Integer literals

An integer literal is the decimal value of its digits, reduced once into the signed words of 64
bits. How many digits there are makes no difference, nor do zeros in front of them: a run of digits
outside of string literals is one token, and its value is the one word that the decimal value is
congruent to.

Results:

* `Bytes.number_append_zeros`: zeros in front of digits do not count.
* `Bytes.eq_toInt_iff`: the word that digits stand for, by its range and its residue.
* `TokenRule.kind_of_digits`: a lexeme of digits is an integer literal.
* `tokenize_digits`: the tokens of a source with digits in it.
-/

namespace Lexing

namespace Bytes

/-! ## The value of digits -/

/-- The digit zero. -/
def zeroDigit : UInt8 := 0x30

/-- Zeros in front of digits do not count. -/
theorem number_append_zeros (zeros : ℕ) (digits : Bytes) :
    number (List.replicate zeros zeroDigit ++ digits) = number digits := by
  have hzero : digitValue zeroDigit = 0 := rfl
  rw [number, List.map_append, List.map_replicate, hzero, List.reverse_append,
    List.reverse_replicate, Nat.ofDigits_append_replicate_zero, number]

/-- **The word that digits stand for** is the one in the range of signed words that is congruent to
their value. -/
theorem eq_toInt_iff (digits : Bytes) (v : ℤ) :
    v = (Int64.ofNat digits.number).toInt ↔
      (-2 ^ 63 ≤ v ∧ v < 2 ^ 63) ∧ v ≡ digits.number [ZMOD 2 ^ 64] := by
  have hlower := (Int64.ofNat digits.number).le_toInt
  have hupper := (Int64.ofNat digits.number).toInt_lt
  have hcongruent := digits.number_modEq
  constructor
  · rintro rfl
    exact ⟨⟨hlower, hupper⟩, hcongruent.symm⟩
  · rintro ⟨⟨hle, hlt⟩, hv⟩
    have hsame := hv.trans hcongruent
    unfold Int.ModEq at hsame
    omega

/-! ## Digits in a source -/

theorem isLetter_of_isDigit {b : UInt8} (h : isDigit b = true) : isLetter b = false := by
  rw [← Bool.not_eq_true]
  intro hletter
  have hclass := (ByteClass.of_eq_digit_iff b).mpr h
  rw [(ByteClass.of_eq_letter_iff b).mpr hletter] at hclass
  cases hclass

/-- Only a digit sticks to a digit behind it. -/
theorem not_sticks_of_isDigit {a b : UInt8} (ha : isDigit a = false) (hb : isDigit b = true) :
    ¬ Sticks a b := by
  rintro (⟨-, hletter⟩ | ⟨hdigit, -⟩ | ⟨-, rfl⟩)
  · rw [isLetter_of_isDigit hb] at hletter
    cases hletter
  · rw [ha] at hdigit
    cases hdigit
  · cases hb

theorem count_quote_of_isDigit {digits : Bytes} (h : ∀ b ∈ digits, isDigit b = true) :
    digits.count quote = 0 :=
  List.count_eq_zero.mpr fun hmem => absurd (h quote hmem) (by decide)

/-- Digits with zeros in front of them are digits. -/
theorem isDigit_of_mem_append_zeros {zeros : ℕ} {digits : Bytes}
    (h : ∀ b ∈ digits, isDigit b = true) :
    ∀ b ∈ List.replicate zeros zeroDigit ++ digits, isDigit b = true := by
  intro b hb
  rcases List.mem_append.mp hb with hzero | hdigit
  · rw [List.eq_of_mem_replicate hzero]
    rfl
  · exact h b hdigit

end Bytes

/-- **A lexeme of digits is an integer literal**, and the word that it stands for. -/
theorem TokenRule.kind_of_digits {digits : Bytes} {next : Option UInt8} {kind : TokenKind}
    (h : TokenRule digits next kind) (hall : ∀ b ∈ digits, Bytes.isDigit b = true) :
    kind = .integer (Int64.ofNat digits.number) := by
  have heven : Even (digits.count Bytes.quote) := by
    rw [Bytes.count_quote_of_isDigit hall]
    decide
  obtain ⟨first, more, hdigits, hclass⟩ := (h.spells heven).exists_cons h.wellFormed
  have hfirst : first ∈ digits := by
    rw [hdigits]
    exact List.mem_cons_self
  rw [(ByteClass.of_eq_digit_iff first).mpr (hall first hfirst)] at hclass
  obtain ⟨value, rfl⟩ := TokenKind.firstClass_eq_digit hclass.symm
  cases h
  rfl

/-- **Integer literals are decimal values modulo 2^64.** To digits, as many as there may be, belongs
the one signed word of 64 bits that is congruent to their decimal value, and it is this value if it
is below 2^63. Wherever the digits are a lexeme of a source, with zeros in front of them or without,
the token there is the literal of this word. And wherever they stand in a source outside of string
literals, with no digit before them and none behind them, they are one such token: the tokens before
it are those of the bytes before, and the tokens behind it are those of the bytes behind, counted on
from there. -/
theorem tokenize_digits (digits : Bytes) (hne : digits ≠ [])
    (hall : ∀ b ∈ digits, Bytes.isDigit b = true) :
    ∃ value : Int64,
      (∀ v : ℤ, v = value.toInt ↔
        (-2 ^ 63 ≤ v ∧ v < 2 ^ 63) ∧ v ≡ digits.number [ZMOD 2 ^ 64]) ∧
      (digits.number < 2 ^ 63 → value.toInt = digits.number) ∧
      ∀ zeros : ℕ,
        let lexeme : Bytes := List.replicate zeros Bytes.zeroDigit ++ digits
        (∀ front s later tail, Segmented (front ++ s :: later) tail → s.lexeme = lexeme →
          ∃ position, (tokenize (Segment.join (front ++ s :: later) tail))[front.length]? =
            some ⟨.integer value, position⟩) ∧
        ∀ p q, Even (p.count Bytes.quote) → (∀ b ∈ p.getLast?, Bytes.isDigit b = false) →
          (∀ b ∈ q.head?, Bytes.isDigit b = false) →
          ∃ front position, tokenize p = front ++ [⟨.endOfInput, position⟩] ∧
            tokenize (p ++ (lexeme ++ q)) = front ++ ⟨.integer value, position⟩ ::
              (tokenize q).map (.countedFrom (position.rightBy lexeme.length)) := by
  refine ⟨Int64.ofNat digits.number, digits.eq_toInt_iff, Int64.toInt_ofNat_of_lt, ?_⟩
  intro zeros lexeme
  have hlexeme : ∀ b ∈ lexeme, Bytes.isDigit b = true := Bytes.isDigit_of_mem_append_zeros hall
  have hvalue : Bytes.number lexeme = digits.number := Bytes.number_append_zeros zeros digits
  constructor
  · intro front s later tail hcut hs
    have hrule := hcut.rules front s later rfl
    rw [hs] at hrule
    have htoken := getElem?_tokenize hcut rfl
    rw [hrule.kind_of_digits hlexeme, hvalue] at htoken
    exact ⟨_, htoken⟩
  · intro p q hp hbefore hbehind
    obtain ⟨front, ⟨kind, position⟩, hfront, hend, -⟩ := TokenStream.exists_tokenize_eq p
    obtain rfl : kind = .endOfInput := (Token.isEnd_iff _).mp hend
    have hrule : TokenRule lexeme q.head? (.integer (Int64.ofNat (Bytes.number lexeme))) :=
      .integer ⟨List.append_ne_nil_of_right_ne_nil _ hne, hlexeme, hbehind⟩
    rw [hvalue] at hrule
    refine ⟨front, position, hfront, tokenize_append_lexeme hfront hp hrule fun a ha b hb => ?_⟩
    exact Bytes.not_sticks_of_isDigit (hbefore a ha) (hlexeme b (List.mem_of_mem_head? hb))

/-- `0018446744073709551615` between a symbol and a letter: all bits of the word are set, and it is
one token. -/
theorem tokenize_digits_all_bits :
    tokenize (.ofString "a=0018446744073709551615e") =
      [⟨.identifier (.ofString "a"), ⟨1, 1⟩⟩, ⟨.symbol .assign, ⟨1, 2⟩⟩, ⟨.integer (-1), ⟨1, 3⟩⟩,
        ⟨.identifier (.ofString "e"), ⟨1, 25⟩⟩, ⟨.endOfInput, ⟨1, 26⟩⟩] := by
  obtain ⟨value, hvalue, -, htokens⟩ := tokenize_digits (.ofString "18446744073709551615")
    (by decide) (List.all_eq_true.mp (by decide))
  have hword : (-1 : Int64).toInt = value.toInt := (hvalue _).mpr (by decide)
  obtain rfl := Int64.toInt_inj.mp hword
  have hbefore : (Bytes.ofString "a=").getLast? = some Bytes.equalsSign := by decide
  have hbehind : (Bytes.ofString "e").head? = some 0x65 := by decide
  obtain ⟨front, position, hfront, hall⟩ :=
    (htokens 2).2 (.ofString "a=") (.ofString "e") (by decide)
      (fun b hb => by rw [hbefore] at hb; cases hb; rfl)
      (fun b hb => by rw [hbehind] at hb; cases hb; rfl)
  have hp : tokenize (.ofString "a=") = [⟨.identifier (.ofString "a"), ⟨1, 1⟩⟩,
      ⟨.symbol .assign, ⟨1, 2⟩⟩] ++ [⟨.endOfInput, ⟨1, 3⟩⟩] := by decide
  obtain ⟨rfl, hend⟩ := List.append_inj' (hfront.symm.trans hp) rfl
  cases hend
  exact hall

end Lexing
