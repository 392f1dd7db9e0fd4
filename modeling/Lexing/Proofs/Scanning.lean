import Lexing.Proofs.Indexing
import Lexing.Proofs.Resumption
import Lexing.Token.Scanner

/-!
# The scanner takes the tokens of its source

A scanner tests one byte and moves a cursor over its buffer. What it takes is the token that
`Lexeme.ofBytes` reads off the bytes ahead, and it stops behind the bytes of this token. No read, no
difference of sizes and no slice on the way is out of range. So a scanner takes the tokens that a
token stream takes, one by one and all together.

Results:

* `Scanner.identifier_indexed` and its companions: one equation for each arm of the scanner.
* `Scanner.next_indexed`: a scanner takes one token as a token stream does.
* `Scanner.takeAll_ofBytes`: a scanner never panics, and takes all tokens of its source.
-/

namespace Lexing

/-! ## Cursors in front of a byte -/

namespace Cursor

variable {c : Cursor} {first : UInt8} {rest : Bytes}

theorem current_of_cons (h : c.ahead = first :: rest) : c.current = first := by
  rw [current, h]
  rfl

theorem following_of_cons (h : c.ahead = first :: rest) : c.following = rest.headD 0 := by
  rw [following, h]
  rfl

theorem isAtEnd_of_cons (h : c.ahead = first :: rest) : c.isAtEnd = false := by
  rw [isAtEnd, h]
  rfl

/-- A slice from the place where a move began has the bytes that were passed. -/
theorem slice_advanceBy (n : ℕ) (c : Cursor) :
    (c.advanceBy n).slice c.offset = .ok (c.ahead.take n) := by
  rw [slice_eq_ok_iff, offset_advanceBy]
  refine ⟨Nat.le_add_right _ _, ?_⟩
  simp [advanceBy, offset]

/-- A slice from the place where skipping began has the bytes that were skipped. -/
theorem slice_skipWhile (p : UInt8 → Bool) (c : Cursor) :
    (c.skipWhile p).indexed.slice c.offset = .ok (c.ahead.takeWhile p) := by
  rw [slice_indexed, skipWhile_eq_advanceBy, slice_advanceBy,
    ← List.prefix_iff_eq_take.mp (List.takeWhile_prefix p)]
  rfl

end Cursor

namespace Scanner

variable {find : UInt8 → Bytes → Option ℕ} (hfind : Bytes.FindsFirst find)
variable {c : Cursor} {first : UInt8} {rest : Bytes}

/-! ## The arms of the scanner -/

/-- What an arm should give: a token, and the place behind its bytes. -/
def behind (c : Cursor) (l : Lexeme) : TokenKind × BufferCursor :=
  (l.kind, (c.advanceBy l.size).indexed)

theorem single_indexed (c : Cursor) (s : Symbol) :
    single s c.indexed = behind c ⟨.symbol s, 1⟩ := by
  rw [single, Cursor.advance_indexed, behind, Cursor.advanceBy_one]

theorem illegal_indexed (c : Cursor) (b : UInt8) :
    illegal b c.indexed = behind c ⟨.illegal b, 1⟩ := by
  rw [illegal, Cursor.advance_indexed, behind, Cursor.advanceBy_one]

theorem withEqual_indexed {s : Symbol} {double : TokenKind} (h : c.ahead = first :: rest)
    (hs : s.withEqualsSign? = some double) :
    withEqual double s c.indexed = .ok (behind c (Lexeme.ofSymbol s rest)) := by
  have hnext : rest.headD 0 = Bytes.equalsSign ↔ rest.head? = some Bytes.equalsSign := by
    cases rest with
    | nil => decide
    | cons b _ => simp
  simp only [withEqual, Cursor.following_indexed, Cursor.following_of_cons h, hnext,
    Lexeme.ofSymbol, hs, Cursor.advanceBy_indexed, single_indexed]
  split <;> rfl

theorem identifier_indexed (c : Cursor) :
    identifier c.indexed = .ok (behind c (.ofWord (c.ahead.takeWhile Bytes.isLetter))) := by
  have hmove := Cursor.skipWhile_eq_advanceBy Bytes.isLetter c
  rw [identifier, Cursor.skipWhile_indexed, Cursor.offset_indexed, Cursor.slice_skipWhile]
  generalize c.ahead.takeWhile Bytes.isLetter = word at hmove ⊢
  rw [behind, Lexeme.size_ofWord, ← hmove, Lexeme.ofWord]
  simp only [bind, Except.bind]
  cases Keyword.ofBytes? word <;> rfl

theorem integer_indexed (c : Cursor) :
    integer c.indexed = .ok (behind c (.ofDigits (c.ahead.takeWhile Bytes.isDigit))) := by
  have hmove := Cursor.skipWhile_eq_advanceBy Bytes.isDigit c
  rw [integer, Cursor.skipWhile_indexed, Cursor.offset_indexed, Cursor.slice_skipWhile, behind,
    Lexeme.ofDigits, ← hmove]
  rfl

/-- Passing one byte more than the body of a string literal passes its closing quote, if it has
one. -/
theorem advanceBy_size_ofQuoted (h : c.ahead = first :: rest) :
    c.advanceBy (Lexeme.ofQuoted rest).size =
      c.advanceBy (1 + (rest.takeWhile (· != Bytes.quote)).length + 1) := by
  have hle := (List.takeWhile_prefix (· != Bytes.quote) (l := rest)).length_le
  simp only [Lexeme.ofQuoted]
  split
  next hopen =>
    rw [List.isEmpty_iff, List.drop_eq_nil_iff] at hopen
    rw [← Cursor.advanceBy_min (_ + 1), h, List.length_cons]
    congr 1
    omega
  next => rfl

include hfind in
theorem string_indexed (h : c.ahead = first :: rest) :
    string find c.indexed = .ok (behind c (.ofQuoted rest)) := by
  have hahead : c.advance.ahead = rest := by
    rw [← Cursor.advanceBy_one, Cursor.ahead_advanceBy, h]
    rfl
  have hthere : (c.advance.skipTo Bytes.quote).2 = c.advance.skipWhile (· != Bytes.quote) := by
    rw [Cursor.skipTo_eq]
  -- The move to the closing quote and over it, after the one over the opening quote.
  have hmove : (c.advance.skipWhile (· != Bytes.quote)).advance =
      c.advanceBy (Lexeme.ofQuoted rest).size := by
    rw [advanceBy_size_ofQuoted h, Cursor.skipWhile_eq_advanceBy, hahead, ← Cursor.advanceBy_one,
      ← Cursor.advanceBy_one, Cursor.advanceBy_advanceBy, Cursor.advanceBy_advanceBy, Nat.add_assoc]
  rw [string, Cursor.advance_indexed, Cursor.skipTo_indexed hfind, hthere]
  simp only [bind, Except.bind]
  rw [Cursor.offset_indexed, Cursor.slice_skipWhile, hahead, Cursor.advance_indexed, hmove]
  rfl

/-! ## Tokens -/

/-- Each test that the scanner makes of a byte is the test for a class of bytes. -/
theorem kindAt_of_cons (h : c.ahead = first :: rest) :
    kindAt find c.indexed =
      if ByteClass.of first = .quote then string find c.indexed
      else if ByteClass.of first = .symbol .assign then withEqual .equal .assign c.indexed
      else if ByteClass.of first = .symbol .bang then withEqual .notEqual .bang c.indexed
      else if ByteClass.of first = .letter then identifier c.indexed
      else if ByteClass.of first = .digit then integer c.indexed
      else
        match Symbol.ofByte? first with
        | some s => .ok (single s c.indexed)
        | none => .ok (illegal first c.indexed) := by
  have hassign : ByteClass.of first = .symbol .assign ↔ first = Bytes.equalsSign :=
    (ByteClass.of_eq_symbol_iff first .assign).trans eq_comm
  have hbang : ByteClass.of first = .symbol .bang ↔ first = Bytes.exclamationMark :=
    (ByteClass.of_eq_symbol_iff first .bang).trans eq_comm
  simp only [kindAt, Cursor.current_indexed, Cursor.current_of_cons h, Cursor.isAtEnd_indexed,
    Cursor.isAtEnd_of_cons h, Bool.false_eq_true, and_false, if_false, hassign, hbang,
    ByteClass.of_eq_quote_iff, ByteClass.of_eq_letter_iff, ByteClass.of_eq_digit_iff]
  rfl

include hfind in
/-- The scanner takes the token that the class of the first byte calls for. -/
theorem kindAt_indexed (h : c.ahead = first :: rest) :
    kindAt find c.indexed = .ok (behind c (.ofBytes first rest)) := by
  rw [kindAt_of_cons h, Lexeme.ofBytes]
  cases hclass : ByteClass.of first with
  | quote => exact string_indexed hfind h
  | letter =>
    have hletter := (ByteClass.of_eq_letter_iff first).mp hclass
    have hword := identifier_indexed c
    rw [h, List.takeWhile_cons_of_pos hletter] at hword
    exact hword
  | digit =>
    have hdigit := (ByteClass.of_eq_digit_iff first).mp hclass
    have hdigits := integer_indexed c
    rw [h, List.takeWhile_cons_of_pos hdigit] at hdigits
    exact hdigits
  | symbol s =>
    rw [Symbol.ofByte?_eq_some_iff.mpr ((ByteClass.of_eq_symbol_iff first s).mp hclass)]
    cases s with
    | assign => exact withEqual_indexed h rfl
    | bang => exact withEqual_indexed h rfl
    | _ => exact congrArg Except.ok (single_indexed c _)
  | layout | foreign =>
    rw [ByteClass.ofByte?_eq_none (by simp [hclass])]
    exact congrArg Except.ok (illegal_indexed c first)

theorem kindAt_of_nil (h : c.ahead = []) :
    kindAt find c.indexed = .ok (.endOfInput, c.indexed) := by
  have hcurrent : c.current = 0 := by rw [Cursor.current, h]; rfl
  have hend : c.isAtEnd = true := by rw [Cursor.isAtEnd, h]; rfl
  simp only [kindAt, Cursor.current_indexed, Cursor.isAtEnd_indexed, hcurrent, hend, and_self,
    if_true]
  rfl

end Scanner

/-- A token stream, as a scanner of the buffer of its source. -/
def TokenStream.indexed (s : TokenStream) : Scanner := ⟨s.cursor.indexed⟩

namespace Scanner

variable {find : UInt8 → Bytes → Option ℕ} (hfind : Bytes.FindsFirst find)
include hfind

/-- **A scanner takes one token as a token stream does.** -/
theorem next_indexed (s : TokenStream) :
    s.indexed.next find = .ok (s.next.1, s.next.2.indexed) := by
  rw [next, TokenStream.indexed, Cursor.skipLayout_indexed]
  cases ahead : s.cursor.skipLayout.ahead with
  | nil =>
    rw [TokenStream.next_of_layout ahead, kindAt_of_nil ahead]
    rfl
  | cons first rest =>
    rw [TokenStream.next_of_cons ahead, kindAt_indexed hfind ahead]
    rfl

theorem takeAll_indexed (calls : ℕ) (s : TokenStream) :
    s.indexed.takeAll find calls = .ok (s.take calls).1 := by
  induction calls generalizing s with
  | zero => rfl
  | succ calls ih =>
    rw [takeAll, next_indexed hfind, TokenStream.take_succ]
    simp only [bind, Except.bind]
    split
    · rfl
    · rw [ih]
      rfl

/-- **A scanner takes all tokens of its source.** It never panics, and it reaches the end in so many
calls as the source has bytes, and one more. -/
theorem takeAll_ofBytes (source : Bytes) {calls : ℕ} (h : source.length < calls) :
    (ofBytes source).takeAll find calls = .ok (tokenize source) :=
  (takeAll_indexed hfind calls (.ofBytes source)).trans
    (congrArg Except.ok (TokenStream.take_eq_rest h))

end Scanner

end Lexing
