import Lexing.Text.Cursor
import Lexing.Token.Lexeme

/-!
# The tokens of a source

A token stream hands out the tokens of a source one at a time. It remembers nothing but its cursor,
so it can be asked for one token, for several, or for all of them, in any order. At the end of the
source it hands out the end of input, again and again; read as a sequence, it is over there.

Results:

* `next_of_layout`, `next_of_cons`: the two cases of taking a token.
* `length_ahead_next_lt`: every token but the end of input takes bytes from the source.
* `exists_take_eq`, `exists_tokenize_eq`: the end of input is reached, and it comes last.
-/

namespace Lexing

/-- A source on its way to becoming tokens (`Scanner`). -/
structure TokenStream where
  cursor : Cursor
  deriving DecidableEq

namespace TokenStream

/-- All tokens of a source are still to come (`Scanner::new`). -/
def ofBytes (source : Bytes) : TokenStream := ⟨.ofBytes source⟩

/-- The position after the last token taken (`Scanner::position`). -/
def position (s : TokenStream) : Position := s.cursor.position

/-- Takes one token (`Scanner::next_token`). -/
def next (s : TokenStream) : Token × TokenStream :=
  let here := s.cursor.skipLayout
  match here.ahead with
  | [] => (⟨.endOfInput, here.position⟩, ⟨here⟩)
  | first :: rest =>
    let lexeme := Lexeme.ofBytes first rest
    (⟨lexeme.kind, here.position⟩, ⟨here.advanceBy lexeme.size⟩)

/-- The tail call of `take`, with the tokens taken so far in front, last token first. -/
def takeOnto (taken : List Token) : Nat → TokenStream → List Token × TokenStream
  | 0, s => (taken.reverse, s)
  | count + 1, s =>
    let (token, later) := s.next
    if token.isEnd then ((token :: taken).reverse, later)
    else takeOnto (token :: taken) count later

/-- Takes a number of tokens. The end of input is taken once at most, and nothing after it. -/
def take (count : Nat) (s : TokenStream) : List Token × TokenStream := takeOnto [] count s

/-- A number of tokens that is never too small to reach the end: a token for each byte left, and the
end of input. -/
def allCount (s : TokenStream) : Nat := s.cursor.ahead.length + 1

end TokenStream

/-- All tokens of a source, the end of input last (`tokenize`). -/
def tokenize (source : Bytes) : List Token :=
  let stream := TokenStream.ofBytes source
  (stream.take stream.allCount).1

namespace TokenStream

/-! ## One token -/

theorem next_of_layout {s : TokenStream} (h : s.cursor.skipLayout.ahead = []) :
    s.next = (⟨.endOfInput, s.cursor.skipLayout.position⟩, ⟨s.cursor.skipLayout⟩) := by
  simp only [next]
  split
  next => rfl
  next h' => rw [h] at h'; cases h'

theorem next_of_cons {s : TokenStream} {first : UInt8} {rest : Bytes}
    (h : s.cursor.skipLayout.ahead = first :: rest) :
    s.next = (⟨(Lexeme.ofBytes first rest).kind, s.cursor.skipLayout.position⟩,
      ⟨s.cursor.skipLayout.advanceBy (Lexeme.ofBytes first rest).size⟩) := by
  simp only [next]
  split
  next h' => rw [h] at h'; cases h'
  next h' => rw [h] at h'; cases h'; rfl

theorem next_isEnd_iff (s : TokenStream) :
    s.next.1.isEnd = true ↔ s.cursor.skipLayout.ahead = [] := by
  rw [Token.isEnd_iff]
  constructor
  · intro h
    cases ahead : s.cursor.skipLayout.ahead with
    | nil => rfl
    | cons first rest =>
      rw [next_of_cons ahead] at h
      exact absurd h (Lexeme.kind_ne_endOfInput first rest)
  · intro h
    rw [next_of_layout h]

/-- Every token but the end of input takes bytes. -/
theorem length_ahead_next_lt {s : TokenStream} (h : s.next.1.isEnd = false) :
    s.next.2.cursor.ahead.length < s.cursor.ahead.length := by
  cases ahead : s.cursor.skipLayout.ahead with
  | nil => rw [(next_isEnd_iff s).mpr ahead] at h; cases h
  | cons first rest =>
    rw [next_of_cons ahead]
    have left : (first :: rest).length ≤ s.cursor.ahead.length := by
      rw [← ahead, Cursor.ahead_skipLayout]
      exact (List.dropWhile_suffix _).length_le
    have := Lexeme.size_pos first rest
    simp only [Cursor.ahead_advanceBy, ahead, List.length_drop]
    simp only [List.length_cons] at left ⊢
    omega

/-! ## Several tokens -/

theorem takeOnto_eq (taken : List Token) (count : Nat) (s : TokenStream) :
    takeOnto taken count s = (taken.reverse ++ (take count s).1, (take count s).2) := by
  induction count generalizing taken s with
  | zero => simp [takeOnto, take]
  | succ count ih =>
    rcases h : s.next with ⟨token, later⟩
    simp only [take, takeOnto, h]
    split
    · simp
    · rw [ih (token :: taken), ih [token]]
      simp

@[simp]
theorem take_zero (s : TokenStream) : s.take 0 = ([], s) := rfl

theorem take_succ (count : Nat) (s : TokenStream) :
    s.take (count + 1) =
      if s.next.1.isEnd then ([s.next.1], s.next.2)
      else (s.next.1 :: (s.next.2.take count).1, (s.next.2.take count).2) := by
  rcases h : s.next with ⟨token, later⟩
  simp only [take, takeOnto, h]
  split
  · rfl
  · exact takeOnto_eq [token] count later

/-- A count larger than the number of bytes left reaches the end of input, which comes last. -/
theorem exists_take_eq {count : Nat} {s : TokenStream} (h : s.cursor.ahead.length < count) :
    ∃ front last, (s.take count).1 = front ++ [last] ∧ last.isEnd = true ∧
      ∀ t ∈ front, t.isEnd = false := by
  induction count generalizing s with
  | zero => omega
  | succ count ih =>
    rw [take_succ]
    cases ended : s.next.1.isEnd with
    | true => exact ⟨[], s.next.1, by simp, ended, by simp⟩
    | false =>
      have := length_ahead_next_lt ended
      obtain ⟨front, last, same, isEnd, notEnd⟩ := ih (s := s.next.2) (by omega)
      refine ⟨s.next.1 :: front, last, by simp [same], isEnd, ?_⟩
      intro t ht
      rcases List.mem_cons.mp ht with rfl | ht
      · exact ended
      · exact notEnd t ht

theorem exists_tokenize_eq (source : Bytes) :
    ∃ front last, tokenize source = front ++ [last] ∧ last.isEnd = true ∧
      ∀ t ∈ front, t.isEnd = false :=
  exists_take_eq (Nat.lt_succ_self _)

/-! ## Questions to a stream -/

/-- A question to a stream, which may take tokens from it. -/
inductive Request
  /-- The next token, be it the end of input (`Scanner::next_token`). -/
  | token
  /-- The next token before the end (`Scanner::next`). -/
  | next
  /-- The token after the next `skipped` ones (`nth`). -/
  | nth (skipped : Nat)
  /-- The next `n` tokens, or as many as there are before the end (`take`). -/
  | take (n : Nat)
  /-- All tokens before the end (`collect`). -/
  | collect
  /-- How many tokens there are before the end (`count`). -/
  | count
  /-- The position after the last token taken (`Scanner::position`). -/
  | position

/-- The answer to a question. -/
inductive Answer
  | token (t : Token)
  | noToken
  | tokens (ts : List Token)
  | count (n : Nat)
  | position (p : Position)
  deriving DecidableEq

/-- How many tokens a request takes if the source has that many. -/
def Request.budget (s : TokenStream) : Request → Nat
  | .token | .next => 1
  | .nth skipped => skipped + 1
  | .take n => n
  | .collect | .count => s.allCount
  | .position => 0

/-- The token at an index, if it comes before the end. -/
def answerAt (index : Nat) (taken : List Token) : Answer :=
  match taken[index]? with
  | some t => if t.isEnd then .noToken else .token t
  | none => .noToken

/-- The answer, given the tokens that were taken for it and the stream they leave. -/
def Request.answer (taken : List Token) (later : TokenStream) : Request → Answer
  | .token =>
    match taken.head? with
    | some t => .token t
    | none => .noToken
  | .next => answerAt 0 taken
  | .nth skipped => answerAt skipped taken
  | .take _ | .collect => .tokens (taken.filter (!·.isEnd))
  | .count => .count (taken.filter (!·.isEnd)).length
  | .position => .position later.position

/-- What a question leads to: its answer, the tokens taken for it, and the stream afterwards. -/
structure Reply where
  answer : Answer
  taken : List Token
  later : TokenStream

/-- Answers a question. -/
def ask (s : TokenStream) (r : Request) : Reply :=
  let (taken, later) := s.take (r.budget s)
  ⟨r.answer taken later, taken, later⟩

end TokenStream

end Lexing
