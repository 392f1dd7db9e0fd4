import Lexing.Proofs.Segmentation

/-!
# Scanning on from a place

A stream remembers nothing but its cursor. What it still hands out is therefore what the bytes ahead
of it are by themselves, as a source of their own, with positions counted on from where the stream
stands: tokens on the first line of that source go on in the stream's line, and tokens on its later
lines keep their columns.

Results:

* `Position.Reached`: how far a number of bytes can lead a position; every move keeps within it.
* `Position.countedFrom_rightBy`, `Position.countedFrom_nextLine`: counting on from an origin goes
  along with every move.
* `TokenStream.rest_eq_map_tokenize`: the tokens to come are those of the bytes ahead, counted on.
* `placed_rest_skip`: the same in natural numbers, for every stream that a source leads to.
-/

namespace Lexing

/-! ## How far bytes can lead -/

namespace Position

/-- A position that `n` bytes can lead to from the first one: no byte adds more than one line or one
column. -/
structure Reached (n : ℕ) (p : Position) : Prop where
  line_pos : 1 ≤ p.line.toNat
  column_pos : 1 ≤ p.column.toNat
  sum_le : p.line.toNat + p.column.toNat ≤ n + 2

variable {m n : ℕ} {p origin : Position}

theorem reached_start : start.Reached 0 := ⟨by decide, by decide, by decide⟩

theorem Reached.mono (h : p.Reached m) (hmn : m ≤ n) : p.Reached n :=
  ⟨h.line_pos, h.column_pos, h.sum_le.trans (by omega)⟩

theorem Reached.rightBy (h : p.Reached n) (count : ℕ) : (p.rightBy count).Reached (n + count) := by
  obtain ⟨hline, hcolumn, hsum⟩ := h
  have hnew := toNat_column_rightBy count p
  rw [UInt32.size] at hnew
  refine ⟨hline, by omega, ?_⟩
  rw [line_rightBy]
  omega

theorem Reached.nextLine (h : p.Reached n) : p.nextLine.Reached (n + 1) := by
  obtain ⟨hline, hcolumn, hsum⟩ := h
  have hnew := toNat_line_nextLine p
  have hfirst : p.nextLine.column.toNat = 1 := rfl
  rw [UInt32.size] at hnew
  constructor <;> omega

theorem Reached.afterLayout (h : p.Reached n) (b : UInt8) : (p.afterLayout b).Reached (n + 1) := by
  unfold Position.afterLayout
  split
  · exact h.nextLine
  · exact h.rightBy 1

theorem Reached.through (h : p.Reached n) (layout : Bytes) :
    (p.through layout).Reached (n + layout.length) := by
  induction layout generalizing p n with
  | nil => exact h
  | cons b layout ih =>
    have := ih (h.afterLayout b)
    rwa [Nat.add_assoc, Nat.add_comm 1] at this

theorem Reached.past (h : p.Reached n) (s : Segment) : (p.past s).Reached (n + s.bytes.length) := by
  have := (h.through s.gap).rightBy s.lexeme.length
  rwa [Nat.add_assoc, ← List.length_append] at this

/-! ## Counting on -/

/-- The position that a position of a source becomes if the source begins at `origin`. -/
def countedFrom (origin p : Position) : Position :=
  if p.line.toNat = 1 then origin.rightBy (p.column.toNat - 1)
  else ⟨UInt32.ofNatClamp (origin.line.toNat + (p.line.toNat - 1)), p.column⟩

@[simp]
theorem countedFrom_start (origin : Position) : origin.countedFrom start = origin := by
  exact rightBy_zero origin

theorem countedFrom_rightBy (ho : origin.Reached m) (hp : p.Reached n) (count : ℕ) :
    origin.countedFrom (p.rightBy count) = (origin.countedFrom p).rightBy count := by
  have hcolumn := toNat_column_rightBy count p
  have ho := ho.column_pos
  have hp := hp.column_pos
  unfold countedFrom
  rw [line_rightBy]
  split
  · rw [rightBy_rightBy]
    apply congrArg (mk origin.line)
    apply UInt32.toNat_inj.mp
    rw [toNat_ofNatClamp, toNat_ofNatClamp, hcolumn]
    rw [UInt32.size]
    omega
  · rfl

theorem countedFrom_nextLine (ho : origin.Reached m) (hp : p.Reached n) :
    origin.countedFrom p.nextLine = (origin.countedFrom p).nextLine := by
  have hline := toNat_line_nextLine p
  have ho := ho.line_pos
  have hp := hp.line_pos
  rw [UInt32.size] at hline
  have hlater : ¬ p.nextLine.line.toNat = 1 := by omega
  rw [countedFrom, if_neg hlater]
  apply congrArg (mk · 1)
  apply UInt32.toNat_inj.mp
  unfold countedFrom
  split
  next h =>
    rw [toNat_ofNatClamp, toNat_ofNatClamp, line_rightBy, UInt32.size]
    omega
  next h =>
    rw [toNat_ofNatClamp, toNat_ofNatClamp, toNat_ofNatClamp, UInt32.size]
    omega

theorem countedFrom_through (ho : origin.Reached m) (hp : p.Reached n) (layout : Bytes) :
    origin.countedFrom (p.through layout) = (origin.countedFrom p).through layout := by
  induction layout generalizing p n with
  | nil => rfl
  | cons b layout ih =>
    have hstep : origin.countedFrom (p.afterLayout b) = (origin.countedFrom p).afterLayout b := by
      unfold afterLayout
      split
      · exact countedFrom_nextLine ho hp
      · exact countedFrom_rightBy ho hp 1
    rw [through_cons, ih (hp.afterLayout b), hstep, through_cons]

theorem countedFrom_past (ho : origin.Reached m) (hp : p.Reached n) (s : Segment) :
    origin.countedFrom (p.past s) = (origin.countedFrom p).past s := by
  rw [past, countedFrom_rightBy ho (hp.through s.gap), countedFrom_through ho hp, past]

end Position

/-- A token of a source that begins at `origin`. -/
def Token.countedFrom (origin : Position) (t : Token) : Token :=
  ⟨t.kind, origin.countedFrom t.position⟩

theorem tokensOf_countedFrom {m n : ℕ} {origin p : Position} (ho : origin.Reached m)
    (hp : p.Reached n) (segments : List Segment) :
    tokensOf (origin.countedFrom p) segments = (tokensOf p segments).map (.countedFrom origin) := by
  induction segments generalizing p n with
  | nil => rfl
  | cons s later ih =>
    rw [tokensOf, tokensOf, List.map_cons, ← ih (hp.past s), Position.countedFrom_past ho hp,
      Token.countedFrom, Position.countedFrom_through ho hp]

theorem endFrom_countedFrom {m n : ℕ} {origin p : Position} (ho : origin.Reached m)
    (hp : p.Reached n) (tail : Bytes) (segments : List Segment) :
    endFrom (origin.countedFrom p) tail segments = (endFrom p tail segments).countedFrom origin := by
  induction segments generalizing p n with
  | nil =>
    rw [endFrom, endFrom, Token.countedFrom, List.foldl_nil, List.foldl_nil,
      Position.countedFrom_through ho hp]
  | cons s later ih =>
    have := ih (hp.past s)
    rwa [Position.countedFrom_past ho hp] at this

/-- The tokens of a source that begins at an origin. -/
theorem map_countedFrom_tokenize_join {segments : List Segment} {tail : Bytes}
    (h : Segmented segments tail) {n : ℕ} {origin : Position} (ho : origin.Reached n) :
    (tokenize (Segment.join segments tail)).map (.countedFrom origin) =
      tokensOf origin segments ++ [endFrom origin tail segments] := by
  have hstart := Position.countedFrom_start origin
  rw [tokenize_join h, List.map_append, List.map_singleton,
    ← tokensOf_countedFrom ho Position.reached_start,
    ← endFrom_countedFrom ho Position.reached_start, hstart]

/-! ## The tokens to come -/

namespace TokenStream

/-- All tokens that are still to come, the end of input last. -/
def rest (s : TokenStream) : List Token := (s.take s.allCount).1

/-- Every number of tokens that is large enough makes all tokens to come. -/
theorem take_eq_rest {s : TokenStream} {count : ℕ} (h : s.cursor.ahead.length < count) :
    (s.take count).1 = s.rest := by
  obtain ⟨segments, tail, hahead, hcut⟩ := exists_segmented s.cursor.ahead
  have hle := hcut.length_le
  rw [← hahead] at hle
  have hall : segments.length < s.allCount := Nat.lt_succ_of_le hle
  rw [rest, take_of_segmented hcut hahead (hle.trans_lt h), take_of_segmented hcut hahead hall]

/-- The stream after a number of tokens, the end of input counted each time it is taken. -/
def skip (n : ℕ) (s : TokenStream) : TokenStream := (fun s => s.next.2)^[n] s

/-- **Going on is starting again.** What a stream still hands out are the tokens of the bytes ahead
    of it, counted on from its position. -/
theorem rest_eq_map_tokenize {n : ℕ} {s : TokenStream} (h : s.position.Reached n) :
    s.rest = (tokenize s.cursor.ahead).map (.countedFrom s.position) := by
  obtain ⟨segments, tail, hahead, hcut⟩ := exists_segmented s.cursor.ahead
  have hcount : segments.length < s.allCount := by
    have := hcut.length_le
    rw [← hahead] at this
    exact Nat.lt_succ_of_le this
  rw [rest, take_of_segmented hcut hahead hcount, hahead, map_countedFrom_tokenize_join hcut h]

/-! ## The streams of a source -/

end TokenStream

theorem Cursor.reached_skipLayoutFrom {passed : Bytes} {position : Position}
    (h : position.Reached passed.length) (ahead : Bytes) :
    (skipLayoutFrom passed position ahead).position.Reached
      (skipLayoutFrom passed position ahead).offset := by
  induction ahead generalizing passed position with
  | nil => exact h
  | cons b ahead ih =>
    unfold skipLayoutFrom
    split
    · exact ih h.nextLine
    · split
      · exact ih (h.rightBy 1)
      · exact h

theorem Cursor.reached_advanceBy {c : Cursor} (h : c.position.Reached c.offset) (count : ℕ) :
    (c.advanceBy count).position.Reached (c.advanceBy count).offset := by
  have := h.rightBy (c.ahead.take count).length
  rw [Nat.add_comm, ← List.length_reverse, offset, ← List.length_append,
    List.length_reverse] at this
  exact this

namespace TokenStream

/-- The stream stands in a source, at a position that the bytes before it can lead to. -/
structure Within (source : Bytes) (s : TokenStream) : Prop where
  source_eq : s.cursor.source = source
  reached : s.position.Reached s.cursor.offset

theorem within_ofBytes (source : Bytes) : Within source (ofBytes source) :=
  ⟨rfl, Position.reached_start⟩

theorem Within.skipLayout {source : Bytes} {s : TokenStream} (h : Within source s) :
    Within source ⟨s.cursor.skipLayout⟩ :=
  ⟨(Cursor.source_skipLayout _).trans h.source_eq, Cursor.reached_skipLayoutFrom h.reached _⟩

theorem Within.next {source : Bytes} {s : TokenStream} (h : Within source s) :
    Within source s.next.2 := by
  have hskip := h.skipLayout
  cases hahead : s.cursor.skipLayout.ahead with
  | nil => rwa [next_of_layout hahead]
  | cons first rest =>
    rw [next_of_cons hahead]
    exact ⟨(Cursor.source_advanceBy _ _).trans hskip.source_eq,
      Cursor.reached_advanceBy hskip.reached _⟩

theorem Within.skip {source : Bytes} {s : TokenStream} (h : Within source s) (n : ℕ) :
    Within source (s.skip n) := by
  induction n generalizing s with
  | zero => exact h
  | succ n ih => exact ih h.next

theorem Within.ahead_eq {source : Bytes} {s : TokenStream} (h : Within source s) :
    s.cursor.ahead = source.drop s.cursor.offset := by
  rw [← h.source_eq, Cursor.drop_offset_source]

theorem Within.offset_le {source : Bytes} {s : TokenStream} (h : Within source s) :
    s.cursor.offset ≤ source.length := by
  rw [← h.source_eq, ← s.cursor.offset_add_length_ahead]
  exact Nat.le_add_right _ _

end TokenStream

/-! ## Lines and columns as natural numbers -/

/-- A token with its line and column as natural numbers, of which there is no largest. -/
structure PlacedToken where
  kind : TokenKind
  line : ℕ
  column : ℕ
  deriving DecidableEq

/-- A token in its place. -/
def Token.placed (t : Token) : PlacedToken :=
  ⟨t.kind, t.position.line.toNat, t.position.column.toNat⟩

/-- A token of a source that begins at a line and a column. On the first line of the source it is so
many columns further on, and below it so many lines. -/
def PlacedToken.countedFrom (line column : ℕ) (t : PlacedToken) : PlacedToken :=
  if t.line = 1 then ⟨t.kind, line, column + t.column - 1⟩
  else ⟨t.kind, line + t.line - 1, t.column⟩

/-- In a source that can be counted in 32 bits, nothing is cut off by counting on. -/
theorem placed_countedFrom {m n : ℕ} {origin : Position} {t : Token} (ho : origin.Reached m)
    (ht : t.position.Reached n) (hsum : m + n < 2 ^ 32 - 1) :
    (t.countedFrom origin).placed =
      t.placed.countedFrom origin.line.toNat origin.column.toNat := by
  obtain ⟨holine, hocolumn, hosum⟩ := ho
  obtain ⟨hline, hcolumn, htsum⟩ := ht
  by_cases h : t.position.line.toNat = 1
  · have hfirst : t.placed.countedFrom origin.line.toNat origin.column.toNat =
        ⟨t.kind, origin.line.toNat, origin.column.toNat + t.position.column.toNat - 1⟩ := if_pos h
    rw [hfirst, Token.placed, Token.countedFrom, Position.countedFrom, if_pos h,
      Position.toNat_column_rightBy, UInt32.size, PlacedToken.mk.injEq]
    exact ⟨rfl, rfl, by omega⟩
  · have hlater : t.placed.countedFrom origin.line.toNat origin.column.toNat =
        ⟨t.kind, origin.line.toNat + t.position.line.toNat - 1, t.position.column.toNat⟩ := if_neg h
    rw [hlater, Token.placed, Token.countedFrom, Position.countedFrom, if_neg h,
      Position.toNat_ofNatClamp, UInt32.size, PlacedToken.mk.injEq]
    exact ⟨rfl, by omega, rfl⟩

theorem reached_of_mem_tokensOf {n : ℕ} {p : Position} (hp : p.Reached n) {segments : List Segment}
    {t : Token} (h : t ∈ tokensOf p segments) (tail : Bytes) :
    t.position.Reached (n + (Segment.join segments tail).length) := by
  induction segments generalizing p n with
  | nil => cases h
  | cons s later ih =>
    rw [Segment.join_cons, ← List.append_assoc, List.length_append, ← Nat.add_assoc]
    rcases List.mem_cons.mp h with rfl | h
    · refine (hp.through s.gap).mono ?_
      rw [List.length_append]
      omega
    · exact ih (hp.past s) h

theorem reached_endFrom {n : ℕ} {p : Position} (hp : p.Reached n) (segments : List Segment)
    (tail : Bytes) :
    (endFrom p tail segments).position.Reached (n + (Segment.join segments tail).length) := by
  induction segments generalizing p n with
  | nil => exact hp.through tail
  | cons s later ih =>
    rw [Segment.join_cons, ← List.append_assoc, List.length_append, ← Nat.add_assoc]
    exact ih (hp.past s)

/-- No token is further on than its source is long. -/
theorem reached_of_mem_tokenize {source : Bytes} {t : Token} (h : t ∈ tokenize source) :
    t.position.Reached source.length := by
  obtain ⟨segments, tail, rfl, hcut⟩ := exists_segmented source
  rw [tokenize_join hcut, List.mem_append, List.mem_singleton] at h
  rw [← Nat.zero_add (Segment.join segments tail).length]
  rcases h with h | rfl
  · exact reached_of_mem_tokensOf Position.reached_start h tail
  · exact reached_endFrom Position.reached_start segments tail

/-- **Nothing but the place is remembered.** After any number of tokens of a source of fewer than
    2^32 - 1 bytes, the tokens to come are those of the bytes from there on as a source of their
    own, with their lines and columns counted on from the stream's position. -/
theorem placed_rest_skip (source : Bytes) (hlength : source.length < 2 ^ 32 - 1) (n : ℕ) :
    let s := (TokenStream.ofBytes source).skip n
    s.rest.map Token.placed = (tokenize (source.drop s.cursor.offset)).map fun t =>
      t.placed.countedFrom s.position.line.toNat s.position.column.toNat := by
  intro s
  have hs : s.Within source := (TokenStream.within_ofBytes source).skip n
  rw [TokenStream.rest_eq_map_tokenize hs.reached, hs.ahead_eq, List.map_map]
  refine List.map_congr_left fun t ht => ?_
  refine placed_countedFrom hs.reached (reached_of_mem_tokenize ht) ?_
  have := hs.offset_le
  rw [List.length_drop]
  omega

/-- Behind the word, in the middle of its line: the digits are two columns further on, and the
symbol is on a line of its own. -/
theorem placed_rest_skip_word :
    (Bytes.ofString "ab 1\n;").length < 2 ^ 32 - 1 ∧
      ((TokenStream.ofBytes (Bytes.ofString "ab 1\n;")).skip 1).rest.map Token.placed =
        [⟨.integer 1, 1, 4⟩, ⟨.symbol .semicolon, 2, 1⟩, ⟨.endOfInput, 2, 2⟩] := by
  have hlength : (Bytes.ofString "ab 1\n;").length < 2 ^ 32 - 1 := by decide
  exact ⟨hlength, (placed_rest_skip _ hlength 1).trans (by decide)⟩

end Lexing
