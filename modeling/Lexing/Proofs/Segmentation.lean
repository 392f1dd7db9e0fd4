import Lexing.Proofs.Grammar
import Lexing.Token.Stream

/-!
# Sources cut into tokens

A source is cut into segments, each of them layout and then the bytes of one token, and the layout
after the last token. Whoever cuts a source by the grammar finds the tokens that the stream hands
out, and every source can be cut so.

Results:

* `TokenStream.next_of_segment`: one token is taken, the bytes after it are left, and the position
  moves past both.
* `TokenStream.take_of_segmented`, `tokenize_join`: the tokens of a source that is cut by the grammar.
* `exists_segmented`: every source is cut by the grammar.
* `exists_segments_tokenize`: the whole of a source is accounted for by its tokens.
-/

namespace Lexing

/-! ## Layout -/

/-- Nothing but spaces, tabs, line feeds and carriage returns. -/
def Bytes.AllLayout (bytes : Bytes) : Prop := ∀ b ∈ bytes, isLayout b = true

instance (bytes : Bytes) : Decidable bytes.AllLayout :=
  List.decidableBAll (fun b => Bytes.isLayout b = true) bytes

namespace Position

/-- The position after a byte of layout. -/
def afterLayout (p : Position) (b : UInt8) : Position :=
  if Bytes.isLineBreak b then p.nextLine else p.right

/-- The position after some layout. -/
def through (p : Position) (layout : Bytes) : Position := layout.foldl afterLayout p

@[simp]
theorem through_nil (p : Position) : p.through [] = p := rfl

@[simp]
theorem through_cons (p : Position) (b : UInt8) (layout : Bytes) :
    p.through (b :: layout) = (p.afterLayout b).through layout := rfl

theorem through_append (p : Position) (front rest : Bytes) :
    p.through (front ++ rest) = (p.through front).through rest := List.foldl_append

end Position

theorem Cursor.position_skipLayoutFrom (passed : Bytes) (position : Position) (ahead : Bytes) :
    (skipLayoutFrom passed position ahead).position =
      position.through (ahead.takeWhile Bytes.isLayout) := by
  induction ahead generalizing passed position with
  | nil => rfl
  | cons b rest ih =>
    unfold skipLayoutFrom
    by_cases hbreak : Bytes.isLineBreak b = true
    · have hb : Bytes.isLayout b = true := by simp [Bytes.isLayout, hbreak]
      rw [if_pos hbreak, ih, List.takeWhile_cons_of_pos hb, Position.through_cons,
        Position.afterLayout, if_pos hbreak]
    · rw [if_neg hbreak]
      by_cases hblank : Bytes.isBlank b = true
      · have hb : Bytes.isLayout b = true := by simp [Bytes.isLayout, hblank]
        rw [if_pos hblank, ih, List.takeWhile_cons_of_pos hb, Position.through_cons,
          Position.afterLayout, if_neg hbreak]
      · have hb : ¬ Bytes.isLayout b = true := by simp [Bytes.isLayout, hbreak, hblank]
        rw [if_neg hblank, List.takeWhile_cons_of_neg hb, Position.through_nil]

theorem Cursor.position_skipLayout (c : Cursor) :
    c.skipLayout.position = c.position.through (c.ahead.takeWhile Bytes.isLayout) :=
  position_skipLayoutFrom _ _ _

/-! ## Segments -/

/-- Layout, the bytes of the token after it, and what the token is. -/
structure Segment where
  gap : Bytes
  lexeme : Bytes
  kind : TokenKind

namespace Segment

/-- The bytes of a segment. -/
def bytes (s : Segment) : Bytes := s.gap ++ s.lexeme

/-- The source that segments in order and the layout after them make up. -/
def join (segments : List Segment) (tail : Bytes) : Bytes := segments.flatMap bytes ++ tail

@[simp]
theorem join_nil (tail : Bytes) : join [] tail = tail := rfl

theorem join_cons (s : Segment) (later : List Segment) (tail : Bytes) :
    join (s :: later) tail = s.gap ++ (s.lexeme ++ join later tail) := by
  simp [join, bytes]

theorem join_append (front later : List Segment) (tail : Bytes) :
    join (front ++ later) tail = join front (join later tail) := by
  simp [join]

theorem join_eq_append (segments : List Segment) (tail : Bytes) :
    join segments tail = join segments [] ++ tail := by
  simp [join]

theorem join_append_eq_append (front later : List Segment) (tail : Bytes) :
    join (front ++ later) tail = join front [] ++ join later tail := by
  rw [join_append, join_eq_append front]

end Segment

/-- A source is cut by the grammar: between the tokens there is only layout, and each token obeys a
    rule, given the byte after it. -/
structure Segmented (segments : List Segment) (tail : Bytes) : Prop where
  gaps : ∀ s ∈ segments, s.gap.AllLayout
  ends : tail.AllLayout
  rules : ∀ front s later, segments = front ++ s :: later →
    TokenRule s.lexeme (Segment.join later tail).head? s.kind

theorem segmented_nil_iff (tail : Bytes) : Segmented [] tail ↔ tail.AllLayout := by
  constructor
  · intro h
    exact h.ends
  · intro h
    exact ⟨by simp, h, by simp⟩

theorem segmented_cons_iff (s : Segment) (later : List Segment) (tail : Bytes) :
    Segmented (s :: later) tail ↔ s.gap.AllLayout ∧
      TokenRule s.lexeme (Segment.join later tail).head? s.kind ∧ Segmented later tail := by
  constructor
  · intro h
    refine ⟨h.gaps s List.mem_cons_self, h.rules [] s later rfl, ?_, h.ends, ?_⟩
    · exact fun t ht => h.gaps t (List.mem_cons_of_mem s ht)
    · rintro front t after rfl
      exact h.rules (s :: front) t after rfl
  · rintro ⟨hgap, hrule, hlater⟩
    refine ⟨?_, hlater.ends, ?_⟩
    · intro t ht
      rcases List.mem_cons.mp ht with rfl | ht
      · exact hgap
      · exact hlater.gaps t ht
    · intro front t after hsplit
      cases front with
      | nil =>
        obtain ⟨rfl, rfl⟩ := List.cons.inj hsplit
        exact hrule
      | cons u front => exact hlater.rules front t after (List.cons.inj hsplit).2

theorem Segmented.of_append {front later : List Segment} {tail : Bytes}
    (h : Segmented (front ++ later) tail) : Segmented later tail := by
  induction front with
  | nil => exact h
  | cons s front ih => exact ih ((segmented_cons_iff s (front ++ later) tail).mp h).2.2

theorem Segmented.length_le {segments : List Segment} {tail : Bytes}
    (h : Segmented segments tail) : segments.length ≤ (Segment.join segments tail).length := by
  induction segments with
  | nil => simp
  | cons s later ih =>
    obtain ⟨_, hrule, hlater⟩ := (segmented_cons_iff s later tail).mp h
    obtain ⟨first, more, hlexeme, _⟩ := hrule.exists_cons
    have := ih hlater
    rw [Segment.join_cons, hlexeme]
    simp only [List.length_cons, List.length_append]
    omega

/-! ## The tokens of a source that is cut -/

/-- The position after a segment. -/
def Position.past (p : Position) (s : Segment) : Position :=
  (p.through s.gap).rightBy s.lexeme.length

/-- The tokens of segments, the first of which starts at a position. -/
def tokensOf (p : Position) : List Segment → List Token
  | [] => []
  | s :: later => ⟨s.kind, p.through s.gap⟩ :: tokensOf (p.past s) later

/-- The end of input after segments and the layout that is left. -/
def endFrom (p : Position) (tail : Bytes) (segments : List Segment) : Token :=
  ⟨.endOfInput, (segments.foldl Position.past p).through tail⟩

theorem length_tokensOf (p : Position) (segments : List Segment) :
    (tokensOf p segments).length = segments.length := by
  induction segments generalizing p with
  | nil => rfl
  | cons s later ih => simp [tokensOf, ih]

theorem kind_tokensOf (p : Position) (segments : List Segment) :
    (tokensOf p segments).map Token.kind = segments.map Segment.kind := by
  induction segments generalizing p with
  | nil => rfl
  | cons s later ih => simp [tokensOf, ih]

theorem tokensOf_append (p : Position) (front later : List Segment) :
    tokensOf p (front ++ later) = tokensOf p front ++ tokensOf (front.foldl Position.past p) later := by
  induction front generalizing p with
  | nil => rfl
  | cons s front ih => simp [tokensOf, ih]

theorem isEnd_of_mem_tokensOf {segments : List Segment} {tail : Bytes}
    (h : Segmented segments tail) {p : Position} {t : Token} (ht : t ∈ tokensOf p segments) :
    t.isEnd = false := by
  obtain ⟨s, hs, hkind⟩ : ∃ s ∈ segments, s.kind = t.kind := by
    rw [← List.mem_map, ← kind_tokensOf p]
    exact List.mem_map_of_mem ht
  obtain ⟨front, later, hsplit⟩ := List.append_of_mem hs
  rw [Token.isEnd_eq_false_iff, ← hkind]
  exact (h.rules front s later hsplit).kind_ne_endOfInput

/-- Layout is passed up to the first byte of a token. -/
theorem TokenStream.skipLayout_of_segment {s : TokenStream} {gap lexeme rest : Bytes}
    {kind : TokenKind} (hgap : gap.AllLayout) (hrule : TokenRule lexeme rest.head? kind)
    (hahead : s.cursor.ahead = gap ++ (lexeme ++ rest)) :
    s.cursor.skipLayout.ahead = lexeme ++ rest ∧
      s.cursor.skipLayout.position = s.position.through gap := by
  obtain ⟨first, more, rfl, hfirst⟩ := hrule.exists_cons
  have hfirst' : ¬ Bytes.isLayout first = true := by rw [hfirst]; exact Bool.false_ne_true
  constructor
  · rw [Cursor.ahead_skipLayout, hahead, List.dropWhile_append_of_pos hgap, List.cons_append,
      List.dropWhile_cons_of_neg hfirst']
  · rw [Cursor.position_skipLayout, hahead, List.takeWhile_append_of_pos hgap, List.cons_append,
      List.takeWhile_cons_of_neg hfirst', List.append_nil]
    rfl

/-- **One token.** Before a gap, the bytes of a token and a rest that goes on as the rule of the
    token demands, the stream hands out this token and keeps the rest. -/
theorem TokenStream.next_of_segment {s : TokenStream} {gap lexeme rest : Bytes}
    {kind : TokenKind} (hgap : gap.AllLayout) (hrule : TokenRule lexeme rest.head? kind)
    (hahead : s.cursor.ahead = gap ++ (lexeme ++ rest)) :
    s.next.1 = ⟨kind, s.position.through gap⟩ ∧ s.next.2.cursor.ahead = rest ∧
      s.next.2.position = (s.position.through gap).rightBy lexeme.length := by
  obtain ⟨hleft, hposition⟩ := skipLayout_of_segment hgap hrule hahead
  obtain ⟨first, more, hlexeme, hread⟩ := hrule.ofBytes_eq
  have hcons : s.cursor.skipLayout.ahead = first :: (more ++ rest) := by
    rw [hleft, hlexeme, List.cons_append]
  rw [next_of_cons hcons, hread]
  refine ⟨by rw [hposition], ?_, ?_⟩
  · rw [Cursor.ahead_advanceBy, hleft, List.drop_left]
  · simp only [position, Cursor.advanceBy, hleft, List.take_left]
    rw [hposition]
    rfl

/-- The end of input, before nothing but layout. -/
theorem TokenStream.next_of_allLayout {s : TokenStream} (h : s.cursor.ahead.AllLayout) :
    s.next.1 = ⟨.endOfInput, s.position.through s.cursor.ahead⟩ := by
  have hleft : s.cursor.skipLayout.ahead = [] := by
    rw [Cursor.ahead_skipLayout, List.dropWhile_eq_nil_iff]
    exact h
  rw [next_of_layout hleft, Cursor.position_skipLayout, List.takeWhile_eq_self_iff.mpr h]
  rfl

/-- **All tokens.** A stream whose bytes are cut by the grammar hands out the tokens of the
    segments and then the end of input. -/
theorem TokenStream.take_of_segmented {segments : List Segment} {tail : Bytes}
    (h : Segmented segments tail) {s : TokenStream}
    (hahead : s.cursor.ahead = Segment.join segments tail) {count : Nat}
    (hcount : segments.length < count) :
    (s.take count).1 = tokensOf s.position segments ++ [endFrom s.position tail segments] := by
  induction segments generalizing s count with
  | nil =>
    obtain ⟨count, rfl⟩ : ∃ m, count = m + 1 := ⟨count - 1, by omega⟩
    have hlayout : s.cursor.ahead.AllLayout := by rw [hahead]; exact h.ends
    have hnext := next_of_allLayout hlayout
    rw [hahead, Segment.join_nil] at hnext
    have hend : s.next.1.isEnd = true := by rw [hnext]; rfl
    rw [take_succ, if_pos hend, hnext]
    rfl
  | cons segment later ih =>
    obtain ⟨count, rfl⟩ : ∃ m, count = m + 1 := ⟨count - 1, by omega⟩
    obtain ⟨hgap, hrule, hlater⟩ := (segmented_cons_iff segment later tail).mp h
    rw [Segment.join_cons] at hahead
    obtain ⟨hnext, hrest, hposition⟩ := next_of_segment hgap hrule hahead
    have hend : ¬ s.next.1.isEnd = true := by
      rw [hnext, Token.isEnd_iff]
      exact hrule.kind_ne_endOfInput
    rw [List.length_cons] at hcount
    rw [take_succ, if_neg hend, ih hlater hrest (by omega), hnext, hposition]
    rfl

theorem tokenize_join {segments : List Segment} {tail : Bytes} (h : Segmented segments tail) :
    tokenize (Segment.join segments tail) =
      tokensOf .start segments ++ [endFrom .start tail segments] := by
  have hlength := h.length_le
  refine TokenStream.take_of_segmented h rfl ?_
  show segments.length < (Segment.join segments tail).length + 1
  omega

/-! ## Every source is cut -/

/-- **Every source is cut by the grammar.** -/
theorem exists_segmented (source : Bytes) :
    ∃ segments tail, source = Segment.join segments tail ∧ Segmented segments tail := by
  induction hn : source.length using Nat.strongRecOn generalizing source with
  | _ n ih =>
    have hsplit : source.takeWhile Bytes.isLayout ++ source.dropWhile Bytes.isLayout = source :=
      List.takeWhile_append_dropWhile
    have hgap : Bytes.AllLayout (source.takeWhile Bytes.isLayout) :=
      fun b hb => List.mem_takeWhile_imp hb
    cases hleft : source.dropWhile Bytes.isLayout with
    | nil =>
      rw [hleft, List.append_nil] at hsplit
      exact ⟨[], source, rfl, (segmented_nil_iff source).mpr (by rw [← hsplit]; exact hgap)⟩
    | cons first rest =>
      have hfirst : Bytes.isLayout first = false := by
        have := List.head?_dropWhile_not Bytes.isLayout source
        rwa [hleft] at this
      obtain ⟨lexeme, after, hcut, hsize, hrule⟩ := exists_tokenRule rest hfirst
      have hpos := Lexeme.size_pos first rest
      have hshorter : after.length < n := by
        have h1 := congrArg List.length hcut
        have h2 := congrArg List.length hsplit
        rw [hleft] at h2
        rw [List.length_append] at h1 h2
        omega
      obtain ⟨segments, tail, rfl, hlater⟩ := ih after.length hshorter after rfl
      refine ⟨⟨source.takeWhile Bytes.isLayout, lexeme, (Lexeme.ofBytes first rest).kind⟩ :: segments,
        tail, ?_, (segmented_cons_iff _ segments tail).mpr ⟨hgap, hrule, hlater⟩⟩
      rw [Segment.join_cons]
      show source = source.takeWhile Bytes.isLayout ++ (lexeme ++ Segment.join segments tail)
      rw [← hcut, ← hleft, hsplit]

theorem Segmented.join_eq_nil {segments : List Segment} {tail : Bytes}
    (h : Segmented segments tail) (hjoin : Segment.join segments tail = []) :
    segments = [] ∧ tail = [] := by
  have hlength := h.length_le
  rw [hjoin] at hlength
  have hnil : segments = [] := List.length_eq_zero_iff.mp (Nat.le_zero.mp hlength)
  subst hnil
  exact ⟨rfl, hjoin⟩

/-- **No byte is lost and none is read twice.** Every source is layout and the bytes of its tokens
    in turn, and layout at its end. The tokens are of the kinds that the rules give to their bytes
    and the bytes after them, and the end of input comes last and only there. After a string
    literal that is not closed there is nothing. -/
theorem exists_segments_tokenize (source : Bytes) :
    ∃ (segments : List Segment) (tail : Bytes),
      source = Segment.join segments tail ∧
      (tokenize source).length = segments.length + 1 ∧
      (tokenize source).map Token.kind = segments.map Segment.kind ++ [.endOfInput] ∧
      (∀ s ∈ segments, s.gap.AllLayout ∧ s.kind ≠ .endOfInput) ∧
      tail.AllLayout ∧
      ∀ front s later, segments = front ++ s :: later →
        TokenRule s.lexeme (Segment.join later tail).head? s.kind ∧
        (∀ kind, TokenRule s.lexeme (Segment.join later tail).head? kind → kind = s.kind) ∧
        (∀ body, s.lexeme = Bytes.quote :: body → Bytes.quote ∉ body → later = [] ∧ tail = []) := by
  obtain ⟨segments, tail, rfl, h⟩ := exists_segmented source
  have htokens := tokenize_join h
  refine ⟨segments, tail, rfl, ?_, ?_, ?_, h.ends, ?_⟩
  · rw [htokens, List.length_append, length_tokensOf, List.length_singleton]
  · rw [htokens, List.map_append, kind_tokensOf]
    rfl
  · intro s hs
    obtain ⟨front, later, hsplit⟩ := List.append_of_mem hs
    exact ⟨h.gaps s hs, (h.rules front s later hsplit).kind_ne_endOfInput⟩
  · intro front s later hsplit
    have hrule := h.rules front s later hsplit
    refine ⟨hrule, fun kind hkind => hkind.kind_unique hrule, ?_⟩
    intro body hlexeme hbody
    rw [hlexeme] at hrule
    have hnil := List.head?_eq_none_iff.mp (hrule.next_eq_none hbody)
    have hlater : Segmented later tail := by
      rw [hsplit] at h
      exact ((segmented_cons_iff s later tail).mp h.of_append).2.2
    exact hlater.join_eq_nil hnil

end Lexing
