import Mathlib.Algebra.Order.Group.Nat
import Mathlib.Data.Finset.Max
import Mathlib.Algebra.Group.Nat.Even
import Lexing.Proofs.Segmentation

/-!
# Positions of tokens

The position of a token can be read off the source without reading any token. A line break counts
unless a string literal is open before it, which is so if an odd number of quotes stands before it.
The line is one more than the number of breaks that count, and the column is the distance from the
last of them, or from the place before the first byte.

Results:

* `lineAt_succ_of_break`, `columnAt_succ_of_break`, `lineAt_add`, `columnAt_add`: how line and
  column change from one offset to the next.
* `Position.IsAt.through`, `Position.IsAt.past`: layout and whole segments keep a position right.
* `isAt_tokenize`: every token of a source stands where the source says.
-/

namespace Lexing

/-! ## Line breaks that count -/

/-- The byte at an offset is a line break, and no string literal is open before it. -/
def Bytes.BreaksAt (source : Bytes) (b : ℕ) : Prop :=
  source[b]?.any isLineBreak = true ∧ Even ((source.take b).count quote)

instance (source : Bytes) : DecidablePred source.BreaksAt := fun b =>
  inferInstanceAs (Decidable (source[b]?.any Bytes.isLineBreak = true ∧
    Even ((source.take b).count Bytes.quote)))

/-- The offsets before `o` of the line breaks that count. -/
def Bytes.breaks (source : Bytes) (o : ℕ) : Finset ℕ := (Finset.range o).filter source.BreaksAt

/-- The line of the byte at an offset. -/
def Bytes.lineAt (source : Bytes) (o : ℕ) : ℕ := 1 + (source.breaks o).card

/-- The column of the byte at an offset. -/
def Bytes.columnAt (source : Bytes) (o : ℕ) : ℕ :=
  if h : (source.breaks o).Nonempty then o - (source.breaks o).max' h else 1 + o

/-- The position is that of the byte at an offset. -/
def Position.IsAt (p : Position) (source : Bytes) (o : ℕ) : Prop :=
  p.line.toNat = source.lineAt o ∧ p.column.toNat = source.columnAt o

section Offsets

variable {source : Bytes} {o : ℕ}

theorem mem_breaks {b : ℕ} : b ∈ source.breaks o ↔ b < o ∧ source.BreaksAt b := by
  rw [Bytes.breaks, Finset.mem_filter, Finset.mem_range]

theorem breaks_succ_of_break (h : source.BreaksAt o) :
    source.breaks (o + 1) = insert o (source.breaks o) := by
  rw [Bytes.breaks, Finset.range_add_one, Finset.filter_insert, if_pos h, Bytes.breaks]

theorem breaks_succ_of_not (h : ¬ source.BreaksAt o) : source.breaks (o + 1) = source.breaks o := by
  rw [Bytes.breaks, Finset.range_add_one, Finset.filter_insert, if_neg h, Bytes.breaks]

theorem lineAt_succ_of_break (h : source.BreaksAt o) :
    source.lineAt (o + 1) = source.lineAt o + 1 := by
  have hnew : o ∉ source.breaks o := fun hmem => absurd (mem_breaks.mp hmem).1 (lt_irrefl o)
  rw [Bytes.lineAt, breaks_succ_of_break h, Finset.card_insert_of_notMem hnew, Bytes.lineAt]
  omega

theorem columnAt_succ_of_break (h : source.BreaksAt o) : source.columnAt (o + 1) = 1 := by
  have hmem : o ∈ source.breaks (o + 1) := mem_breaks.mpr ⟨by omega, h⟩
  have hmax : (source.breaks (o + 1)).max' ⟨o, hmem⟩ = o := by
    apply le_antisymm
    · have := (mem_breaks.mp (Finset.max'_mem _ ⟨o, hmem⟩)).1
      omega
    · exact Finset.le_max' _ o hmem
  rw [Bytes.columnAt, dif_pos ⟨o, hmem⟩, hmax]
  omega

theorem columnAt_succ_of_not (h : ¬ source.BreaksAt o) :
    source.columnAt (o + 1) = source.columnAt o + 1 := by
  unfold Bytes.columnAt
  simp only [breaks_succ_of_not h]
  split_ifs with hne
  · have := (mem_breaks.mp (Finset.max'_mem _ hne)).1
    omega
  · omega

/-- A run of bytes without a break that counts stays on its line. -/
theorem lineAt_add {n : ℕ} (h : ∀ j < n, ¬ source.BreaksAt (o + j)) :
    source.lineAt (o + n) = source.lineAt o := by
  induction n with
  | zero => rfl
  | succ n ih =>
    rw [← Nat.add_assoc, Bytes.lineAt, breaks_succ_of_not (h n (by omega))]
    exact ih fun j hj => h j (by omega)

/-- A run of bytes without a break that counts is one column for each byte. -/
theorem columnAt_add {n : ℕ} (h : ∀ j < n, ¬ source.BreaksAt (o + j)) :
    source.columnAt (o + n) = source.columnAt o + n := by
  induction n with
  | zero => rfl
  | succ n ih =>
    have := ih fun j hj => h j (by omega)
    rw [← Nat.add_assoc, columnAt_succ_of_not (h n (by omega)), this]
    omega

theorem lineAt_le (source : Bytes) (o : ℕ) : source.lineAt o ≤ o + 1 := by
  have hcard : (source.breaks o).card ≤ (Finset.range o).card := Finset.card_filter_le _ _
  rw [Finset.card_range] at hcard
  rw [Bytes.lineAt]
  omega

theorem columnAt_le (source : Bytes) (o : ℕ) : source.columnAt o ≤ o + 1 := by
  unfold Bytes.columnAt
  split_ifs <;> omega

end Offsets

/-! ## Moving a position -/

/-- A source is short enough to be counted in 32 bits: no line and no column is cut off. -/
def Bytes.Countable (source : Bytes) : Prop := source.length < 2 ^ 32 - 1

theorem Position.IsAt.rightBy {p : Position} {source : Bytes} {o n : ℕ} (hp : p.IsAt source o)
    (hlength : source.Countable) (ho : o + n ≤ source.length)
    (h : ∀ j < n, ¬ source.BreaksAt (o + j)) : (p.rightBy n).IsAt source (o + n) := by
  obtain ⟨hline, hcolumn⟩ := hp
  constructor
  · rw [line_rightBy, hline, lineAt_add h]
  · have hbound := columnAt_le source (o + n)
    rw [columnAt_add h] at hbound ⊢
    unfold Bytes.Countable at hlength
    rw [toNat_column_rightBy, hcolumn, UInt32.size]
    omega

theorem Position.IsAt.nextLine {p : Position} {source : Bytes} {o : ℕ} (hp : p.IsAt source o)
    (hlength : source.Countable) (ho : o + 1 ≤ source.length) (h : source.BreaksAt o) :
    p.nextLine.IsAt source (o + 1) := by
  constructor
  · have hbound := lineAt_le source (o + 1)
    rw [lineAt_succ_of_break h] at hbound ⊢
    unfold Bytes.Countable at hlength
    rw [toNat_line_nextLine, hp.1, UInt32.size]
    omega
  · rw [column_nextLine, columnAt_succ_of_break h]
    rfl

theorem Position.isAt_start (source : Bytes) : Position.start.IsAt source 0 := by
  constructor
  · simp [start, Bytes.lineAt, Bytes.breaks]
  · simp [start, Bytes.columnAt, Bytes.breaks]

/-! ## Layout -/

theorem Bytes.breaksAt_append (front rest : Bytes) (b : UInt8) :
    BreaksAt (front ++ b :: rest) front.length ↔
      isLineBreak b = true ∧ Even (front.count quote) := by
  simp [BreaksAt]

theorem Bytes.ne_quote_of_isLayout {b : UInt8} (h : isLayout b = true) : b ≠ quote := by
  rintro rfl
  exact absurd h (by decide)

theorem Bytes.AllLayout.count_quote {layout : Bytes} (h : layout.AllLayout) :
    layout.count quote = 0 :=
  List.count_eq_zero.mpr fun hmem => absurd rfl (ne_quote_of_isLayout (h _ hmem))

/-- **Layout keeps a position right.** Outside string literals every line break counts. -/
theorem Position.IsAt.through {source front gap rest : Bytes} {p : Position}
    (hp : p.IsAt source front.length) (hlength : source.Countable)
    (hsource : source = front ++ (gap ++ rest)) (hgap : gap.AllLayout)
    (heven : Even (front.count Bytes.quote)) :
    (p.through gap).IsAt source (front ++ gap).length := by
  induction gap generalizing front p with
  | nil => simpa using hp
  | cons b gap ih =>
    obtain ⟨hb, hgap⟩ := List.forall_mem_cons.mp hgap
    have hsource' : source = front ++ [b] ++ (gap ++ rest) := by
      rw [hsource, List.append_assoc]
      rfl
    have heven' : Even ((front ++ [b]).count Bytes.quote) := by
      rw [List.count_append, Bytes.AllLayout.count_quote (List.forall_mem_singleton.mpr hb)]
      exact heven
    have hinside : front.length + 1 ≤ source.length := by
      rw [hsource]
      simp only [List.length_append, List.length_cons]
      omega
    have hbreak := Bytes.breaksAt_append front (gap ++ rest) b
    rw [← List.cons_append, ← hsource] at hbreak
    have hstep : (p.afterLayout b).IsAt source (front ++ [b]).length := by
      rw [List.length_append, List.length_singleton, afterLayout]
      by_cases h : Bytes.isLineBreak b = true
      · rw [if_pos h]
        exact hp.nextLine hlength hinside (hbreak.mpr ⟨h, heven⟩)
      · rw [if_neg h]
        refine hp.rightBy hlength hinside fun j hj hat => ?_
        obtain rfl : j = 0 := by omega
        exact h (hbreak.mp hat).1
    have := ih hstep hsource' hgap heven'
    rwa [List.append_assoc, List.singleton_append] at this

/-! ## Tokens -/

/-- No line break in the bytes of a token counts. -/
def Bytes.Quiet (lexeme : Bytes) : Prop :=
  ∀ j, lexeme[j]?.any isLineBreak = true → ¬ Even ((lexeme.take j).count quote)

theorem Bytes.quiet_of_forall {lexeme : Bytes} (h : ∀ b ∈ lexeme, isLayout b = false) :
    lexeme.Quiet := by
  intro j hj
  obtain ⟨b, hb, hbreak⟩ := (Option.any_eq_true _ _).mp hj
  have hlayout := isLayout_eq_false_iff.mp (h b (List.mem_of_getElem? hb))
  rw [hlayout.2] at hbreak
  cases hbreak

/-- Inside a string literal one quote stands before every byte of the body. -/
theorem Bytes.quiet_quote_append {body closing : Bytes} (hbody : quote ∉ body)
    (hclosing : ∀ b ∈ closing, isLineBreak b = false) : Quiet (quote :: (body ++ closing)) := by
  intro j hj
  obtain ⟨b, hb, hbreak⟩ := (Option.any_eq_true _ _).mp hj
  cases j with
  | zero =>
    obtain rfl : quote = b := by simpa using hb
    exact absurd hbreak (by decide)
  | succ j =>
    rw [List.getElem?_cons_succ] at hb
    by_cases hj : j < body.length
    · have hcount : (body.take j).count quote = 0 :=
        List.count_eq_zero.mpr fun hmem => hbody (List.mem_of_mem_take hmem)
      rw [List.take_succ_cons, List.take_append_of_le_length hj.le, List.count_cons_self, hcount]
      decide
    · rw [List.getElem?_append_right (by omega)] at hb
      rw [hclosing b (List.mem_of_getElem? hb)] at hbreak
      cases hbreak

theorem TokenRule.quiet {lexeme : Bytes} {next : Option UInt8} {kind : TokenKind}
    (h : TokenRule lexeme next kind) : lexeme.Quiet := by
  cases h with
  | keyword k run =>
    exact Bytes.quiet_of_forall fun b hb => Bytes.isLayout_of_isLetter (run.all b hb)
  | identifier run _ =>
    exact Bytes.quiet_of_forall fun b hb => Bytes.isLayout_of_isLetter (run.all b hb)
  | integer run =>
    exact Bytes.quiet_of_forall fun b hb => Bytes.isLayout_of_isDigit (run.all b hb)
  | string hbody =>
    exact Bytes.quiet_quote_append hbody (List.forall_mem_singleton.mpr (by decide))
  | @openString body hbody =>
    have hnil : ∀ b ∈ ([] : Bytes), Bytes.isLineBreak b = false := by simp
    have := Bytes.quiet_quote_append hbody hnil
    rwa [List.append_nil] at this
  | equal =>
    refine Bytes.quiet_of_forall (List.forall_mem_cons.mpr ⟨by decide, ?_⟩)
    exact List.forall_mem_singleton.mpr (by decide)
  | notEqual =>
    refine Bytes.quiet_of_forall (List.forall_mem_cons.mpr ⟨by decide, ?_⟩)
    exact List.forall_mem_singleton.mpr (by decide)
  | symbol s => exact Bytes.quiet_of_forall (List.forall_mem_singleton.mpr s.isLayout_byte)
  | illegal hb => exact Bytes.quiet_of_forall (List.forall_mem_singleton.mpr hb.1)

/-- A token closes the string literal that it opens, unless the source ends. -/
theorem TokenRule.even_count_quote {lexeme : Bytes} {next : Option UInt8} {kind : TokenKind}
    (h : TokenRule lexeme next kind) : next = none ∨ Even (lexeme.count Bytes.quote) := by
  have hnone : ∀ {word : Bytes}, Bytes.quote ∉ word → Even (word.count Bytes.quote) := by
    intro word hword
    rw [List.count_eq_zero.mpr hword]
    decide
  cases h with
  | keyword k run => exact .inr (hnone fun hq => absurd (run.all _ hq) (by decide))
  | identifier run _ => exact .inr (hnone fun hq => absurd (run.all _ hq) (by decide))
  | integer run => exact .inr (hnone fun hq => absurd (run.all _ hq) (by decide))
  | string hbody =>
    right
    rw [List.count_cons_self, List.count_append, List.count_eq_zero.mpr hbody]
    decide
  | openString _ => exact .inl rfl
  | equal => exact .inr (by decide)
  | notEqual => exact .inr (by decide)
  | symbol s => exact .inr (by cases s <;> decide)
  | illegal hb => exact .inr (hnone (by simpa using hb.2.1.symm))

/-- **Segments keep a position right.** After the gap a token stands at the position through it,
    and behind the token the next segment starts outside every string literal. -/
theorem Position.IsAt.past {s : Segment} {source front rest : Bytes} {p : Position}
    (hp : p.IsAt source front.length) (hlength : source.Countable)
    (hsource : source = front ++ (s.gap ++ (s.lexeme ++ rest))) (hgap : s.gap.AllLayout)
    (hrule : TokenRule s.lexeme rest.head? s.kind) (heven : Even (front.count Bytes.quote)) :
    (p.through s.gap).IsAt source (front ++ s.gap).length ∧
      (p.past s).IsAt source (front ++ s.bytes).length ∧
      (Even ((front ++ s.bytes).count Bytes.quote) ∨ rest = []) := by
  have hthrough := hp.through hlength hsource hgap heven
  have heven' : Even ((front ++ s.gap).count Bytes.quote) := by
    rw [List.count_append, hgap.count_quote]
    exact heven
  have hsource' : source = front ++ s.gap ++ (s.lexeme ++ rest) := by
    rw [hsource, List.append_assoc]
  have hbytes : front ++ s.bytes = front ++ s.gap ++ s.lexeme := by
    rw [Segment.bytes, List.append_assoc]
  refine ⟨hthrough, ?_, ?_⟩
  · rw [hbytes, List.length_append]
    refine hthrough.rightBy hlength ?_ fun j hj hat => ?_
    · rw [hsource']
      simp only [List.length_append]
      omega
    · obtain ⟨hbreak, hquotes⟩ := hat
      rw [hsource', List.getElem?_append_right (by omega), Nat.add_sub_cancel_left,
        List.getElem?_append_left hj] at hbreak
      rw [hsource', List.take_length_add_append, List.take_append_of_le_length hj.le,
        List.count_append, Nat.even_add] at hquotes
      exact hrule.quiet j hbreak (hquotes.mp heven')
  · rcases hrule.even_count_quote with hnext | hquotes
    · exact .inr (List.head?_eq_none_iff.mp hnext)
    · left
      rw [hbytes, List.count_append]
      exact heven'.add hquotes

/-- The position after some of the segments of a source, which lies outside every string literal
    unless nothing is left. -/
theorem Position.IsAt.foldl_past {source before tail : Bytes} {front later : List Segment}
    {p : Position} (hp : p.IsAt source before.length) (hlength : source.Countable)
    (hsource : source = before ++ Segment.join (front ++ later) tail)
    (h : Segmented (front ++ later) tail)
    (heven : Even (before.count Bytes.quote) ∨ Segment.join (front ++ later) tail = []) :
    (front.foldl Position.past p).IsAt source (before ++ Segment.join front []).length ∧
      (Even ((before ++ Segment.join front []).count Bytes.quote) ∨
        Segment.join later tail = []) := by
  induction front generalizing before p with
  | nil =>
    rw [Segment.join_nil, List.append_nil]
    exact ⟨hp, heven⟩
  | cons s front ih =>
    rw [List.cons_append] at hsource h heven
    have hsome : Segment.join (s :: (front ++ later)) tail ≠ [] := fun hnil =>
      List.cons_ne_nil _ _ (h.join_eq_nil hnil).1
    obtain ⟨hgap, hrule, hlater⟩ := (segmented_cons_iff s (front ++ later) tail).mp h
    rw [Segment.join_cons] at hsource
    obtain ⟨_, hpast, hquotes⟩ :=
      hp.past hlength hsource hgap hrule (heven.resolve_right hsome)
    have hsource' : source = before ++ s.bytes ++ Segment.join (front ++ later) tail := by
      rw [hsource, Segment.bytes]
      simp only [List.append_assoc]
    have hbytes : before ++ Segment.join (s :: front) [] =
        before ++ s.bytes ++ Segment.join front [] := by
      rw [Segment.join_cons, Segment.bytes]
      simp only [List.append_assoc]
    rw [hbytes]
    exact ih hpast hsource' hlater hquotes

theorem getElem?_tokenize {segments front later : List Segment} {s : Segment} {tail : Bytes}
    (h : Segmented segments tail) (hsplit : segments = front ++ s :: later) :
    (tokenize (Segment.join segments tail))[front.length]? =
      some ⟨s.kind, (front.foldl Position.past .start).through s.gap⟩ := by
  rw [tokenize_join h, hsplit, tokensOf_append, List.append_assoc,
    List.getElem?_append_right (by rw [length_tokensOf]), length_tokensOf, Nat.sub_self]
  rfl

theorem getElem?_length_tokenize {segments : List Segment} {tail : Bytes}
    (h : Segmented segments tail) :
    (tokenize (Segment.join segments tail))[segments.length]? =
      some (endFrom .start tail segments) := by
  rw [tokenize_join h, List.getElem?_append_right (by rw [length_tokensOf]), length_tokensOf,
    Nat.sub_self]
  rfl

/-- **Every token stands where the source says.** A source of fewer than 2^32 - 1 bytes is cut by
    the grammar, and however it is cut: its tokens are those of the segments and the end of input,
    a token has the position of the first byte of its lexeme, and the end of input has the position
    after the last byte. -/
theorem isAt_tokenize (source : Bytes) (hlength : source.length < 2 ^ 32 - 1) :
    (∃ segments tail, source = Segment.join segments tail ∧ Segmented segments tail) ∧
    ∀ segments tail, source = Segment.join segments tail → Segmented segments tail →
      (tokenize source).length = segments.length + 1 ∧
      (∀ front s later, segments = front ++ s :: later →
        ∃ p : Position, (tokenize source)[front.length]? = some ⟨s.kind, p⟩ ∧
          p.IsAt source (Segment.join front s.gap).length) ∧
      ∃ p : Position, (tokenize source)[segments.length]? = some ⟨.endOfInput, p⟩ ∧
        p.IsAt source source.length := by
  refine ⟨exists_segmented source, ?_⟩
  intro segments tail hsource h
  have hlength' : source.Countable := hlength
  have heven : Even (([] : Bytes).count Bytes.quote) ∨ Segment.join segments tail = [] :=
    .inl (by decide)
  have hstart : Position.start.IsAt source ([] : Bytes).length := Position.isAt_start source
  refine ⟨?_, ?_, ?_⟩
  · rw [hsource, tokenize_join h, List.length_append, length_tokensOf, List.length_singleton]
  · intro front s later hsplit
    refine ⟨(front.foldl Position.past .start).through s.gap, ?_, ?_⟩
    · rw [hsource]
      exact getElem?_tokenize h hsplit
    · rw [hsplit] at hsource h heven
      obtain ⟨hfront, hquotes⟩ := hstart.foldl_past hlength' hsource h heven
      rw [List.nil_append] at hfront hquotes
      have hsome : Segment.join (s :: later) tail ≠ [] := fun hnil =>
        List.cons_ne_nil _ _ (h.of_append.join_eq_nil hnil).1
      have hsource' : source =
          Segment.join front [] ++ (s.gap ++ (s.lexeme ++ Segment.join later tail)) := by
        rw [hsource, Segment.join_append, Segment.join_eq_append front, Segment.join_cons]
      rw [Segment.join_eq_append]
      exact hfront.through hlength' hsource' (h.gaps s (by simp)) (hquotes.resolve_right hsome)
  · refine ⟨(segments.foldl Position.past .start).through tail, ?_, ?_⟩
    · have := getElem?_length_tokenize h
      rwa [← hsource] at this
    · have happend : segments = segments ++ [] := (List.append_nil segments).symm
      rw [happend] at hsource h heven
      obtain ⟨hfront, hquotes⟩ := hstart.foldl_past hlength' hsource h heven
      rw [List.nil_append] at hfront hquotes
      have hsource' : source = Segment.join segments [] ++ (tail ++ []) := by
        rw [hsource, List.append_nil, List.append_nil, Segment.join_eq_append]
      rcases hquotes with hquotes | hnil
      · have hthrough := hfront.through hlength' hsource' h.ends hquotes
        have hall : Segment.join segments [] ++ tail = source := by rw [hsource', List.append_nil]
        rwa [hall] at hthrough
      · obtain rfl : tail = [] := hnil
        rw [List.append_nil, List.append_nil] at hsource'
        rwa [← hsource'] at hfront

/-- A line feed inside a string literal is a column, and a carriage return and a line feed outside
    are two lines. -/
theorem isAt_tokenize_of_lines :
    (Bytes.ofString "\"\n\"\r\nx").length < 2 ^ 32 - 1 ∧
      ∃ p : Position, (tokenize (Bytes.ofString "\"\n\"\r\nx"))[1]? =
        some ⟨.identifier (Bytes.ofString "x"), p⟩ ∧ p.line.toNat = 3 ∧ p.column.toNat = 1 := by
  have hlength : (Bytes.ofString "\"\n\"\r\nx").length < 2 ^ 32 - 1 := by decide
  have hword : TokenRule (Bytes.ofString "x") none (.identifier (Bytes.ofString "x")) := by
    refine .identifier ⟨by decide, List.all_eq_true.mp (by decide), by simp⟩ ?_
    intro k
    cases k <;> decide
  have hbody : Bytes.quote ∉ [Bytes.lineFeed] := by decide
  have hstring : TokenRule (Bytes.ofString "\"\n\"") (some Bytes.carriageReturn)
      (.string [Bytes.lineFeed]) := .string hbody
  have hsegmented : Segmented
      [⟨[], Bytes.ofString "\"\n\"", .string [Bytes.lineFeed]⟩,
        ⟨Bytes.ofString "\r\n", Bytes.ofString "x", .identifier (Bytes.ofString "x")⟩] [] := by
    rw [segmented_cons_iff, segmented_cons_iff, segmented_nil_iff]
    exact ⟨by decide, hstring, by decide, hword, by decide⟩
  obtain ⟨_, htokens⟩ := isAt_tokenize _ hlength
  obtain ⟨_, hrules, _⟩ := htokens _ _ (by decide) hsegmented
  obtain ⟨p, htoken, hline, hcolumn⟩ := hrules [_] _ [] rfl
  refine ⟨hlength, p, htoken, ?_, ?_⟩
  · rw [hline]
    decide
  · rw [hcolumn]
    decide

end Lexing
