import Lexing.Proofs.Place
import Lexing.Proofs.Printing

/-!
# Illegal bytes without tokens

The illegal bytes of a source can be found without reading any token. One pass over the bytes finds
them, which remembers no more than whether a string literal is open, and the line and the column it
has come to. Between two literals every byte outside the alphabet is illegal, and inside of a literal
no byte is.

Results:

* `Pass.after_upTo`, `Pass.reports_upTo`: the state and the reports of the pass at every offset.
* `TokenRule.reports_eq`: over the bytes of one token, the pass reports the token if it is illegal.
* `Pass.reports_join`: over a source that is cut by the grammar, it reports the illegal tokens.
* `illegal_print_eq_reports`: the summary of a listing has the reports of the pass.
-/

namespace Lexing

/-! ## The alphabet -/

namespace Bytes

/-- The bytes that have a meaning outside of string literals: layout, the quote, letters, the
underscore, digits and symbols. -/
def alphabet : Bytes :=
  ofString (" \t\n\r\"" ++ "abcdefghijklmnopqrstuvwxyz" ++ "ABCDEFGHIJKLMNOPQRSTUVWXYZ" ++
    "_0123456789" ++ "=!+-*/<>,;:()[]\x7b\x7d")

theorem mem_alphabet_of_class {b : UInt8} : ByteClass.of b ≠ .foreign → b ∈ alphabet :=
  forall_of_lt (p := fun b => ByteClass.of b ≠ .foreign → b ∈ alphabet) (by decide +kernel) b

theorem all_alphabet : alphabet.all (fun b => ByteClass.of b != .foreign) = true := by
  decide +kernel

/-- No token starts with a byte outside the alphabet, and with every other byte one does, or it is
layout. -/
theorem isForeign_iff {b : UInt8} : IsForeign b ↔ b ∉ alphabet := by
  have hclass : ByteClass.of b = .foreign ↔ IsForeign b := ByteClass.of_eq_foreign_iff b
  rw [← hclass]
  constructor
  · intro h hmem
    have := List.all_eq_true.mp all_alphabet b hmem
    rw [h] at this
    cases this
  · intro h
    by_contra hother
    exact h (mem_alphabet_of_class hother)

theorem mem_alphabet_of_isLayout {b : UInt8} (h : isLayout b = true) : b ∈ alphabet := by
  apply mem_alphabet_of_class
  rw [(ByteClass.of_eq_layout_iff b).mpr h]
  decide

theorem mem_alphabet_of_isLetter {b : UInt8} (h : isLetter b = true) : b ∈ alphabet := by
  apply mem_alphabet_of_class
  rw [(ByteClass.of_eq_letter_iff b).mpr h]
  decide

theorem mem_alphabet_of_isDigit {b : UInt8} (h : isDigit b = true) : b ∈ alphabet := by
  apply mem_alphabet_of_class
  rw [(ByteClass.of_eq_digit_iff b).mpr h]
  decide

theorem byte_mem_alphabet (s : Symbol) : s.byte ∈ alphabet := by
  apply mem_alphabet_of_class
  rw [ByteClass.of_byte]
  exact nofun

theorem quote_mem_alphabet : quote ∈ alphabet := mem_alphabet_of_class (by decide)

end Bytes

/-! ## The pass -/

/-- A byte with its line and column as natural numbers, of which there is no largest. -/
structure PlacedByte where
  byte : UInt8
  line : ℕ
  column : ℕ
  deriving DecidableEq

/-- A report in its place. -/
def IllegalByte.placed (e : IllegalByte) : PlacedByte :=
  ⟨e.byte, e.position.line.toNat, e.position.column.toNat⟩

/-- What a pass over bytes remembers: whether a string literal is open, and the line and the column
of the next byte. -/
structure Pass where
  inString : Bool
  line : ℕ
  column : ℕ
  deriving DecidableEq

namespace Pass

/-- Before the first byte of a source. -/
def start : Pass := ⟨false, 1, 1⟩

/-- After one more byte. A quote opens a literal or closes it. Outside of literals a line break
starts a line. Every other byte is one column. -/
def after (p : Pass) (b : UInt8) : Pass :=
  if b = Bytes.quote then ⟨!p.inString, p.line, p.column + 1⟩
  else if p.inString = false ∧ Bytes.isLineBreak b = true then ⟨false, p.line + 1, 1⟩
  else ⟨p.inString, p.line, p.column + 1⟩

/-- The report of the next byte, which is illegal outside of literals if it is not in the
alphabet. -/
def report? (p : Pass) (b : UInt8) : Option PlacedByte :=
  if p.inString = false ∧ b ∉ Bytes.alphabet then some ⟨b, p.line, p.column⟩ else none

/-- The reports of bytes in order. -/
def reports (p : Pass) : Bytes → List PlacedByte
  | [] => []
  | b :: rest => (p.report? b).toList ++ (p.after b).reports rest

theorem reports_append (p : Pass) (front rest : Bytes) :
    p.reports (front ++ rest) = p.reports front ++ (front.foldl after p).reports rest := by
  induction front generalizing p with
  | nil => rfl
  | cons b front ih =>
    rw [List.cons_append, reports, reports, ih, List.append_assoc, List.foldl_cons]

theorem report?_of_mem (p : Pass) {b : UInt8} (h : b ∈ Bytes.alphabet) : p.report? b = none :=
  if_neg fun hb => hb.2 h

theorem reports_of_alphabet (p : Pass) {bytes : Bytes} (h : ∀ b ∈ bytes, b ∈ Bytes.alphabet) :
    p.reports bytes = [] := by
  induction bytes generalizing p with
  | nil => rfl
  | cons b rest ih =>
    obtain ⟨hb, hrest⟩ := List.forall_mem_cons.mp h
    rw [reports, report?_of_mem p hb, ih _ hrest]
    rfl

/-- Inside of a literal nothing is reported up to the next quote. -/
theorem reports_of_inString {p : Pass} (hp : p.inString = true) {body : Bytes}
    (h : Bytes.quote ∉ body) : p.reports body = [] := by
  induction body generalizing p with
  | nil => rfl
  | cons b rest ih =>
    obtain ⟨hb, hrest⟩ := not_or.mp (List.mem_cons.not.mp h)
    have hafter : (p.after b).inString = true := by
      rw [after, if_neg (Ne.symm hb), hp]
      rfl
    have hnone : p.report? b = none := by
      rw [report?, hp]
      rfl
    rw [reports, hnone, ih hafter hrest]
    rfl

theorem reports_quote_append {p : Pass} (hp : p.inString = false) {body closing : Bytes}
    (hbody : Bytes.quote ∉ body) (hclosing : ∀ b ∈ closing, b ∈ Bytes.alphabet) :
    p.reports (Bytes.quote :: (body ++ closing)) = [] := by
  have hopen : (p.after Bytes.quote).inString = true := by
    rw [after, if_pos rfl, hp]
    rfl
  rw [reports, report?_of_mem p Bytes.quote_mem_alphabet, reports_append,
    reports_of_inString hopen hbody, reports_of_alphabet _ hclosing]
  rfl

end Pass

/-! ## The pass over one token -/

/-- The report that a token of this kind makes at a place. -/
def TokenKind.report? (kind : TokenKind) (line column : ℕ) : Option PlacedByte :=
  match kind with
  | .illegal b => some ⟨b, line, column⟩
  | _ => none

theorem placed_illegal? (t : Token) :
    t.illegal?.map IllegalByte.placed =
      t.kind.report? t.position.line.toNat t.position.column.toNat := by
  rcases t with ⟨kind, position⟩
  cases kind <;> rfl

/-- **One token.** Over its bytes the pass reports an illegal token, and nothing else. -/
theorem TokenRule.reports_eq {lexeme : Bytes} {next : Option UInt8} {kind : TokenKind}
    (h : TokenRule lexeme next kind) {p : Pass} (hp : p.inString = false) :
    p.reports lexeme = (kind.report? p.line p.column).toList := by
  have hequals : Bytes.equalsSign ∈ Bytes.alphabet := Bytes.byte_mem_alphabet .assign
  cases h with
  | keyword k run =>
    exact p.reports_of_alphabet fun b hb => Bytes.mem_alphabet_of_isLetter (run.all b hb)
  | identifier run _ =>
    exact p.reports_of_alphabet fun b hb => Bytes.mem_alphabet_of_isLetter (run.all b hb)
  | integer run =>
    exact p.reports_of_alphabet fun b hb => Bytes.mem_alphabet_of_isDigit (run.all b hb)
  | string hbody =>
    exact Pass.reports_quote_append hp hbody (List.forall_mem_singleton.mpr Bytes.quote_mem_alphabet)
  | @openString body hbody =>
    have hnil : ∀ b ∈ ([] : Bytes), b ∈ Bytes.alphabet := by simp
    have := Pass.reports_quote_append hp hbody hnil
    rwa [List.append_nil] at this
  | equal =>
    exact p.reports_of_alphabet
      (List.forall_mem_cons.mpr ⟨hequals, List.forall_mem_singleton.mpr hequals⟩)
  | notEqual =>
    exact p.reports_of_alphabet (List.forall_mem_cons.mpr
      ⟨Bytes.byte_mem_alphabet .bang, List.forall_mem_singleton.mpr hequals⟩)
  | symbol s =>
    exact p.reports_of_alphabet (List.forall_mem_singleton.mpr (Bytes.byte_mem_alphabet s))
  | @illegal b _ hb =>
    have hreport : p.report? b = some ⟨b, p.line, p.column⟩ :=
      if_pos ⟨hp, Bytes.isForeign_iff.mp hb⟩
    rw [Pass.reports, hreport]
    rfl

/-! ## The pass at an offset -/

theorem lineAt_succ_of_not {source : Bytes} {o : ℕ} (h : ¬ source.BreaksAt o) :
    source.lineAt (o + 1) = source.lineAt o := by
  rw [Bytes.lineAt, breaks_succ_of_not h, Bytes.lineAt]

namespace Bytes

/-- The byte at an offset is not in the alphabet, and no string literal is open before it. -/
def OffendsAt (source : Bytes) (o : ℕ) : Prop :=
  source[o]?.any (· ∉ alphabet) = true ∧ Even ((source.take o).count quote)

instance (source : Bytes) : DecidablePred source.OffendsAt := fun o =>
  inferInstanceAs (Decidable (source[o]?.any (· ∉ alphabet) = true ∧
    Even ((source.take o).count quote)))

/-- The offsets of the bytes that offend, each of them once. -/
def offences (source : Bytes) : List ℕ := (List.range source.length).filter (source.OffendsAt ·)

/-- The byte at an offset, in its place. -/
def placedAt (source : Bytes) (o : ℕ) : PlacedByte :=
  ⟨source.getD o 0, source.lineAt o, source.columnAt o⟩

end Bytes

namespace Pass

variable {source front mid rest : Bytes} {o : ℕ} {b : UInt8}

/-- The pass when it has come to an offset. -/
def upTo (source : Bytes) (o : ℕ) : Pass :=
  ⟨decide (Odd ((source.take o).count Bytes.quote)), source.lineAt o, source.columnAt o⟩

theorem upTo_zero (source : Bytes) : upTo source 0 = start := by
  simp [upTo, start, Bytes.lineAt, Bytes.columnAt, Bytes.breaks]

theorem inString_upTo_eq_false_iff :
    (upTo source o).inString = false ↔ Even ((source.take o).count Bytes.quote) := by
  rw [upTo, decide_eq_false_iff_not, Nat.not_odd_iff_even]

theorem inString_upTo_append (h : source = front ++ rest) (heven : Even (front.count Bytes.quote)) :
    (upTo source front.length).inString = false := by
  rwa [inString_upTo_eq_false_iff, h, List.take_left]

theorem count_take_succ (hb : source[o]? = some b) :
    (source.take (o + 1)).count Bytes.quote =
      (source.take o).count Bytes.quote + if b = Bytes.quote then 1 else 0 := by
  rw [List.take_add_one, hb, List.count_append, Option.toList_some, List.count_singleton]
  simp

/-- **One byte.** From one offset to the next the pass changes as lines, columns and the number of
quotes do. -/
theorem after_upTo (hb : source[o]? = some b) : (upTo source o).after b = upTo source (o + 1) := by
  have hbreaks : source.BreaksAt o ↔
      (upTo source o).inString = false ∧ Bytes.isLineBreak b = true := by
    rw [inString_upTo_eq_false_iff, Bytes.BreaksAt, hb, Option.any_some, and_comm]
  have hnext : upTo source (o + 1) =
      ⟨decide (Odd ((source.take o).count Bytes.quote + if b = Bytes.quote then 1 else 0)),
        source.lineAt (o + 1), source.columnAt (o + 1)⟩ := by
    rw [upTo, count_take_succ hb]
  rw [hnext, after]
  by_cases hquote : b = Bytes.quote
  · have hno : ¬ source.BreaksAt o := by
      rw [hbreaks, hquote]
      exact fun h => absurd h.2 (by decide)
    rw [if_pos hquote, if_pos hquote, lineAt_succ_of_not hno, columnAt_succ_of_not hno, mk.injEq]
    refine ⟨?_, rfl, rfl⟩
    simp only [upTo, Nat.odd_add_one, decide_not]
  · rw [if_neg hquote, if_neg hquote, Nat.add_zero]
    by_cases hbreak : (upTo source o).inString = false ∧ Bytes.isLineBreak b = true
    · have hyes := hbreaks.mpr hbreak
      rw [if_pos hbreak, lineAt_succ_of_break hyes, columnAt_succ_of_break hyes, mk.injEq]
      exact ⟨hbreak.1.symm, rfl, rfl⟩
    · have hno : ¬ source.BreaksAt o := fun h => hbreak (hbreaks.mp h)
      rw [if_neg hbreak, lineAt_succ_of_not hno, columnAt_succ_of_not hno]
      rfl

theorem report?_upTo (hb : source[o]? = some b) : (upTo source o).report? b =
    if source.OffendsAt o then some (source.placedAt o) else none := by
  have hoffends : ((upTo source o).inString = false ∧ b ∉ Bytes.alphabet) ↔ source.OffendsAt o := by
    rw [inString_upTo_eq_false_iff, Bytes.OffendsAt, hb, Option.any_some, decide_eq_true_iff,
      and_comm]
  have hplaced : source.placedAt o = ⟨b, source.lineAt o, source.columnAt o⟩ := by
    rw [Bytes.placedAt, List.getD_eq_getElem?_getD, hb]
    rfl
  rw [report?, hplaced]
  simp only [hoffends]
  rfl

/-- A source that goes on with a byte, with this byte counted to what is before. -/
theorem getElem?_of_split (h : source = front ++ (b :: mid ++ rest)) :
    source[front.length]? = some b ∧ source = (front ++ [b]) ++ (mid ++ rest) := by
  constructor
  · rw [h, List.getElem?_append_right le_rfl, Nat.sub_self]
    rfl
  · rw [h, List.append_assoc]
    rfl

theorem foldl_upTo (h : source = front ++ (mid ++ rest)) :
    mid.foldl after (upTo source front.length) = upTo source (front ++ mid).length := by
  induction mid generalizing front with
  | nil => rw [List.append_nil, List.foldl_nil]
  | cons b mid ih =>
    obtain ⟨hb, h'⟩ := getElem?_of_split h
    have := ih h'
    rw [List.append_assoc, List.singleton_append, List.length_append, List.length_singleton] at this
    rw [List.foldl_cons, after_upTo hb, this]

/-- **The pass reports the bytes that offend**, in their places and in their order. -/
theorem reports_upTo (h : source = front ++ (mid ++ rest)) :
    (upTo source front.length).reports mid =
      ((List.range' front.length mid.length).filter (source.OffendsAt ·)).map source.placedAt := by
  induction mid generalizing front with
  | nil => rfl
  | cons b mid ih =>
    obtain ⟨hb, h'⟩ := getElem?_of_split h
    have hlater := ih h'
    rw [List.length_append, List.length_singleton] at hlater
    rw [reports, after_upTo hb, hlater, report?_upTo hb, List.length_cons, List.range'_succ,
      List.filter_cons]
    by_cases hoffends : source.OffendsAt front.length
    · simp [hoffends]
    · simp [hoffends]

theorem reports_start (source : Bytes) :
    start.reports source = source.offences.map source.placedAt := by
  have hsource : source = [] ++ (source ++ []) := (List.append_nil source).symm
  have := reports_upTo hsource
  rwa [List.length_nil, upTo_zero, ← List.range_eq_range'] at this

end Pass

/-! ## Places in order -/

/-- The line is smaller, or it is the same and the column is smaller. -/
def PlacedByte.Precedes (p q : PlacedByte) : Prop :=
  p.line < q.line ∨ p.line = q.line ∧ p.column < q.column

/-- Further on in a source the places are later. -/
theorem placedAt_precedes (source : Bytes) {o o' : ℕ} (h : o < o') :
    (source.placedAt o).Precedes (source.placedAt o') := by
  have hstep : ∀ n, (source.placedAt n).Precedes (source.placedAt (n + 1)) := by
    intro n
    by_cases hbreak : source.BreaksAt n
    · exact .inl (lt_of_lt_of_eq (Nat.lt_succ_self _) (lineAt_succ_of_break hbreak).symm)
    · exact .inr ⟨(lineAt_succ_of_not hbreak).symm,
        lt_of_lt_of_eq (Nat.lt_succ_self _) (columnAt_succ_of_not hbreak).symm⟩
  induction h with
  | refl => exact hstep o
  | @step n _ ih =>
    show PlacedByte.Precedes _ (source.placedAt (n + 1))
    have := hstep n
    unfold PlacedByte.Precedes at ih this ⊢
    omega

/-- No two offsets share a position. -/
theorem Position.IsAt.unique {p : Position} {source : Bytes} {o o' : ℕ} (h : p.IsAt source o)
    (h' : p.IsAt source o') : o = o' := by
  have hne : ∀ {m n : ℕ}, m < n → source.lineAt m = source.lineAt n →
      source.columnAt m ≠ source.columnAt n := by
    intro m n hlt hline hcolumn
    rcases placedAt_precedes source hlt with hbefore | ⟨-, hbefore⟩
    · exact absurd hline (Nat.ne_of_lt hbefore)
    · exact absurd hcolumn (Nat.ne_of_lt hbefore)
  have hline : source.lineAt o = source.lineAt o' := h.1.symm.trans h'.1
  have hcolumn : source.columnAt o = source.columnAt o' := h.2.symm.trans h'.2
  rcases lt_trichotomy o o' with hlt | heq | hlt
  · exact absurd hcolumn (hne hlt hline)
  · exact heq
  · exact absurd hcolumn.symm (hne hlt hline.symm)

/-! ## The pass over all tokens -/

/-- Where a token starts, all string literals before it are closed. -/
theorem Segmented.even_count_quote {front later : List Segment} {s : Segment} {tail : Bytes}
    (h : Segmented (front ++ s :: later) tail) :
    Even ((Segment.join front s.gap).count Bytes.quote) := by
  induction front with
  | nil =>
    rw [Segment.join_nil, (h.gaps s List.mem_cons_self).count_quote]
    decide
  | cons t front ih =>
    obtain ⟨hgap, hrule, hlater⟩ := (segmented_cons_iff t (front ++ s :: later) tail).mp h
    have hsome : Segment.join (front ++ s :: later) tail ≠ [] := fun hnil =>
      List.append_ne_nil_of_right_ne_nil front (List.cons_ne_nil s later) (hlater.join_eq_nil hnil).1
    have hlexeme := hrule.even_count_quote.resolve_left fun hnone =>
      hsome (List.head?_eq_none_iff.mp hnone)
    rw [Segment.join_cons, List.count_append, List.count_append, hgap.count_quote, Nat.zero_add]
    exact hlexeme.add (ih hlater)

/-- **All tokens.** Over segments, from a place outside of string literals, the pass reports the
illegal ones among their tokens. -/
theorem Pass.reports_join {source before tail : Bytes} {segments : List Segment} {p : Position}
    (hp : p.IsAt source before.length) (hlength : source.Countable)
    (hsource : source = before ++ Segment.join segments tail) (h : Segmented segments tail)
    (heven : Even (before.count Bytes.quote) ∨ Segment.join segments tail = []) :
    (upTo source before.length).reports (Segment.join segments tail) =
      ((tokensOf p segments).filterMap Token.illegal?).map IllegalByte.placed := by
  induction segments generalizing before p with
  | nil =>
    rw [Segment.join_nil]
    exact reports_of_alphabet _ fun b hb => Bytes.mem_alphabet_of_isLayout (h.ends b hb)
  | cons s later ih =>
    obtain ⟨hgap, hrule, hlater⟩ := (segmented_cons_iff s later tail).mp h
    have heven := heven.resolve_right fun hnil => List.cons_ne_nil _ _ (h.join_eq_nil hnil).1
    rw [Segment.join_cons] at hsource
    obtain ⟨hthrough, hpast, hquotes⟩ := hp.past hlength hsource hgap hrule heven
    have hlexeme : source = before ++ s.gap ++ (s.lexeme ++ Segment.join later tail) := by
      rw [hsource, List.append_assoc]
    have hbytes : before ++ s.gap ++ s.lexeme = before ++ s.bytes := List.append_assoc _ _ _
    have hrest : source = before ++ s.bytes ++ Segment.join later tail := by
      rw [hlexeme, ← List.append_assoc, hbytes]
    have hnone : (upTo source before.length).reports s.gap = [] :=
      reports_of_alphabet _ fun b hb => Bytes.mem_alphabet_of_isLayout (hgap b hb)
    have houtside : (upTo source (before ++ s.gap).length).inString = false := by
      refine inString_upTo_append hlexeme ?_
      rwa [List.count_append, hgap.count_quote]
    have htoken : (upTo source (before ++ s.gap).length).reports s.lexeme =
        ((Token.illegal? ⟨s.kind, p.through s.gap⟩).map IllegalByte.placed).toList := by
      rw [hrule.reports_eq houtside, placed_illegal?, hthrough.1, hthrough.2]
      rfl
    rw [Segment.join_cons, reports_append, hnone, foldl_upTo hsource, reports_append, htoken,
      foldl_upTo hlexeme, hbytes, ih hpast hrest hlater hquotes, tokensOf, List.filterMap_cons]
    cases Token.illegal? ⟨s.kind, p.through s.gap⟩ <;> rfl

/-- The illegal tokens of a source that can be counted in 32 bits are the reports of the pass. -/
theorem placed_illegal_tokenize {source : Bytes} (hlength : source.Countable) :
    ((tokenize source).filterMap Token.illegal?).map IllegalByte.placed =
      Pass.start.reports source := by
  obtain ⟨segments, tail, hsource, hcut⟩ := exists_segmented source
  have heven : Even (([] : Bytes).count Bytes.quote) := by decide
  have hjoin := Pass.reports_join (Position.isAt_start source) hlength hsource hcut (.inl heven)
  have hend : Token.illegal? (endFrom .start tail segments) = none := rfl
  rw [List.length_nil, Pass.upTo_zero, ← hsource] at hjoin
  rw [hjoin, hsource, tokenize_join hcut, List.filterMap_append, List.filterMap_cons, hend,
    List.filterMap_nil, List.append_nil]

/-- Over a string literal the pass reports nothing, so no byte of it offends. -/
theorem TokenRule.not_offendsAt {source front lexeme rest body : Bytes} {next : Option UInt8}
    (h : TokenRule lexeme next (.string body)) (hsource : source = front ++ (lexeme ++ rest))
    (heven : Even (front.count Bytes.quote)) {o : ℕ} (hfirst : front.length ≤ o)
    (hlast : o < (front ++ lexeme).length) : ¬ source.OffendsAt o := by
  intro hoffends
  have hreports := Pass.reports_upTo hsource
  rw [h.reports_eq (Pass.inString_upTo_append hsource heven)] at hreports
  have hmem : o ∈ (List.range' front.length lexeme.length).filter (source.OffendsAt ·) := by
    rw [List.length_append] at hlast
    exact List.mem_filter.mpr ⟨List.mem_range'_1.mpr ⟨hfirst, hlast⟩, decide_eq_true hoffends⟩
  rw [List.map_eq_nil_iff.mp hreports.symm] at hmem
  cases hmem

/-- No byte in the lexeme of a string literal offends. -/
theorem Segmented.not_offendsAt_of_string {front later : List Segment} {s : Segment} {tail : Bytes}
    (h : Segmented (front ++ s :: later) tail) {body : Bytes} (hkind : s.kind = .string body) {o : ℕ}
    (hfirst : (Segment.join front s.gap).length ≤ o)
    (hlast : o < (Segment.join (front ++ [s]) []).length) :
    ¬ (Segment.join (front ++ s :: later) tail).OffendsAt o := by
  have hjoin : ∀ later tail, Segment.join (front ++ s :: later) tail =
      Segment.join front s.gap ++ (s.lexeme ++ Segment.join later tail) := by
    intro later tail
    rw [Segment.join_append_eq_append, Segment.join_cons, Segment.join_eq_append front s.gap,
      List.append_assoc]
  have hrule := h.rules front s later rfl
  rw [hkind] at hrule
  rw [hjoin, Segment.join_nil, List.append_nil] at hlast
  exact hrule.not_offendsAt (hjoin later tail) h.even_count_quote hfirst hlast

/-- Each report is that of a byte that offends. -/
theorem exists_offendsAt_of_mem {source : Bytes} (hlength : source.Countable) {e : IllegalByte}
    (he : e ∈ (tokenize source).filterMap Token.illegal?) :
    ∃ o, source.OffendsAt o ∧ e.position.IsAt source o := by
  have hreports := (placed_illegal_tokenize hlength).trans (Pass.reports_start source)
  obtain ⟨o, ho, hplaced⟩ := List.mem_map.mp (hreports ▸ List.mem_map_of_mem he)
  exact ⟨o, of_decide_eq_true (List.mem_filter.mp ho).2,
    (congrArg PlacedByte.line hplaced).symm, (congrArg PlacedByte.column hplaced).symm⟩

/-- **Illegal bytes are found by a pass that knows no tokens.** The listing of a source of fewer than
2^32 - 1 bytes is summed up with the reports of the pass. These are the bytes that offend, each of
them once and in its place, and later ones have later positions. With the source cut by the grammar,
no byte in the lexeme of a string literal is among them. -/
theorem illegal_print_eq_reports (source : Bytes) (hlength : source.length < 2 ^ 32 - 1) :
    ∃ summary c, (Listing.print source).run .unlimited = .ok summary c ∧
      summary.illegal.map IllegalByte.placed = Pass.start.reports source ∧
      summary.illegal.map IllegalByte.placed = source.offences.map source.placedAt ∧
      summary.illegal.Pairwise (fun e later => e.position < later.position) ∧
      ∀ front s later tail body, source = Segment.join (front ++ s :: later) tail →
        Segmented (front ++ s :: later) tail → s.kind = .string body →
        ∀ o, (Segment.join front s.gap).length ≤ o →
          o < (Segment.join (front ++ [s]) []).length →
          ∀ e ∈ summary.illegal, ¬ e.position.IsAt source o := by
  obtain ⟨c, hrun, -⟩ := Listing.exists_run_print source #[]
  have hreports := placed_illegal_tokenize hlength
  have hoffences := hreports.trans (Pass.reports_start source)
  refine ⟨_, c, hrun, hreports, hoffences, ?_, ?_⟩
  · have hsorted : (source.offences.map source.placedAt).Pairwise PlacedByte.Precedes :=
      List.pairwise_map.mpr
        ((List.pairwise_lt_range.filter _).imp fun h => placedAt_precedes source h)
    rw [← hoffences, List.pairwise_map] at hsorted
    exact hsorted.imp fun h => (Position.lt_iff _ _).mpr h
  · intro front s later tail body hsource hcut hkind o hfirst hlast e he hat
    -- No other offset than that of the byte reported has the position of the report.
    obtain ⟨o', hoffends, hsame⟩ := exists_offendsAt_of_mem hlength he
    obtain rfl := hat.unique hsame
    rw [hsource] at hoffends
    exact hcut.not_offendsAt_of_string hkind hfirst hlast hoffends

/-- Only the first and the last of four bytes outside the alphabet are reported: the others are in a
literal that goes on over a line end, and in one that is not closed. -/
theorem illegal_print_outside_strings :
    let source := Bytes.ofString "@\"#\n\"\n" ++ [0xff] ++ Bytes.ofString "\"@"
    source.length < 2 ^ 32 - 1 ∧
      ∃ summary c, (Listing.print source).run .unlimited = .ok summary c ∧
        summary.illegal.map IllegalByte.placed = [⟨0x40, 1, 1⟩, ⟨0xff, 2, 1⟩] := by
  intro source
  have hlength : source.length < 2 ^ 32 - 1 := by decide
  obtain ⟨summary, c, hrun, hreports, -⟩ := illegal_print_eq_reports source hlength
  exact ⟨hlength, summary, c, hrun, hreports.trans (by decide)⟩

end Lexing
