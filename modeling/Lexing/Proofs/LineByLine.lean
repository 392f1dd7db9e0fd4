import Lexing.Proofs.Place
import Lexing.Proofs.Resumption
import Lexing.Proofs.Lines

/-!
# Scanning line by line

A session scans every line as a source of its own. It finds the tokens that are found in the whole
input, unless a string literal goes on over the end of a line. No other token holds a line feed, and
behind a line feed every token stands where it stands in its own line, some lines further down.

Results:

* `Source.readLines_eq`: reading line by line takes the lines of the input.
* `Segmented.exists_cut`: a line feed that is in no token cuts the segments of a source in two.
* `placedTokens_append_lineFeed`: the tokens of a line, and then those of the lines after it, counted
  on from there.
* `linewise_eq_placedTokens`: line by line, the tokens are those of the whole source.
-/

namespace Lexing

/-! ## Reading line by line -/

/-- The lines that a source is read by, up to its end or its first fault. -/
def Source.readLines (input : Source) : List Bytes :=
  match _h : input.readLine with
  | .line text later => text :: readLines later
  | .ended | .failed _ => []
termination_by input.content.length
decreasing_by exact Source.length_content_lt_of_readLine _h

/-- A source without a fault is read by the lines of its content. -/
theorem Source.readLines_eq {input : Source} (hwhole : input.fault? = none) :
    input.readLines = input.content.lines := by
  fun_induction readLines input with
  | case1 input text later hline ih =>
    have htakes := takes_readLine input
    rw [hline] at htakes
    obtain ⟨hlines, hfault, -⟩ := htakes
    rw [hwhole, eq_comm, delay, Option.map_eq_none_iff] at hfault
    rw [ih hfault, hlines]
  | case2 input hended =>
    have htakes := takes_readLine input
    rw [hended] at htakes
    rw [htakes.1, Bytes.lines]
  | case3 input fault hfailed =>
    have htakes := takes_readLine input
    rw [hfailed] at htakes
    obtain ⟨offset, hfault, -⟩ := htakes
    rw [hwhole] at hfault
    cases hfault

/-! ## Tokens that hold no line feed -/

/-- The bodies of string literals are the only place for a line feed in a token. -/
theorem TokenRule.lineFeed_notMem {lexeme : Bytes} {next : Option UInt8} {kind : TokenKind}
    (h : TokenRule lexeme next kind)
    (hbody : ∀ body, kind = .string body → Bytes.lineFeed ∉ body) : Bytes.lineFeed ∉ lexeme := by
  cases h with
  | keyword k run => exact fun hmem => absurd (run.all _ hmem) (by decide)
  | identifier run _ => exact fun hmem => absurd (run.all _ hmem) (by decide)
  | integer run => exact fun hmem => absurd (run.all _ hmem) (by decide)
  | @string body _ _ =>
    have := hbody body rfl
    simpa [this] using (by decide : Bytes.lineFeed ≠ Bytes.quote)
  | @openString body _ =>
    have := hbody body rfl
    simpa [this] using (by decide : Bytes.lineFeed ≠ Bytes.quote)
  | equal => decide
  | notEqual => decide
  | symbol s => cases s <;> decide
  | illegal hb =>
    rw [List.mem_singleton]
    rintro rfl
    exact absurd hb.1 (by decide)

/-! ## Cutting at a line feed -/

theorem Position.through_append_lineFeed (p : Position) (gap : Bytes) :
    p.through (gap ++ [Bytes.lineFeed]) = (p.through gap).nextLine := p.through_append gap _

namespace Bytes

/-- Bytes without a line feed lie before every line feed of a source that begins with them. -/
theorem exists_append_of_lineFeed_notMem {bytes behind front rest : Bytes}
    (hbytes : lineFeed ∉ bytes) (h : bytes ++ behind = front ++ lineFeed :: rest) :
    ∃ more, front = bytes ++ more ∧ behind = more ++ lineFeed :: rest := by
  rcases List.append_eq_append_iff.mp h with ⟨more, hfront, hbehind⟩ | ⟨more, hsplit, hmore⟩
  · exact ⟨more, hfront, hbehind⟩
  · cases more with
    | nil =>
      rw [List.append_nil] at hsplit
      rw [List.nil_append] at hmore
      exact ⟨[], by rw [hsplit, List.append_nil], hmore.symm⟩
    | cons b more =>
      obtain ⟨rfl, -⟩ := List.cons.inj hmore
      exact absurd (hsplit ▸ List.mem_append_right _ List.mem_cons_self) hbytes

theorem append_lineFeed_inj {front front' rest rest' : Bytes} (h : lineFeed ∉ front)
    (h' : lineFeed ∉ front') (heq : front ++ lineFeed :: rest = front' ++ lineFeed :: rest') :
    front = front' ∧ rest = rest' := by
  have hlines := congrArg lines heq
  rw [lines_append_lineFeed h, lines_append_lineFeed h'] at hlines
  obtain rfl : front = front' := List.append_cancel_right (List.cons.inj hlines).1
  exact ⟨rfl, (List.cons.inj (List.append_cancel_left heq)).2⟩

end Bytes

/-- **A line feed in no token cuts a source in two.** The segments before it and those behind it are
    segments of their own sources, and behind it the tokens start on a new line. -/
theorem Segmented.exists_cut {segments : List Segment} {tail front rest : Bytes}
    (h : Segmented segments tail) (hlexemes : ∀ s ∈ segments, Bytes.lineFeed ∉ s.lexeme)
    (hfront : Bytes.lineFeed ∉ front)
    (hjoin : Segment.join segments tail = front ++ Bytes.lineFeed :: rest) :
    ∃ before gap after ending,
      Segmented before (gap ++ [Bytes.lineFeed]) ∧ Segment.join before gap = front ∧
      Segmented after ending ∧ Segment.join after ending = rest ∧
      ∀ p, tokensOf p segments =
        tokensOf p before ++ tokensOf ((before.foldl Position.past p).through gap).nextLine after := by
  induction segments generalizing front with
  | nil =>
    have htail : (front ++ [Bytes.lineFeed] ++ rest).AllLayout := by
      rw [← List.append_cons, ← hjoin]
      exact h.ends
    obtain ⟨hline, hrest⟩ := List.forall_mem_append.mp htail
    refine ⟨[], front, [], rest, (segmented_nil_iff _).mpr hline, rfl,
      (segmented_nil_iff _).mpr hrest, rfl, fun p => rfl⟩
  | cons s later ih =>
    obtain ⟨hgap, hrule, hlater⟩ := (segmented_cons_iff s later tail).mp h
    obtain ⟨hlexeme, hlexemes⟩ := List.forall_mem_cons.mp hlexemes
    rw [Segment.join_cons] at hjoin
    by_cases hmem : Bytes.lineFeed ∈ s.gap
    · -- The cut is in the gap: what is left of the gap stays with the token.
      obtain ⟨gap, more, hsplit, hfree⟩ := List.eq_append_cons_of_mem hmem
      rw [hsplit, List.append_assoc, List.cons_append] at hjoin
      obtain ⟨rfl, rfl⟩ := Bytes.append_lineFeed_inj hfree hfront hjoin
      rw [hsplit, List.append_cons] at hgap
      obtain ⟨hline, hmore⟩ := List.forall_mem_append.mp hgap
      refine ⟨[], gap, ⟨more, s.lexeme, s.kind⟩ :: later, tail, (segmented_nil_iff _).mpr hline, rfl,
        (segmented_cons_iff _ later tail).mpr ⟨hmore, hrule, hlater⟩, Segment.join_cons _ later tail,
        fun p => ?_⟩
      have hthrough : p.through s.gap = (p.through gap).nextLine.through more := by
        rw [hsplit, Position.through_append]
        rfl
      simp only [tokensOf, Position.past, hthrough]
      rfl
    · -- The cut is behind the token.
      have hbytes : Bytes.lineFeed ∉ s.bytes := fun h =>
        (List.mem_append.mp h).elim hmem hlexeme
      rw [← List.append_assoc] at hjoin
      obtain ⟨front', rfl, hjoin'⟩ := Bytes.exists_append_of_lineFeed_notMem hbytes hjoin
      have hfront' : Bytes.lineFeed ∉ front' := fun h => hfront (List.mem_append_right _ h)
      obtain ⟨before, gap, after, ending, hbefore, hline, hafter, hrest, htokens⟩ :=
        ih hlater hlexemes hfront' hjoin'
      have hnext : (Segment.join before (gap ++ [Bytes.lineFeed])).head? =
          (Segment.join later tail).head? := by
        rw [hjoin', ← hline, Segment.join_eq_append, Segment.join_eq_append before gap,
          ← List.append_assoc]
        cases Segment.join before [] ++ gap <;> rfl
      refine ⟨s :: before, gap, after, ending,
        (segmented_cons_iff s before _).mpr ⟨hgap, hnext ▸ hrule, hbefore⟩, ?_, hafter, hrest,
        fun p => ?_⟩
      · rw [Segment.join_cons, hline, Segment.bytes, List.append_assoc]
      · rw [tokensOf, htokens (p.past s)]
        rfl

/-! ## The tokens of a line and of what follows it -/

/-- The tokens of a source before the end of input, in their places. -/
def placedTokens (source : Bytes) : List PlacedToken :=
  ((tokenize source).filter fun t => !t.isEnd).map Token.placed

theorem placedTokens_join {segments : List Segment} {tail : Bytes} (h : Segmented segments tail) :
    placedTokens (Segment.join segments tail) = (tokensOf .start segments).map Token.placed := by
  have hall : ∀ t ∈ tokensOf .start segments, (!t.isEnd) = true := by
    intro t ht
    rw [isEnd_of_mem_tokensOf h ht]
    rfl
  rw [placedTokens, tokenize_join h, List.filter_append, List.filter_eq_self.mpr hall]
  exact congrArg _ (List.append_nil _)

theorem string_mem_tokenize_iff {source body : Bytes} :
    TokenKind.string body ∈ (tokenize source).map Token.kind ↔
      TokenKind.string body ∈ (placedTokens source).map PlacedToken.kind := by
  simp only [placedTokens, List.map_map, List.mem_map, List.mem_filter]
  constructor
  · rintro ⟨t, ht, hkind⟩
    have hend : t.isEnd = false := by
      rw [Token.isEnd_eq_false_iff, hkind]
      exact TokenKind.noConfusion
    exact ⟨t, ⟨ht, by rw [hend]; rfl⟩, hkind⟩
  · rintro ⟨t, ⟨ht, -⟩, hkind⟩
    exact ⟨t, ht, hkind⟩

/-- The number of line breaks outside string literals. -/
def Bytes.breakCount (source : Bytes) : ℕ := (source.breaks source.length).card

/-- The token some lines further down. -/
def PlacedToken.below (count : ℕ) (t : PlacedToken) : PlacedToken :=
  { t with line := t.line + count }

theorem PlacedToken.below_below (m n : ℕ) (t : PlacedToken) : (t.below m).below n = t.below (n + m) := by
  simp only [below, Nat.add_assoc, Nat.add_comm m]

theorem PlacedToken.countedFrom_one {t : PlacedToken} (count : ℕ) :
    t.countedFrom (1 + count) 1 = t.below count := by
  rw [countedFrom, below]
  split
  next h => simp [h, Nat.add_comm]
  next h =>
    rw [mk.injEq]
    exact ⟨rfl, by omega, rfl⟩

/-- In a source that can be counted in 32 bits, segments that begin at an origin have the tokens that
they have by themselves, counted on. -/
theorem placed_tokensOf {m : ℕ} {origin : Position} (ho : origin.Reached m) {segments : List Segment}
    {tail : Bytes} (hlength : m + (Segment.join segments tail).length < 2 ^ 32 - 1) :
    (tokensOf origin segments).map Token.placed = ((tokensOf .start segments).map Token.placed).map
      (.countedFrom origin.line.toNat origin.column.toNat) := by
  have hshift := tokensOf_countedFrom ho Position.reached_start segments
  rw [Position.countedFrom_start] at hshift
  rw [hshift, List.map_map, List.map_map]
  refine List.map_congr_left fun t ht => ?_
  have hreached := reached_of_mem_tokensOf Position.reached_start ht tail
  rw [Nat.zero_add] at hreached
  exact placed_countedFrom ho hreached hlength

/-- Behind the line feed of a line, the position is the first one below all breaks of the line. -/
theorem toNat_line_afterLine {before : List Segment} {gap : Bytes}
    (h : Segmented before (gap ++ [Bytes.lineFeed]))
    (hlength : (Segment.join before (gap ++ [Bytes.lineFeed])).Countable) :
    ((before.foldl Position.past .start).through gap).nextLine.line.toNat =
      1 + (Segment.join before (gap ++ [Bytes.lineFeed])).breakCount := by
  have hall : before = before ++ [] := (List.append_nil before).symm
  have hsource : Segment.join before (gap ++ [Bytes.lineFeed]) =
      [] ++ Segment.join (before ++ []) (gap ++ [Bytes.lineFeed]) := by
    rw [← hall]
    rfl
  have hstart : Position.start.IsAt (Segment.join before (gap ++ [Bytes.lineFeed]))
      ([] : Bytes).length := Position.isAt_start _
  obtain ⟨hplace, hquotes⟩ := hstart.foldl_past hlength hsource (hall ▸ h) (.inl (by decide))
  have heven := hquotes.resolve_right
    (List.append_ne_nil_of_right_ne_nil gap (List.cons_ne_nil Bytes.lineFeed []))
  have hline : Segment.join before (gap ++ [Bytes.lineFeed]) =
      [] ++ Segment.join before [] ++ (gap ++ [Bytes.lineFeed] ++ []) := by
    rw [List.append_nil, List.nil_append]
    exact Segment.join_eq_append _ _
  have hend := (hplace.through hlength hline h.ends heven).1
  rw [List.nil_append, ← Segment.join_eq_append, Position.through_append_lineFeed] at hend
  exact hend

/-- **A line and what follows it.** The tokens of a source with a finished first line are those of
    this line and those of the lines after it, further down by the breaks of the line. -/
theorem placedTokens_append_lineFeed {front rest : Bytes} (hfront : Bytes.lineFeed ∉ front)
    (hlength : (front ++ Bytes.lineFeed :: rest).length < 2 ^ 32 - 1)
    (hstrings : ∀ body, TokenKind.string body ∈
      (tokenize (front ++ Bytes.lineFeed :: rest)).map Token.kind → Bytes.lineFeed ∉ body) :
    placedTokens (front ++ Bytes.lineFeed :: rest) =
      placedTokens (front ++ [Bytes.lineFeed]) ++
        (placedTokens rest).map (.below (front ++ [Bytes.lineFeed]).breakCount) := by
  obtain ⟨segments, tail, hjoin, hcut⟩ := exists_segmented (front ++ Bytes.lineFeed :: rest)
  have hlexemes : ∀ s ∈ segments, Bytes.lineFeed ∉ s.lexeme := by
    intro s hs
    obtain ⟨before, later, hsplit⟩ := List.append_of_mem hs
    refine (hcut.rules before s later hsplit).lineFeed_notMem fun body hbody => hstrings body ?_
    rw [hjoin, tokenize_join hcut, List.map_append, kind_tokensOf, ← hbody]
    exact List.mem_append_left _ (List.mem_map_of_mem hs)
  obtain ⟨before, gap, after, ending, hbefore, rfl, hafter, rfl, htokens⟩ :=
    hcut.exists_cut hlexemes hfront hjoin.symm
  have hline : Segment.join before gap ++ [Bytes.lineFeed] =
      Segment.join before (gap ++ [Bytes.lineFeed]) := by
    rw [Segment.join_eq_append, List.append_assoc, ← Segment.join_eq_append]
  rw [List.append_cons, hline, List.length_append] at hlength
  have hcount := toNat_line_afterLine hbefore (lt_of_le_of_lt (Nat.le_add_right _ _) hlength)
  have horigin := reached_endFrom Position.reached_start before (gap ++ [Bytes.lineFeed])
  rw [Nat.zero_add, endFrom, Position.through_append_lineFeed] at horigin
  rw [hline, hjoin, placedTokens_join hcut, placedTokens_join hbefore, placedTokens_join hafter,
    htokens, List.map_append, placed_tokensOf horigin hlength, hcount]
  congr 2
  funext t
  exact PlacedToken.countedFrom_one _

/-! ## All lines -/

/-- The tokens of lines that are scanned one by one, each of them below the breaks of the lines before
it, of which there are `count` before the first. -/
def linewise (count : ℕ) : List Bytes → List PlacedToken
  | [] => []
  | line :: later => (placedTokens line).map (.below count) ++ linewise (count + line.breakCount) later

theorem linewise_lines (count : ℕ) {source : Bytes} (hlength : source.length < 2 ^ 32 - 1)
    (hstrings : ∀ body, TokenKind.string body ∈ (tokenize source).map Token.kind →
      Bytes.lineFeed ∉ body) :
    linewise count source.lines = (placedTokens source).map (.below count) := by
  induction source using Bytes.lines_induction generalizing count with
  | nil => rfl
  | unfinished line hline hne =>
    rw [Bytes.lines_of_notMem hline hne, linewise, linewise, List.append_nil]
  | finished front rest hfront ih =>
    have hsplit := placedTokens_append_lineFeed hfront hlength hstrings
    have hlength' : rest.length < 2 ^ 32 - 1 := by
      rw [List.length_append, List.length_cons] at hlength
      omega
    have hstrings' : ∀ body, TokenKind.string body ∈ (tokenize rest).map Token.kind →
        Bytes.lineFeed ∉ body := by
      intro body hbody
      apply hstrings body
      rw [string_mem_tokenize_iff, hsplit, List.map_append, List.map_map]
      exact List.mem_append_right _ (string_mem_tokenize_iff.mp hbody)
    rw [Bytes.lines_append_lineFeed hfront, linewise, ih _ hlength' hstrings', hsplit,
      List.map_append, List.map_map]
    congr 2
    funext t
    exact (t.below_below _ _).symm

/-- **Line by line, the tokens are those of the whole source.** In a source of fewer than 2^32 - 1
    bytes with no line feed in a string literal, the tokens of its lines, each below the breaks of
    the lines before its own, are the tokens of the source in their places. The lines are what the
    source is read by, in whatever chunks it arrives. -/
theorem linewise_eq_placedTokens (source : Bytes) (hlength : source.length < 2 ^ 32 - 1)
    (hstrings : ∀ body, TokenKind.string body ∈ (tokenize source).map Token.kind →
      Bytes.lineFeed ∉ body) :
    (∀ input : Source, input.content = source → input.fault? = none →
      input.readLines = source.lines) ∧
    linewise 0 source.lines = placedTokens source := by
  constructor
  · rintro input rfl hwhole
    exact Source.readLines_eq hwhole
  · rw [linewise_lines 0 hlength hstrings]
    exact List.map_id _

/-- The carriage return outside the string is a line, the one inside it is not, and the line end cuts
the two equals signs apart. The last string is not closed. -/
theorem linewise_cut_operator :
    let source := Bytes.ofString "\"\r\" =\n=\r1\n\"x"
    source.length < 2 ^ 32 - 1 ∧
      (∀ body, TokenKind.string body ∈ (tokenize source).map Token.kind → Bytes.lineFeed ∉ body) ∧
      Source.readLines [.bytes (source.take 4), .bytes (source.drop 4)] =
        [.ofString "\"\r\" =\n", .ofString "=\r1\n", .ofString "\"x"] ∧
      linewise 0 source.lines =
        [⟨.string [Bytes.carriageReturn], 1, 1⟩, ⟨.symbol .assign, 1, 5⟩, ⟨.symbol .assign, 2, 1⟩,
          ⟨.integer 1, 3, 1⟩, ⟨.string (.ofString "x"), 4, 1⟩] := by
  intro source
  have hlength : source.length < 2 ^ 32 - 1 := by decide
  have hkinds : (tokenize source).map Token.kind =
      [.string [Bytes.carriageReturn], .symbol .assign, .symbol .assign, .integer 1,
        .string (.ofString "x"), .endOfInput] := by decide
  have hstrings : ∀ body, TokenKind.string body ∈ (tokenize source).map Token.kind →
      Bytes.lineFeed ∉ body := by
    intro body hbody
    simp only [hkinds, List.mem_cons, TokenKind.string.injEq, reduceCtorEq, List.not_mem_nil,
      or_false, false_or] at hbody
    rcases hbody with rfl | rfl <;> decide
  obtain ⟨hlines, htokens⟩ := linewise_eq_placedTokens source hlength hstrings
  exact ⟨hlength, hstrings, (hlines _ (by decide) (by decide)).trans (by decide),
    htokens.trans (by decide)⟩

end Lexing
