import Lexing.Proofs.Place
import Lexing.Proofs.Resumption
import Lexing.Proofs.Spelling

/-!
# Tokens in the middle of a source

A source that leaves no string literal open keeps its tokens when it goes on, unless the first byte
that follows runs into its last token. So a lexeme may be put into the middle of a source: the
tokens before it are those of the bytes before it, and the tokens behind it are those of the bytes
behind it, counted on from there. In particular the body of a string literal tells nothing to the
tokens around it but its length.

Results:

* `TokenRule.replace_next`: a token that closes its literal stays what it is before any byte that
  does not go on with it.
* `Segmented.append`: the segments of a source and of what follows it are the segments of both.
* `tokenize_append_lexeme`: the tokens of a source with a lexeme in the middle.
* `tokenize_string_opaque`: sources that differ in the body of a string literal differ in its token.
-/

namespace Lexing

/-! ## Bytes that stick together -/

/-- Two bytes in a row that may belong to one token outside of string literals. -/
def Bytes.Sticks (a b : UInt8) : Prop :=
  (isLetter a = true ∧ isLetter b = true) ∨ (isDigit a = true ∧ isDigit b = true) ∨
    (a = equalsSign ∨ a = Symbol.bang.byte) ∧ b = equalsSign

theorem Bytes.not_sticks_quote (a : UInt8) : ¬ Sticks a quote := by
  rintro (⟨-, h⟩ | ⟨-, h⟩ | ⟨-, h⟩) <;> exact absurd h (by decide)

/-- A byte that goes on with a token sticks to its last byte. -/
theorem TokenRule.exists_sticks {lexeme : Bytes} {next : Option UInt8} {kind : TokenKind}
    (h : TokenRule lexeme next kind) {b : UInt8} (hb : kind.goesOn (ByteClass.of b) = true) :
    ∃ a ∈ lexeme.getLast?, Bytes.Sticks a b := by
  have hlast : ∀ {p : UInt8 → Bool}, Bytes.IsRun p lexeme next →
      ∃ a ∈ lexeme.getLast?, p a = true := fun run =>
    ⟨_, List.getLast?_eq_some_getLast run.ne_nil, run.all _ (List.getLast_mem run.ne_nil)⟩
  cases h with
  | keyword k run =>
    obtain ⟨a, ha, hletter⟩ := hlast run
    exact ⟨a, ha, .inl ⟨hletter, (ByteClass.of_eq_letter_iff b).mp (eq_of_beq hb)⟩⟩
  | identifier run _ =>
    obtain ⟨a, ha, hletter⟩ := hlast run
    exact ⟨a, ha, .inl ⟨hletter, (ByteClass.of_eq_letter_iff b).mp (eq_of_beq hb)⟩⟩
  | integer run =>
    obtain ⟨a, ha, hdigit⟩ := hlast run
    exact ⟨a, ha, .inr (.inl ⟨hdigit, (ByteClass.of_eq_digit_iff b).mp (eq_of_beq hb)⟩)⟩
  | symbol s =>
    obtain ⟨hs, hclass⟩ := Bool.and_eq_true_iff.mp hb
    have hequals : b = Bytes.equalsSign :=
      ((ByteClass.of_eq_symbol_iff b .assign).mp (eq_of_beq hclass)).symm
    refine ⟨s.byte, rfl, .inr (.inr ⟨?_, hequals⟩)⟩
    exact (Bool.or_eq_true_iff.mp hs).imp (fun h => by rw [eq_of_beq h]; rfl)
      (fun h => by rw [eq_of_beq h])
  | string _ | openString _ | equal | notEqual | illegal _ => cases hb

/-! ## What follows a token -/

theorem Bytes.number_modEq (digits : Bytes) :
    (digits.number : ℤ) ≡ (Int64.ofNat digits.number).toInt [ZMOD 2 ^ 64] := by
  rw [Int64.toInt_ofNat']
  exact (Int.bmod_emod).symm

/-- A token that closes its literal is a spelling of its kind. -/
theorem TokenRule.spells {lexeme : Bytes} {next : Option UInt8} {kind : TokenKind}
    (h : TokenRule lexeme next kind) (heven : Even (lexeme.count Bytes.quote)) :
    Spells kind lexeme := by
  cases h with
  | keyword k _ => exact .keyword k
  | identifier _ _ => exact .identifier _
  | integer run => exact .integer _ _ run.ne_nil run.all (Bytes.number_modEq _)
  | string _ => exact .string _
  | openString hbody =>
    rw [List.count_cons_self, List.count_eq_zero.mpr hbody] at heven
    exact absurd heven (by decide)
  | equal => exact .equal
  | notEqual => exact .notEqual
  | symbol s =>
    rw [← s.ofString_text]
    exact .symbol s
  | illegal _ => exact .illegal _

/-- **A token does not depend on what follows it**, if it closes its literal and nothing goes on
with it. -/
theorem TokenRule.replace_next {lexeme : Bytes} {next next' : Option UInt8} {kind : TokenKind}
    (h : TokenRule lexeme next kind) (heven : Even (lexeme.count Bytes.quote))
    (hnext : ∀ a ∈ lexeme.getLast?, ∀ b ∈ next', ¬ Bytes.Sticks a b) :
    TokenRule lexeme next' kind := by
  refine tokenRule_of_spells (h.spells heven) h.wellFormed fun b hb => ?_
  rw [← Bool.not_eq_true]
  intro hgoes
  obtain ⟨a, ha, hsticks⟩ := h.exists_sticks hgoes
  exact hnext a ha b hb hsticks

/-! ## Segments in a row -/

/-- If a source has an even number of quotes, so has each token and what follows it. -/
theorem Segmented.even_of_cons {s : Segment} {later : List Segment} {tail : Bytes}
    (h : Segmented (s :: later) tail)
    (heven : Even ((Segment.join (s :: later) tail).count Bytes.quote)) :
    Even (s.lexeme.count Bytes.quote) ∧ Even ((Segment.join later tail).count Bytes.quote) := by
  obtain ⟨hgap, hrule, -⟩ := (segmented_cons_iff s later tail).mp h
  rw [Segment.join_cons, List.count_append, List.count_append, hgap.count_quote, Nat.zero_add,
    Nat.even_add] at heven
  rcases hrule.even_count_quote with hnone | hlexeme
  · have hbehind : Even ((Segment.join later tail).count Bytes.quote) := by
      rw [List.head?_eq_none_iff.mp hnone]
      decide
    exact ⟨heven.mpr hbehind, hbehind⟩
  · exact ⟨hlexeme, heven.mp hlexeme⟩

/-- **Segments in a row.** A source that leaves no literal open, and bytes that do not stick to it:
the segments of both are those of the source, and those of its last layout and what follows. -/
theorem Segmented.append {segments others : List Segment} {tail ending rest : Bytes}
    (h : Segmented segments tail) (hothers : Segmented others ending)
    (hjoin : Segment.join others ending = tail ++ rest)
    (heven : Even ((Segment.join segments tail).count Bytes.quote))
    (hapart : ∀ a ∈ (Segment.join segments tail).getLast?, ∀ b ∈ rest.head?,
      ¬ Bytes.Sticks a b) : Segmented (segments ++ others) ending := by
  induction segments with
  | nil => exact hothers
  | cons s later ih =>
    obtain ⟨hgap, hrule, hlater⟩ := (segmented_cons_iff s later tail).mp h
    obtain ⟨hlexeme, hbehind⟩ := h.even_of_cons heven
    have hsource : Segment.join (s :: later) tail =
        s.gap ++ s.lexeme ++ Segment.join later tail := by
      rw [Segment.join_cons, List.append_assoc]
    have hfollows : Segment.join (later ++ others) ending = Segment.join later tail ++ rest := by
      rw [Segment.join_append_eq_append, hjoin, ← List.append_assoc, ← Segment.join_eq_append]
    rw [hsource, List.getLast?_append] at hapart
    refine (segmented_cons_iff s (later ++ others) ending).mpr ⟨hgap, ?_, ih hlater hbehind ?_⟩
    · rw [hfollows]
      cases hnext : Segment.join later tail with
      | cons b more => rwa [hnext] at hrule
      | nil =>
        -- Nothing but the rest follows the token.
        refine hrule.replace_next hlexeme fun a ha => hapart a ?_
        rw [hnext, List.getLast?_append, Option.mem_def.mp ha]
        rfl
    · intro a ha
      exact hapart a (by rw [Option.mem_def.mp ha]; rfl)

/-- Layout in front of segments moves their tokens, and leaves their kinds. -/
theorem Segmented.exists_layout_append {segments : List Segment} {tail layout : Bytes}
    (h : Segmented segments tail) (hlayout : layout.AllLayout) :
    ∃ segments' tail', Segmented segments' tail' ∧
      Segment.join segments' tail' = layout ++ Segment.join segments tail ∧
      ∀ p, tokensOf p segments' ++ [endFrom p tail' segments'] =
        tokensOf (p.through layout) segments ++ [endFrom (p.through layout) tail segments] := by
  cases segments with
  | nil =>
    refine ⟨[], layout ++ tail, (segmented_nil_iff _).mpr ?_, rfl, fun p => ?_⟩
    · exact List.forall_mem_append.mpr ⟨hlayout, h.ends⟩
    · simp only [tokensOf, endFrom, List.foldl_nil, p.through_append]
  | cons s later =>
    obtain ⟨hgap, hrule, hlater⟩ := (segmented_cons_iff s later tail).mp h
    refine ⟨⟨layout ++ s.gap, s.lexeme, s.kind⟩ :: later, tail,
      (segmented_cons_iff _ later tail).mpr
        ⟨List.forall_mem_append.mpr ⟨hlayout, hgap⟩, hrule, hlater⟩, ?_, fun p => ?_⟩
    · rw [Segment.join_cons, Segment.join_cons, List.append_assoc]
    · simp only [tokensOf, endFrom, List.foldl_cons, Position.past, p.through_append]

/-! ## Tokens in the middle -/

/-- **A lexeme in the middle.** Let a source leave no literal open, and let a lexeme not stick to
it. Then the tokens before that of the lexeme are the tokens of the source before its end of input,
the lexeme stands where this stood, and the tokens behind it are those of the bytes behind it,
counted on from there. -/
theorem tokenize_append_lexeme {source lexeme rest : Bytes} {kind : TokenKind} {front : List Token}
    {position : Position} (hfront : tokenize source = front ++ [⟨.endOfInput, position⟩])
    (heven : Even (source.count Bytes.quote)) (hrule : TokenRule lexeme rest.head? kind)
    (hapart : ∀ a ∈ source.getLast?, ∀ b ∈ lexeme.head?, ¬ Bytes.Sticks a b) :
    tokenize (source ++ (lexeme ++ rest)) =
      front ++ ⟨kind, position⟩ ::
        (tokenize rest).map (.countedFrom (position.rightBy lexeme.length)) := by
  obtain ⟨segments, tail, rfl, hcut⟩ := exists_segmented source
  obtain ⟨later, ending, rfl, hlater⟩ := exists_segmented rest
  obtain ⟨others, ending', hothers, hjoin, htokens⟩ :=
    ((segmented_cons_iff ⟨[], lexeme, kind⟩ later ending).mpr
      ⟨fun _ hb => absurd hb List.not_mem_nil, hrule, hlater⟩).exists_layout_append hcut.ends
  rw [Segment.join_cons, List.nil_append] at hjoin
  -- The end of input of the source stands where the lexeme begins.
  rw [tokenize_join hcut] at hfront
  obtain ⟨rfl, hend⟩ := List.append_inj' hfront rfl
  obtain rfl : (segments.foldl Position.past .start).through tail = position :=
    congrArg Token.position (List.cons.inj hend).1
  have hreached := reached_endFrom Position.reached_start segments tail
  have hbehind := map_countedFrom_tokenize_join hlater (hreached.rightBy lexeme.length)
  have hall : Segmented (segments ++ others) ending' := by
    refine hcut.append hothers hjoin heven fun a ha b hb => hapart a ha b ?_
    obtain ⟨first, more, rfl, -⟩ := hrule.exists_cons
    exact hb
  have hsource : Segment.join segments tail ++ (lexeme ++ Segment.join later ending) =
      Segment.join (segments ++ others) ending' := by
    rw [Segment.join_append_eq_append, hjoin, Segment.join_eq_append, List.append_assoc]
  rw [hsource, tokenize_join hall, tokensOf_append, List.append_assoc]
  congr 1
  have hlast : endFrom .start ending' (segments ++ others) =
      endFrom (segments.foldl Position.past .start) ending' others := by
    rw [endFrom, List.foldl_append]
    rfl
  rw [hlast, htokens]
  exact congrArg _ hbehind.symm

/-! ## The body of a string literal -/

/-- A string literal in the middle: the tokens around it know its length and nothing else of it. -/
theorem tokenize_append_string {source body rest : Bytes} {front : List Token} {position : Position}
    (hfront : tokenize source = front ++ [⟨.endOfInput, position⟩])
    (heven : Even (source.count Bytes.quote)) (hbody : Bytes.quote ∉ body) :
    tokenize (source ++ [Bytes.quote] ++ body ++ [Bytes.quote] ++ rest) =
      front ++ ⟨.string body, position⟩ ::
        (tokenize rest).map (.countedFrom (position.rightBy (body.length + 2))) := by
  have hapart : ∀ a ∈ source.getLast?, ∀ b ∈ (Bytes.quote :: (body ++ [Bytes.quote])).head?,
      ¬ Bytes.Sticks a b := by
    rintro a - b ⟨⟩
    exact Bytes.not_sticks_quote a
  have hlength : (Bytes.quote :: (body ++ [Bytes.quote])).length = body.length + 2 := by
    rw [List.length_cons, List.length_append, List.length_singleton]
  have hrule : TokenRule (Bytes.quote :: (body ++ [Bytes.quote])) rest.head? (.string body) :=
    .string hbody
  have hmiddle := tokenize_append_lexeme hfront heven hrule hapart
  rw [hlength] at hmiddle
  rw [← hmiddle]
  simp only [List.append_assoc, List.cons_append, List.nil_append]

/-- **The body of a string literal is opaque.** Behind bytes with an even number of quotes, let a
string literal have one body or another, both without quotes and of the same length. Then both
sources have the same tokens in the same positions, but for one token at the same index of both: the
literal, which stands in the same position with the one body and with the other. Its place is where
the bytes before it have their end of input. -/
theorem tokenize_string_opaque (p x y q : Bytes) (hp : Even (p.count Bytes.quote))
    (hx : Bytes.quote ∉ x) (hy : Bytes.quote ∉ y) (hlength : x.length = y.length) :
    let tokens (body : Bytes) := tokenize (p ++ [Bytes.quote] ++ body ++ [Bytes.quote] ++ q)
    (tokens x).length = (tokens y).length ∧
      ∃ (i : ℕ) (position : Position),
        (tokens x)[i]? = some ⟨.string x, position⟩ ∧ (tokens y)[i]? = some ⟨.string y, position⟩ ∧
        (∀ j ≠ i, (tokens x)[j]? = (tokens y)[j]?) ∧
        (tokenize p)[i]? = some ⟨.endOfInput, position⟩ := by
  intro tokens
  obtain ⟨front, ⟨kind, position⟩, hfront, hend, -⟩ := TokenStream.exists_tokenize_eq p
  obtain rfl : kind = .endOfInput := (Token.isEnd_iff _).mp hend
  have htokens : ∀ {body : Bytes}, Bytes.quote ∉ body → tokens body = front ++
      ⟨.string body, position⟩ ::
        (tokenize q).map (.countedFrom (position.rightBy (body.length + 2))) :=
    tokenize_append_string hfront hp
  have hat : ∀ (t : Token) (later : List Token), (front ++ t :: later)[front.length]? = some t := by
    intro t later
    rw [List.getElem?_append_right le_rfl, Nat.sub_self, List.getElem?_cons_zero]
  rw [htokens hx, htokens hy, hlength, hfront]
  refine ⟨?_, front.length, position, hat _ _, hat _ _, fun j hj => ?_, hat _ []⟩
  · simp only [List.length_append, List.length_cons]
  · rcases Nat.lt_or_gt_of_ne hj with hbefore | hbehind
    · rw [List.getElem?_append_left hbefore, List.getElem?_append_left hbefore]
    · obtain ⟨k, rfl⟩ := Nat.exists_eq_add_of_lt hbehind
      rw [List.getElem?_append_right (by omega), List.getElem?_append_right (by omega),
        Nat.add_assoc, Nat.add_sub_cancel_left, List.getElem?_cons_succ, List.getElem?_cons_succ]

/-- Behind another literal and an operator, a body with a line end and a byte that would be illegal
may as well be a keyword and a zero byte. The last literal is not closed. -/
theorem tokenize_string_opaque_keyword :
    let tokens (body : Bytes) := tokenize (Bytes.ofString "\"\n\" ==" ++ [Bytes.quote] ++ body ++
      [Bytes.quote] ++ Bytes.ofString "\n\"1")
    tokens (.ofString "#\n=") =
        [⟨.string [Bytes.lineFeed], ⟨1, 1⟩⟩, ⟨.equal, ⟨1, 5⟩⟩, ⟨.string (.ofString "#\n="), ⟨1, 7⟩⟩,
          ⟨.string (.ofString "1"), ⟨2, 1⟩⟩, ⟨.endOfInput, ⟨2, 3⟩⟩] ∧
      (tokens [0x66, 0x6e, 0x00]).length = 5 ∧
      (tokens [0x66, 0x6e, 0x00])[2]? = some ⟨.string [0x66, 0x6e, 0x00], ⟨1, 7⟩⟩ ∧
      ∀ j ≠ 2, (tokens [0x66, 0x6e, 0x00])[j]? = (tokens (.ofString "#\n="))[j]? := by
  intro tokens
  have htokens : tokens (.ofString "#\n=") =
      [⟨.string [Bytes.lineFeed], ⟨1, 1⟩⟩, ⟨.equal, ⟨1, 5⟩⟩, ⟨.string (.ofString "#\n="), ⟨1, 7⟩⟩,
        ⟨.string (.ofString "1"), ⟨2, 1⟩⟩, ⟨.endOfInput, ⟨2, 3⟩⟩] := by decide
  obtain ⟨hlength, i, position, hfirst, hsecond, hothers, -⟩ :=
    tokenize_string_opaque (.ofString "\"\n\" ==") (.ofString "#\n=") [0x66, 0x6e, 0x00]
      (.ofString "\n\"1") (by decide) (by decide) (by decide) (by decide)
  obtain rfl : i = 2 := by
    by_contra hi
    exact absurd (hothers 2 (Ne.symm hi)) (by decide)
  change (tokens _)[2]? = _ at hfirst
  rw [htokens] at hfirst
  cases hfirst
  refine ⟨htokens, ?_, hsecond, fun j hj => (hothers j hj).symm⟩
  exact hlength.symm.trans (congrArg List.length htokens)

end Lexing
