import Mathlib.Data.List.Induction
import Mathlib.Data.List.TakeWhile
import Mathlib.Data.Nat.Digits.Defs
import Lexing.Token.Lexeme

/-!
# The grammar of tokens

The bytes of a token, together with the one byte after them, say what the token is. The rules are
stated here for bytes that are already cut out of a source, and nothing is said about how they are
found.

Results:

* `Bytes.decimal_eq_ofNat_number`: 64-bit arithmetic that wraps at every step is the value of the
  digits, reduced once.
* `TokenRule.ofBytes_eq`: what the rules allow is what is read off the front of a source.
* `exists_tokenRule`: what is read off the front of a source is allowed by the rules.
* `TokenRule.kind_unique`: the bytes and the byte after them leave no choice of a kind.
-/

namespace Lexing

/-! ## Digits -/

/-- The value of a string of digits. -/
def Bytes.number (digits : Bytes) : Nat := Nat.ofDigits 10 (digits.map digitValue).reverse

theorem Bytes.number_concat (digits : Bytes) (d : UInt8) :
    number (digits ++ [d]) = number digits * 10 + digitValue d := by
  simp only [number, List.map_append, List.map_singleton, List.reverse_append,
    List.reverse_singleton, List.singleton_append, Nat.ofDigits_cons]
  ring

theorem Bytes.decimal_eq_ofNat_number (digits : Bytes) :
    decimal digits = Int64.ofNat (number digits) := by
  induction digits using List.reverseRecOn with
  | nil => rfl
  | append_singleton digits d ih =>
    rw [decimal_concat, number_concat, ih, Int64.ofNat_add, Int64.ofNat_mul]
    rfl

/-! ## The rules -/

/-- Bytes that satisfy a predicate, at least one, and `next`, the byte after them, does not. -/
structure Bytes.IsRun (p : UInt8 → Bool) (bytes : Bytes) (next : Option UInt8) : Prop where
  ne_nil : bytes ≠ []
  all : ∀ b ∈ bytes, p b = true
  maximal : ∀ b ∈ next, p b = false

/-- A byte that is no layout and that no other token starts with. -/
def Bytes.IsForeign (b : UInt8) : Prop :=
  isLayout b = false ∧ b ≠ quote ∧ isLetter b = false ∧ isDigit b = false ∧
    ∀ s : Symbol, s.byte ≠ b

/-- `TokenRule lexeme next kind`: the bytes `lexeme` are a token of this kind if `next` is the byte
    after them, or if they end the source and `next` is none. -/
inductive TokenRule : Bytes → Option UInt8 → TokenKind → Prop
  /-- A run of letters that is spelled like a keyword. -/
  | keyword {next : Option UInt8} (k : Keyword) (run : Bytes.IsRun Bytes.isLetter k.bytes next) :
      TokenRule k.bytes next (.keyword k)
  /-- Any other run of letters. -/
  | identifier {word : Bytes} {next : Option UInt8} (run : Bytes.IsRun Bytes.isLetter word next)
      (free : ∀ k : Keyword, word ≠ k.bytes) : TokenRule word next (.identifier word)
  /-- A run of digits. -/
  | integer {digits : Bytes} {next : Option UInt8} (run : Bytes.IsRun Bytes.isDigit digits next) :
      TokenRule digits next (.integer (Int64.ofNat digits.number))
  /-- A body between two quotes. -/
  | string {body : Bytes} {next : Option UInt8} (h : Bytes.quote ∉ body) :
      TokenRule (Bytes.quote :: (body ++ [Bytes.quote])) next (.string body)
  /-- A body after a quote that is never closed, up to the end of the source. -/
  | openString {body : Bytes} (h : Bytes.quote ∉ body) :
      TokenRule (Bytes.quote :: body) none (.string body)
  | equal {next : Option UInt8} : TokenRule [Bytes.equalsSign, Bytes.equalsSign] next .equal
  | notEqual {next : Option UInt8} : TokenRule [Symbol.bang.byte, Bytes.equalsSign] next .notEqual
  /-- One byte. The two symbols that form a longer token with an equals sign have none after them. -/
  | symbol {next : Option UInt8} (s : Symbol)
      (alone : s = .assign ∨ s = .bang → next ≠ some Bytes.equalsSign) :
      TokenRule [s.byte] next (.symbol s)
  /-- A byte that starts nothing. -/
  | illegal {b : UInt8} {next : Option UInt8} (h : Bytes.IsForeign b) :
      TokenRule [b] next (.illegal b)

/-! ## From the rules to the front of a source -/

/-- A run is what its predicate takes from the front of the run and whatever follows. -/
theorem Bytes.IsRun.takeWhile_eq {p : UInt8 → Bool} {word rest : Bytes}
    (h : IsRun p word rest.head?) :
    ∃ first more, word = first :: more ∧ p first = true ∧ (more ++ rest).takeWhile p = more := by
  obtain ⟨first, more, rfl⟩ := List.exists_cons_of_ne_nil h.ne_nil
  have hmore : ∀ b ∈ more, p b = true := fun b hb => h.all b (List.mem_cons_of_mem first hb)
  refine ⟨first, more, rfl, h.all first List.mem_cons_self, ?_⟩
  rw [List.takeWhile_append_of_pos hmore]
  cases rest with
  | nil => simp
  | cons b rest =>
    have hb : p b = false := h.maximal b rfl
    simp [hb]

theorem Bytes.takeWhile_quote {body rest : Bytes} (h : quote ∉ body) :
    (body ++ quote :: rest).takeWhile (· != quote) = body := by
  have hbody : ∀ b ∈ body, (b != quote) = true := fun b hb => by
    rw [bne_iff_ne]
    rintro rfl
    exact h hb
  rw [List.takeWhile_append_of_pos hbody]
  simp

theorem Lexeme.ofBytes_of_letter {first : UInt8} (rest : Bytes)
    (h : Bytes.isLetter first = true) :
    ofBytes first rest = ofWord (first :: rest.takeWhile Bytes.isLetter) := by
  rw [ofBytes, (ByteClass.of_eq_letter_iff first).mpr h]

theorem Lexeme.ofBytes_of_digit {first : UInt8} (rest : Bytes) (h : Bytes.isDigit first = true) :
    ofBytes first rest = ofDigits (first :: rest.takeWhile Bytes.isDigit) := by
  rw [ofBytes, (ByteClass.of_eq_digit_iff first).mpr h]

theorem Lexeme.ofBytes_quote (rest : Bytes) : ofBytes Bytes.quote rest = ofQuoted rest := by
  rw [ofBytes, (ByteClass.of_eq_quote_iff Bytes.quote).mpr rfl]

theorem Lexeme.ofBytes_symbol (s : Symbol) (rest : Bytes) :
    ofBytes s.byte rest = ofSymbol s rest := by
  rw [ofBytes, ByteClass.of_byte s]

theorem Lexeme.ofBytes_of_isForeign {first : UInt8} (rest : Bytes) (h : Bytes.IsForeign first) :
    ofBytes first rest = ⟨.illegal first, 1⟩ := by
  rw [ofBytes, (ByteClass.of_eq_foreign_iff first).mpr h]

/-- **The rules are obeyed.** Bytes that a rule makes a token are read as this token off the front
    of any source that goes on as the rule demands, and the token takes these bytes and no more. -/
theorem TokenRule.ofBytes_eq {lexeme rest : Bytes} {kind : TokenKind}
    (h : TokenRule lexeme rest.head? kind) :
    ∃ first more, lexeme = first :: more ∧
      Lexeme.ofBytes first (more ++ rest) = ⟨kind, lexeme.length⟩ := by
  generalize hnext : rest.head? = next at h
  cases h with
  | keyword k run =>
    subst hnext
    obtain ⟨first, more, hk, hfirst, htake⟩ := run.takeWhile_eq
    refine ⟨first, more, hk, ?_⟩
    rw [Lexeme.ofBytes_of_letter _ hfirst, htake, ← hk, Lexeme.ofWord,
      Keyword.ofBytes?_eq_some_iff.mpr rfl]
  | identifier run free =>
    subst hnext
    obtain ⟨first, more, rfl, hfirst, htake⟩ := run.takeWhile_eq
    refine ⟨first, more, rfl, ?_⟩
    rw [Lexeme.ofBytes_of_letter _ hfirst, htake, Lexeme.ofWord]
    cases hk : Keyword.ofBytes? (first :: more) with
    | none => rfl
    | some k => exact absurd (Keyword.ofBytes?_eq_some_iff.mp hk).symm (free k)
  | integer run =>
    subst hnext
    obtain ⟨first, more, rfl, hfirst, htake⟩ := run.takeWhile_eq
    refine ⟨first, more, rfl, ?_⟩
    rw [Lexeme.ofBytes_of_digit _ hfirst, htake, Lexeme.ofDigits, Bytes.decimal_eq_ofNat_number]
  | @string body _ hbody =>
    refine ⟨Bytes.quote, body ++ [Bytes.quote], rfl, ?_⟩
    rw [Lexeme.ofBytes_quote, List.append_assoc, List.singleton_append]
    simp only [Lexeme.ofQuoted, Bytes.takeWhile_quote hbody]
    simp
    omega
  | @openString body hbody =>
    have hrest : rest = [] := List.head?_eq_none_iff.mp hnext
    subst hrest
    refine ⟨Bytes.quote, body, rfl, ?_⟩
    have htake : body.takeWhile (· != Bytes.quote) = body := by
      rw [List.takeWhile_eq_self_iff]
      intro b hb
      rw [bne_iff_ne]
      rintro rfl
      exact hbody hb
    rw [Lexeme.ofBytes_quote, List.append_nil]
    simp [Lexeme.ofQuoted, htake]
    omega
  | equal => exact ⟨Bytes.equalsSign, [Bytes.equalsSign], rfl, Lexeme.ofBytes_symbol .assign _⟩
  | notEqual =>
    exact ⟨Symbol.bang.byte, [Bytes.equalsSign], rfl, Lexeme.ofBytes_symbol .bang _⟩
  | symbol s alone =>
    refine ⟨s.byte, [], rfl, ?_⟩
    rw [Lexeme.ofBytes_symbol, List.nil_append, Lexeme.ofSymbol, hnext]
    cases s <;> simp_all [Symbol.withEqualsSign?]
  | @illegal b _ hb => exact ⟨b, [], rfl, Lexeme.ofBytes_of_isForeign _ hb⟩

/-- The bytes and the byte after them leave no choice. -/
theorem TokenRule.kind_unique {lexeme : Bytes} {next : Option UInt8} {kind other : TokenKind}
    (h : TokenRule lexeme next kind) (h' : TokenRule lexeme next other) : kind = other := by
  have hnext : next.toList.head? = next := by cases next <;> rfl
  rw [← hnext] at h h'
  obtain ⟨first, more, hlex, hread⟩ := h.ofBytes_eq
  obtain ⟨first', more', hlex', hread'⟩ := h'.ofBytes_eq
  obtain ⟨rfl, rfl⟩ := List.cons.inj (hlex.symm.trans hlex')
  rw [hread, Lexeme.mk.injEq] at hread'
  exact hread'.1

theorem TokenRule.kind_ne_endOfInput {lexeme : Bytes} {next : Option UInt8} {kind : TokenKind}
    (h : TokenRule lexeme next kind) : kind ≠ .endOfInput := by
  cases h <;> simp

theorem Bytes.isLayout_of_class {b : UInt8} (h : ByteClass.of b ≠ .layout) : isLayout b = false := by
  rwa [ne_eq, ByteClass.of_eq_layout_iff, Bool.not_eq_true] at h

theorem Bytes.isLayout_of_isLetter {b : UInt8} (h : isLetter b = true) : isLayout b = false := by
  apply isLayout_of_class
  rw [(ByteClass.of_eq_letter_iff b).mpr h]
  decide

theorem Bytes.isLayout_of_isDigit {b : UInt8} (h : isDigit b = true) : isLayout b = false := by
  apply isLayout_of_class
  rw [(ByteClass.of_eq_digit_iff b).mpr h]
  decide

theorem Symbol.isLayout_byte (s : Symbol) : Bytes.isLayout s.byte = false := by
  apply Bytes.isLayout_of_class
  rw [ByteClass.of_byte]
  exact nofun

/-- No token starts with layout. -/
theorem TokenRule.exists_cons {lexeme : Bytes} {next : Option UInt8} {kind : TokenKind}
    (h : TokenRule lexeme next kind) :
    ∃ first more, lexeme = first :: more ∧ Bytes.isLayout first = false := by
  have hrun : ∀ {word : Bytes}, word ≠ [] → (∀ b ∈ word, Bytes.isLayout b = false) →
      ∃ first more, word = first :: more ∧ Bytes.isLayout first = false := by
    intro word hne hall
    obtain ⟨first, more, rfl⟩ := List.exists_cons_of_ne_nil hne
    exact ⟨first, more, rfl, hall first List.mem_cons_self⟩
  cases h with
  | keyword k run => exact hrun run.ne_nil fun b hb => Bytes.isLayout_of_isLetter (run.all b hb)
  | identifier run _ => exact hrun run.ne_nil fun b hb => Bytes.isLayout_of_isLetter (run.all b hb)
  | integer run => exact hrun run.ne_nil fun b hb => Bytes.isLayout_of_isDigit (run.all b hb)
  | @string body => exact ⟨Bytes.quote, body ++ [Bytes.quote], rfl, by decide⟩
  | @openString body => exact ⟨Bytes.quote, body, rfl, by decide⟩
  | equal => exact ⟨_, _, rfl, by decide⟩
  | notEqual => exact ⟨_, _, rfl, by decide⟩
  | symbol s => exact ⟨s.byte, [], rfl, s.isLayout_byte⟩
  | @illegal b _ hb => exact ⟨b, [], rfl, hb.1⟩

/-- A string literal that is not closed ends the source. -/
theorem TokenRule.next_eq_none {body : Bytes} {next : Option UInt8} {kind : TokenKind}
    (h : TokenRule (Bytes.quote :: body) next kind) (hbody : Bytes.quote ∉ body) : next = none := by
  have hquote : ∀ {word : Bytes}, Bytes.quote :: body = word → Bytes.quote ∈ word := by
    rintro word rfl
    exact List.mem_cons_self
  generalize hlexeme : Bytes.quote :: body = lexeme at h
  cases h with
  | keyword k run => exact absurd (run.all _ (hquote hlexeme)) (by decide)
  | identifier run _ => exact absurd (run.all _ (hquote hlexeme)) (by decide)
  | integer run => exact absurd (run.all _ (hquote hlexeme)) (by decide)
  | string _ =>
    obtain rfl := (List.cons.inj hlexeme).2
    exact absurd (by simp) hbody
  | openString _ => rfl
  | equal => exact absurd (List.cons.inj hlexeme).1 (by decide)
  | notEqual => exact absurd (List.cons.inj hlexeme).1 (by decide)
  | symbol s =>
    have hclass := ByteClass.of_byte s
    rw [← (List.cons.inj hlexeme).1] at hclass
    cases hclass
  | illegal hb => exact absurd (List.cons.inj hlexeme).1.symm hb.2.1

/-! ## From the front of a source to the rules -/

theorem Bytes.isRun_takeWhile {p : UInt8 → Bool} {first : UInt8} (rest : Bytes)
    (h : p first = true) :
    IsRun p (first :: rest.takeWhile p) (rest.dropWhile p).head? where
  ne_nil := by simp
  all := by
    intro b hb
    rcases List.mem_cons.mp hb with rfl | hb
    · exact h
    · exact List.mem_takeWhile_imp hb
  maximal := by
    intro b hb
    have := List.head?_dropWhile_not p rest
    rwa [Option.mem_def.mp hb] at this

theorem Lexeme.tokenRule_ofWord {word : Bytes} {next : Option UInt8}
    (run : Bytes.IsRun Bytes.isLetter word next) : TokenRule word next (ofWord word).kind := by
  unfold ofWord
  cases hk : Keyword.ofBytes? word with
  | some k =>
    obtain rfl := Keyword.ofBytes?_eq_some_iff.mp hk
    exact .keyword k run
  | none =>
    refine .identifier run fun k hword => ?_
    rw [Keyword.ofBytes?_eq_some_iff.mpr hword.symm] at hk
    cases hk

/-- A string literal without its opening quote, and what follows it. -/
theorem Lexeme.exists_ofQuoted (rest : Bytes) :
    ∃ lexeme after, Bytes.quote :: rest = lexeme ++ after ∧
      lexeme.length = (ofQuoted rest).size ∧
      TokenRule lexeme after.head? (ofQuoted rest).kind := by
  set body := rest.takeWhile (· != Bytes.quote) with hbody
  have hquote : Bytes.quote ∉ body := fun hb => by
    simpa using List.mem_takeWhile_imp hb
  have hsplit : body ++ rest.dropWhile (· != Bytes.quote) = rest := List.takeWhile_append_dropWhile
  have hdrop : rest.drop body.length = rest.dropWhile (· != Bytes.quote) := by
    conv_lhs => rw [← hsplit]
    exact List.drop_left
  have hread : ofQuoted rest =
      ⟨.string body, 1 + body.length + if (rest.dropWhile (· != Bytes.quote)).isEmpty then 0 else 1⟩ := by
    simp only [ofQuoted, ← hbody, hdrop]
  rw [hread]
  cases hafter : rest.dropWhile (· != Bytes.quote) with
  | nil =>
    rw [hafter, List.append_nil] at hsplit
    refine ⟨Bytes.quote :: body, [], by rw [List.append_nil, hsplit], ?_, .openString hquote⟩
    simp
    omega
  | cons b after =>
    have hb : b = Bytes.quote := by
      have := List.head?_dropWhile_not (· != Bytes.quote) rest
      rw [hafter] at this
      simpa using this
    subst hb
    refine ⟨Bytes.quote :: (body ++ [Bytes.quote]), after, ?_, ?_, .string hquote⟩
    · rw [← hsplit, hafter]; simp
    · simp
      omega

/-- A symbol, or a symbol and an equals sign, and what follows. -/
theorem Lexeme.exists_ofSymbol (s : Symbol) (rest : Bytes) :
    ∃ lexeme after, s.byte :: rest = lexeme ++ after ∧ lexeme.length = (ofSymbol s rest).size ∧
      TokenRule lexeme after.head? (ofSymbol s rest).kind := by
  by_cases hs : s = .assign ∨ s = .bang
  · by_cases hrest : rest.head? = some Bytes.equalsSign
    · obtain ⟨after, rfl⟩ := List.head?_eq_some_iff.mp hrest
      refine ⟨[s.byte, Bytes.equalsSign], after, rfl, ?_⟩
      rcases hs with rfl | rfl
      · exact ⟨rfl, .equal⟩
      · exact ⟨rfl, .notEqual⟩
    · have hread : ofSymbol s rest = ⟨.symbol s, 1⟩ := by
        rcases hs with rfl | rfl <;> simp [ofSymbol, Symbol.withEqualsSign?, hrest]
      rw [hread]
      exact ⟨[s.byte], rest, rfl, rfl, .symbol s fun _ => hrest⟩
  · have hread : ofSymbol s rest = ⟨.symbol s, 1⟩ := by
      cases s <;> first | rfl | exact absurd (by decide) hs
    rw [hread]
    exact ⟨[s.byte], rest, rfl, rfl, .symbol s fun h => absurd h hs⟩

/-- **Every byte that is no layout begins a token.** What is read off the front of a source is cut
    out of it as the rules say. -/
theorem exists_tokenRule {first : UInt8} (rest : Bytes) (h : Bytes.isLayout first = false) :
    ∃ lexeme after, first :: rest = lexeme ++ after ∧
      lexeme.length = (Lexeme.ofBytes first rest).size ∧
      TokenRule lexeme after.head? (Lexeme.ofBytes first rest).kind := by
  cases hclass : ByteClass.of first with
  | layout =>
    rw [ByteClass.of_eq_layout_iff, h] at hclass
    cases hclass
  | quote =>
    obtain rfl := (ByteClass.of_eq_quote_iff first).mp hclass
    rw [Lexeme.ofBytes_quote]
    exact Lexeme.exists_ofQuoted rest
  | letter =>
    have hletter := (ByteClass.of_eq_letter_iff first).mp hclass
    rw [Lexeme.ofBytes_of_letter rest hletter]
    refine ⟨first :: rest.takeWhile Bytes.isLetter, rest.dropWhile Bytes.isLetter, ?_, ?_, ?_⟩
    · rw [List.cons_append, List.takeWhile_append_dropWhile]
    · rw [Lexeme.size_ofWord]
    · exact Lexeme.tokenRule_ofWord (Bytes.isRun_takeWhile rest hletter)
  | digit =>
    have hdigit := (ByteClass.of_eq_digit_iff first).mp hclass
    rw [Lexeme.ofBytes_of_digit rest hdigit, Lexeme.ofDigits, Bytes.decimal_eq_ofNat_number]
    refine ⟨first :: rest.takeWhile Bytes.isDigit, rest.dropWhile Bytes.isDigit, ?_, rfl, ?_⟩
    · rw [List.cons_append, List.takeWhile_append_dropWhile]
    · exact .integer (Bytes.isRun_takeWhile rest hdigit)
  | symbol s =>
    obtain rfl := (ByteClass.of_eq_symbol_iff first s).mp hclass
    rw [Lexeme.ofBytes_symbol]
    exact Lexeme.exists_ofSymbol s rest
  | foreign =>
    have hforeign : Bytes.IsForeign first := (ByteClass.of_eq_foreign_iff first).mp hclass
    rw [Lexeme.ofBytes_of_isForeign rest hforeign]
    exact ⟨[first], rest, rfl, rfl, .illegal hforeign⟩

end Lexing
