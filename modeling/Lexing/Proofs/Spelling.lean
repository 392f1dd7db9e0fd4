import Mathlib.Data.Int.ModEq
import Mathlib.Data.Nat.Digits.Lemmas
import Lexing.Proofs.Segmentation

/-!
# Tokens written and read again

Kinds of tokens are written as bytes, with layout between them. Layout may be left out everywhere,
except between two kinds whose bytes would run together. What was written is then what is read.

Results:

* `tokenRule_of_spells`: the bytes of a kind obey its rule, unless the next byte runs into them.
* `Spelled.segmented`: written kinds are cut by the grammar where they were put together.
* `kind_tokenize_of_spelled`: reading gives back the kinds that were written.
* `exists_spelled`, `exists_kind_tokenize_iff`: every list of kinds that can be written is written in
  some way, and no other list is read from a source.
-/

namespace Lexing

/-! ## Writing kinds -/

/-- A kind that bytes can be written for: an identifier is letters and no keyword, no string holds
    a quote, and an illegal byte is foreign. -/
def TokenKind.WellFormed : TokenKind → Prop
  | .endOfInput => False
  | .identifier name =>
    name ≠ [] ∧ (∀ b ∈ name, Bytes.isLetter b = true) ∧ ∀ k : Keyword, name ≠ k.bytes
  | .string body => Bytes.quote ∉ body
  | .illegal b => Bytes.IsForeign b
  | _ => True

/-- `Spells kind text`: the kind may be written as `text`. Only an integer leaves a choice: any
    digits will do whose value is the integer, up to multiples of 2^64. -/
inductive Spells : TokenKind → Bytes → Prop
  | keyword (k : Keyword) : Spells (.keyword k) k.bytes
  | identifier (name : Bytes) : Spells (.identifier name) name
  | symbol (s : Symbol) : Spells (.symbol s) (Bytes.ofString s.text)
  | equal : Spells .equal (Bytes.ofString "==")
  | notEqual : Spells .notEqual (Bytes.ofString "!=")
  | string (body : Bytes) : Spells (.string body) (Bytes.quote :: (body ++ [Bytes.quote]))
  | illegal (b : UInt8) : Spells (.illegal b) [b]
  | integer (value : Int64) (digits : Bytes) (ne_nil : digits ≠ [])
      (all : ∀ b ∈ digits, Bytes.isDigit b = true)
      (h : (digits.number : Int) ≡ value.toInt [ZMOD 2 ^ 64]) : Spells (.integer value) digits

/-- The kind is written in letters. -/
def TokenKind.isWord : TokenKind → Bool
  | .keyword _ | .identifier _ => true
  | _ => false

/-- Two kinds whose bytes would be read as one token, or cut elsewhere, with nothing between them. -/
inductive TokenKind.RunTogether : TokenKind → TokenKind → Prop
  | words {first second : TokenKind} (hfirst : first.isWord = true) (hsecond : second.isWord = true) :
      RunTogether first second
  | integers (m n : Int64) : RunTogether (.integer m) (.integer n)
  | operators {first second : TokenKind}
      (hfirst : first = .symbol .assign ∨ first = .symbol .bang)
      (hsecond : second = .symbol .assign ∨ second = .equal) : RunTogether first second

/-- Kinds are written one after the other: each is spelled, all else is layout, and there is some
    of it where two kinds would run together. -/
structure Spelled (segments : List Segment) (tail : Bytes) : Prop where
  wellFormed : ∀ s ∈ segments, s.kind.WellFormed
  spells : ∀ s ∈ segments, Spells s.kind s.lexeme
  gaps : ∀ s ∈ segments, s.gap.AllLayout
  ends : tail.AllLayout
  apart : segments.IsChain fun s t => s.kind.RunTogether t.kind → t.gap ≠ []

/-! ## Where a kind ends -/

/-- A byte of this class would go on with a token of this kind. -/
def TokenKind.goesOn : TokenKind → ByteClass → Bool
  | .keyword _, c | .identifier _, c => c == .letter
  | .integer _, c => c == .digit
  | .symbol s, c => (s == .assign || s == .bang) && c == .symbol .assign
  | _, _ => false

/-- The class of the first byte of a kind. -/
def TokenKind.firstClass : TokenKind → ByteClass
  | .keyword _ | .identifier _ => .letter
  | .integer _ => .digit
  | .symbol s => .symbol s
  | .equal => .symbol .assign
  | .notEqual => .symbol .bang
  | .string _ => .quote
  | .illegal _ | .endOfInput => .foreign

theorem TokenKind.goesOn_layout (kind : TokenKind) : kind.goesOn .layout = false := by
  cases kind <;> simp [goesOn]

theorem TokenKind.goesOn_cases {kind : TokenKind} {c : ByteClass} (h : kind.goesOn c = true) :
    (kind.isWord = true ∧ c = .letter) ∨ ((∃ n, kind = .integer n) ∧ c = .digit) ∨
      ((kind = .symbol .assign ∨ kind = .symbol .bang) ∧ c = .symbol .assign) := by
  cases kind <;> simp_all [goesOn, isWord]

theorem TokenKind.goesOn_of_isWord {kind : TokenKind} (h : kind.isWord = true) (c : ByteClass) :
    kind.goesOn c = (c == .letter) := by
  cases kind <;> first | rfl | cases h

theorem TokenKind.firstClass_of_isWord {kind : TokenKind} (h : kind.isWord = true) :
    kind.firstClass = .letter := by
  cases kind <;> first | rfl | cases h

theorem TokenKind.firstClass_eq_letter {kind : TokenKind} (h : kind.firstClass = .letter) :
    kind.isWord = true := by
  cases kind <;> simp_all [firstClass, isWord]

theorem TokenKind.firstClass_eq_digit {kind : TokenKind} (h : kind.firstClass = .digit) :
    ∃ n, kind = .integer n := by
  cases kind <;> simp_all [firstClass]

theorem TokenKind.firstClass_eq_assign {kind : TokenKind}
    (h : kind.firstClass = .symbol .assign) : kind = .symbol .assign ∨ kind = .equal := by
  cases kind <;> simp_all [firstClass]

/-- Two kinds run together exactly if the first byte of the second would go on with the first. -/
theorem TokenKind.runTogether_iff {first second : TokenKind} :
    first.RunTogether second ↔ first.goesOn second.firstClass = true := by
  constructor
  · rintro (⟨hfirst, hsecond⟩ | ⟨m, n⟩ | ⟨rfl | rfl, rfl | rfl⟩)
    · rw [goesOn_of_isWord hfirst, firstClass_of_isWord hsecond]
      rfl
    all_goals rfl
  · intro h
    rcases goesOn_cases h with ⟨hword, hclass⟩ | ⟨⟨m, rfl⟩, hclass⟩ | ⟨hsymbol, hclass⟩
    · exact .words hword (firstClass_eq_letter hclass)
    · obtain ⟨n, rfl⟩ := firstClass_eq_digit hclass
      exact .integers m n
    · exact .operators hsymbol (firstClass_eq_assign hclass)

instance (first second : TokenKind) : Decidable (first.RunTogether second) :=
  decidable_of_iff _ TokenKind.runTogether_iff.symm

theorem Keyword.all_isLetter_bytes (k : Keyword) : k.bytes.all Bytes.isLetter = true := by
  cases k <;> decide

theorem Keyword.bytes_ne_nil (k : Keyword) : k.bytes ≠ [] := by
  cases k <;> decide

/-- The first byte of a spelled kind. -/
theorem Spells.exists_cons {kind : TokenKind} {text : Bytes} (h : Spells kind text)
    (hkind : kind.WellFormed) :
    ∃ first more, text = first :: more ∧ ByteClass.of first = kind.firstClass := by
  cases h with
  | keyword k =>
    obtain ⟨first, more, htext⟩ := List.exists_cons_of_ne_nil k.bytes_ne_nil
    have hall := List.all_eq_true.mp k.all_isLetter_bytes
    rw [htext] at hall ⊢
    exact ⟨first, more, rfl, (ByteClass.of_eq_letter_iff first).mpr (hall first List.mem_cons_self)⟩
  | identifier name =>
    obtain ⟨hne, hall, _⟩ := hkind
    obtain ⟨first, more, rfl⟩ := List.exists_cons_of_ne_nil hne
    exact ⟨first, more, rfl, (ByteClass.of_eq_letter_iff first).mpr (hall first List.mem_cons_self)⟩
  | symbol s => exact ⟨s.byte, [], s.ofString_text, ByteClass.of_byte s⟩
  | equal => exact ⟨_, _, rfl, ByteClass.of_byte .assign⟩
  | notEqual => exact ⟨_, _, rfl, ByteClass.of_byte .bang⟩
  | string body => exact ⟨_, _, rfl, (ByteClass.of_eq_quote_iff _).mpr rfl⟩
  | illegal b => exact ⟨b, [], rfl, (ByteClass.of_eq_foreign_iff b).mpr hkind⟩
  | integer value digits hne hall =>
    obtain ⟨first, more, rfl⟩ := List.exists_cons_of_ne_nil hne
    exact ⟨first, more, rfl, (ByteClass.of_eq_digit_iff first).mpr (hall first List.mem_cons_self)⟩

/-- Digits whose value is an integer up to multiples of 2^64 are read as this integer. -/
theorem Bytes.ofNat_number_eq {digits : Bytes} {value : Int64}
    (h : (digits.number : Int) ≡ value.toInt [ZMOD 2 ^ 64]) : Int64.ofNat digits.number = value := by
  have hsize : ((Int64.size : ℕ) : ℤ) = 2 ^ 64 := by norm_num [Int64.size]
  rw [← Int64.toInt_inj, Int64.toInt_ofNat', ← Int64.toInt_bmod_size value,
    ← Int.emod_bmod (digits.number : Int), ← Int.emod_bmod value.toInt, hsize, h]

/-- **Spelled kinds obey the rules.** The bytes of a kind are a token of this kind, unless the byte
    after them goes on with it. -/
theorem tokenRule_of_spells {kind : TokenKind} {text : Bytes} {next : Option UInt8}
    (h : Spells kind text) (hkind : kind.WellFormed)
    (hnext : ∀ b ∈ next, kind.goesOn (ByteClass.of b) = false) : TokenRule text next kind := by
  have hfree : ∀ {p : UInt8 → Bool} {c : ByteClass}, kind.goesOn c = true →
      (∀ b, ByteClass.of b = c ↔ p b = true) → ∀ b ∈ next, p b = false := by
    intro p c hc hp b hb
    rw [← Bool.not_eq_true, ← hp b]
    intro hclass
    have hstop := hnext b hb
    rw [hclass, hc] at hstop
    cases hstop
  cases h with
  | keyword k =>
    refine .keyword k ⟨k.bytes_ne_nil, List.all_eq_true.mp k.all_isLetter_bytes, ?_⟩
    exact hfree rfl ByteClass.of_eq_letter_iff
  | identifier name =>
    obtain ⟨hne, hall, hfresh⟩ := hkind
    exact .identifier ⟨hne, hall, hfree rfl ByteClass.of_eq_letter_iff⟩ hfresh
  | symbol s =>
    rw [s.ofString_text]
    refine .symbol s fun hs hequals => ?_
    have hstop := hnext Bytes.equalsSign (Option.mem_def.mpr hequals)
    rcases hs with rfl | rfl
    · exact absurd hstop (by decide)
    · exact absurd hstop (by decide)
  | equal => exact .equal
  | notEqual => exact .notEqual
  | string body => exact .string hkind
  | illegal b => exact .illegal hkind
  | integer value digits hne hall hvalue =>
    rw [← Bytes.ofNat_number_eq hvalue]
    refine .integer ⟨hne, hall, ?_⟩
    exact hfree (c := .digit) rfl ByteClass.of_eq_digit_iff

/-! ## Reading what was written -/

theorem Spelled.of_cons {s : Segment} {later : List Segment} {tail : Bytes}
    (h : Spelled (s :: later) tail) : Spelled later tail where
  wellFormed t ht := h.wellFormed t (List.mem_cons_of_mem s ht)
  spells t ht := h.spells t (List.mem_cons_of_mem s ht)
  gaps t ht := h.gaps t (List.mem_cons_of_mem s ht)
  ends := h.ends
  apart := h.apart.of_cons

/-- Layout ends every token. -/
theorem TokenKind.goesOn_of_isLayout (kind : TokenKind) {b : UInt8} (h : Bytes.isLayout b = true) :
    kind.goesOn (ByteClass.of b) = false := by
  rw [(ByteClass.of_eq_layout_iff b).mpr h, goesOn_layout]

/-- The byte after a written kind does not go on with it. -/
theorem Spelled.goesOn_next {s : Segment} {later : List Segment} {tail : Bytes}
    (h : Spelled (s :: later) tail) :
    ∀ b ∈ (Segment.join later tail).head?, s.kind.goesOn (ByteClass.of b) = false := by
  intro b hb
  cases later with
  | nil => exact s.kind.goesOn_of_isLayout (h.ends b (List.mem_of_mem_head? hb))
  | cons t later =>
    have ht : t ∈ s :: t :: later := by simp
    rw [Segment.join_cons] at hb
    cases hgap : t.gap with
    | cons c gap =>
      rw [hgap] at hb
      obtain rfl : c = b := by simpa using hb
      exact s.kind.goesOn_of_isLayout (h.gaps t ht c (by rw [hgap]; simp))
    | nil =>
      -- Nothing stands between the two kinds, so they do not run together.
      obtain ⟨first, more, hlexeme, hclass⟩ := (h.spells t ht).exists_cons (h.wellFormed t ht)
      rw [hgap, hlexeme] at hb
      obtain rfl : first = b := by simpa using hb
      rw [hclass, ← Bool.not_eq_true]
      intro hgoes
      exact h.apart.rel (TokenKind.runTogether_iff.mpr hgoes) hgap

/-- What was put together is cut by the grammar at the same places. -/
theorem Spelled.segmented {segments : List Segment} {tail : Bytes} (h : Spelled segments tail) :
    Segmented segments tail := by
  induction segments with
  | nil => exact (segmented_nil_iff tail).mpr h.ends
  | cons s later ih =>
    have hs : s ∈ s :: later := List.mem_cons_self
    refine (segmented_cons_iff s later tail).mpr ⟨h.gaps s hs, ?_, ih h.of_cons⟩
    exact tokenRule_of_spells (h.spells s hs) (h.wellFormed s hs) h.goesOn_next

/-- **Reading is the inverse of writing.** -/
theorem kind_tokenize_of_spelled {segments : List Segment} {tail : Bytes}
    (h : Spelled segments tail) :
    (tokenize (Segment.join segments tail)).map Token.kind =
      segments.map Segment.kind ++ [.endOfInput] := by
  rw [tokenize_join h.segmented, List.map_append, kind_tokensOf]
  rfl

/-- `x= ==18446744073709551615`, where the digits wrap around to minus one. -/
theorem kind_tokenize_comparison :
    let segments : List Segment :=
      [⟨[], .ofString "x", .identifier (.ofString "x")⟩, ⟨[], .ofString "=", .symbol .assign⟩,
        ⟨[Bytes.space], .ofString "==", .equal⟩,
        ⟨[], .ofString "18446744073709551615", .integer (-1)⟩]
    Spelled segments [Bytes.lineFeed] ∧
      (tokenize (Segment.join segments [Bytes.lineFeed])).map Token.kind =
        [.identifier (.ofString "x"), .symbol .assign, .equal, .integer (-1), .endOfInput] := by
  intro segments
  have h : Spelled segments [Bytes.lineFeed] := by
    refine ⟨?_, ?_, by decide, by decide, by decide⟩
    · simp only [segments, List.forall_mem_cons]
      refine ⟨⟨by decide, List.all_eq_true.mp (by decide), ?_⟩, True.intro, True.intro, True.intro,
        by simp⟩
      intro k
      cases k <;> decide
    · simp only [segments, List.forall_mem_cons]
      refine ⟨.identifier _, .symbol .assign, .equal, ?_, by simp⟩
      exact .integer _ _ (by decide) (List.all_eq_true.mp (by decide)) (by decide)
  exact ⟨h, kind_tokenize_of_spelled h⟩

/-! ## Every list of kinds can be written -/

/-- The digits of a number. -/
def Bytes.digitsOf (n : ℕ) : Bytes := ((Nat.digits 10 n).map fun d => UInt8.ofNat (0x30 + d)).reverse

theorem Bytes.digitValue_ofNat {d : ℕ} (h : d < 10) :
    digitValue (UInt8.ofNat (0x30 + d)) = d ∧ isDigit (UInt8.ofNat (0x30 + d)) = true := by
  interval_cases d <;> decide

theorem Bytes.number_digitsOf (n : ℕ) : number (digitsOf n) = n := by
  have hmap : (Nat.digits 10 n).map (fun d => digitValue (UInt8.ofNat (0x30 + d))) =
      Nat.digits 10 n := by
    conv_rhs => rw [← List.map_id (Nat.digits 10 n)]
    refine List.map_congr_left fun d hd => ?_
    exact (digitValue_ofNat (Nat.digits_lt_base (by norm_num) hd)).1
  rw [number, digitsOf, List.map_reverse, List.reverse_reverse, List.map_map]
  show Nat.ofDigits 10 ((Nat.digits 10 n).map fun d => digitValue (UInt8.ofNat (0x30 + d))) = n
  rw [hmap, Nat.ofDigits_digits]

theorem Bytes.isDigit_of_mem_digitsOf {n : ℕ} {b : UInt8} (h : b ∈ digitsOf n) :
    isDigit b = true := by
  rw [digitsOf, List.mem_reverse] at h
  obtain ⟨d, hd, rfl⟩ := List.mem_map.mp h
  exact (digitValue_ofNat (Nat.digits_lt_base (by norm_num) hd)).2

theorem Bytes.digitsOf_ne_nil {n : ℕ} (h : n ≠ 0) : digitsOf n ≠ [] := by
  simpa [digitsOf, Nat.digits_ne_nil_iff_ne_zero] using h

theorem exists_spells_integer (value : Int64) : ∃ text, Spells (.integer value) text := by
  set n : ℕ := (value.toInt % 2 ^ 64).toNat + 2 ^ 64 with hn
  refine ⟨Bytes.digitsOf n, .integer value _ (Bytes.digitsOf_ne_nil (by omega)) ?_ ?_⟩
  · exact fun b hb => Bytes.isDigit_of_mem_digitsOf hb
  · have hpos : 0 ≤ value.toInt % 2 ^ 64 := Int.emod_nonneg _ (by norm_num)
    rw [Bytes.number_digitsOf, Int.ModEq, hn, Nat.cast_add, Int.toNat_of_nonneg hpos]
    omega

theorem TokenKind.WellFormed.exists_spells {kind : TokenKind} (h : kind.WellFormed) :
    ∃ text, Spells kind text := by
  cases kind with
  | endOfInput => exact h.elim
  | illegal b => exact ⟨_, .illegal b⟩
  | symbol s => exact ⟨_, .symbol s⟩
  | equal => exact ⟨_, .equal⟩
  | notEqual => exact ⟨_, .notEqual⟩
  | string body => exact ⟨_, .string body⟩
  | integer value => exact exists_spells_integer value
  | identifier name => exact ⟨_, .identifier name⟩
  | keyword k => exact ⟨_, .keyword k⟩

theorem exists_spelled {kinds : List TokenKind} (h : ∀ kind ∈ kinds, kind.WellFormed) :
    ∃ segments, segments.map Segment.kind = kinds ∧ (∀ s ∈ segments, s.gap = [Bytes.space]) ∧
      Spelled segments [] := by
  induction kinds with
  | nil => exact ⟨[], rfl, by simp, by simp, by simp, by simp, by simp [Bytes.AllLayout], .nil⟩
  | cons kind kinds ih =>
    obtain ⟨text, htext⟩ := (h kind List.mem_cons_self).exists_spells
    obtain ⟨segments, hkinds, hgaps, hspelled⟩ :=
      ih fun k hk => h k (List.mem_cons_of_mem kind hk)
    refine ⟨⟨[Bytes.space], text, kind⟩ :: segments, by simp [hkinds], by simpa using hgaps, ?_⟩
    refine ⟨?_, ?_, ?_, hspelled.ends, ?_⟩
    · exact List.forall_mem_cons.mpr ⟨h kind List.mem_cons_self, hspelled.wellFormed⟩
    · exact List.forall_mem_cons.mpr ⟨htext, hspelled.spells⟩
    · refine List.forall_mem_cons.mpr ⟨?_, hspelled.gaps⟩
      intro b hb
      rw [List.mem_singleton.mp hb]
      decide
    · cases segments with
      | nil => exact .singleton _
      | cons s later =>
        refine List.isChain_cons_cons.mpr ⟨fun _ => ?_, hspelled.apart⟩
        rw [hgaps s List.mem_cons_self]
        exact List.cons_ne_nil _ _

theorem TokenRule.wellFormed {lexeme : Bytes} {next : Option UInt8} {kind : TokenKind}
    (h : TokenRule lexeme next kind) : kind.WellFormed := by
  cases h with
  | identifier run free => exact ⟨run.ne_nil, run.all, free⟩
  | string hbody => exact hbody
  | openString hbody => exact hbody
  | illegal hb => exact hb
  | _ => exact True.intro

/-- **The kinds that a source can have.** A list of kinds is read from some source exactly if every
    kind in it can be written. -/
theorem exists_kind_tokenize_iff (kinds : List TokenKind) :
    (∃ source, (tokenize source).map Token.kind = kinds ++ [.endOfInput]) ↔
      ∀ kind ∈ kinds, kind.WellFormed := by
  constructor
  · rintro ⟨source, hsource⟩ kind hkind
    obtain ⟨segments, tail, rfl, h⟩ := exists_segmented source
    rw [tokenize_join h, List.map_append, kind_tokensOf] at hsource
    obtain rfl := List.append_cancel_right hsource
    obtain ⟨s, hs, rfl⟩ := List.mem_map.mp hkind
    obtain ⟨front, later, hsplit⟩ := List.append_of_mem hs
    exact (h.rules front s later hsplit).wellFormed
  · intro h
    obtain ⟨segments, rfl, _, hspelled⟩ := exists_spelled h
    refine ⟨Segment.join segments [], ?_⟩
    rw [tokenize_join hspelled.segmented, List.map_append, kind_tokensOf]
    rfl

end Lexing
