import Mathlib
import Lexing.Proofs.Lines
import Lexing.Proofs.Printing

/-!
# What a listing tells

A listing tells everything about its tokens but the position of the end of input. Its lines are those
of the tokens, since no token's text holds a line feed. A text is cut into line, column, word and
payload in one way only, and an escaped payload can be read back, whatever its bytes.

Results:

* `Text.readByte_escapeByte`, `Text.escape_inj`: escaped bytes are read back one by one.
* `Token.all_isPrintable_text`: the text of a token is printable ASCII.
* `Token.text_eq_iff`: two tokens with the same text are alike.
* `Listing.lines_bytes`: the lines of a listing.
* `Listing.forall₂_alike_iff`: listings that are the same list tokens that are alike.
-/

namespace Lexing

/-! ## Cutting texts -/

/-- Characters of one kind, and then others that do not begin with one of this kind, are cut apart in
one way only. -/
theorem append_inj_of_all {p : Char → Bool} {front front' rest rest' : List Char}
    (hfront : front.all p = true) (hfront' : front'.all p = true)
    (hrest : rest.head?.any p = false) (hrest' : rest'.head?.any p = false)
    (h : front ++ rest = front' ++ rest') : front = front' ∧ rest = rest' := by
  have htake : ∀ {front rest : List Char}, front.all p = true → rest.head?.any p = false →
      (front ++ rest).takeWhile p = front := by
    intro front rest hfront hrest
    rw [List.takeWhile_append_of_pos (List.all_eq_true.mp hfront)]
    cases rest with
    | nil => simp
    | cons c rest =>
      have hc : ¬ p c = true := by simpa using hrest
      rw [List.takeWhile_cons_of_neg hc, List.append_nil]
  have hsame : front = front' := by
    rw [← htake hfront hrest, h, htake hfront' hrest']
  subst hsame
  exact ⟨rfl, List.append_cancel_left h⟩

theorem all_isDigit_repr (n : ℕ) : n.repr.toList.all Char.isDigit = true := by
  rw [Nat.toList_repr, List.all_eq_true]
  exact fun c hc => Nat.isDigit_of_mem_toDigits (by decide) (by decide) hc

/-- A position before other text is cut off in one way only. -/
theorem Position.text_append_inj {p q : Position} {rest other : String}
    (h : p.text ++ ": " ++ rest = q.text ++ ": " ++ other) : p = q ∧ rest = other := by
  have hlists : p.line.toNat.repr.toList ++ (':' :: (p.column.toNat.repr.toList ++
      (':' :: ' ' :: rest.toList))) =
      q.line.toNat.repr.toList ++ (':' :: (q.column.toNat.repr.toList ++
      (':' :: ' ' :: other.toList))) := by
    simpa [Position.text] using congrArg String.toList h
  obtain ⟨hline, hbehind⟩ :=
    append_inj_of_all (all_isDigit_repr _) (all_isDigit_repr _) rfl rfl hlists
  obtain ⟨hcolumn, hrest⟩ := append_inj_of_all (all_isDigit_repr _) (all_isDigit_repr _) rfl rfl
    (List.cons.inj hbehind).2
  rw [String.toList_inj, Nat.repr_inj, UInt32.toNat_inj] at hline hcolumn
  refine ⟨?_, String.toList_inj.mp (List.cons.inj (List.cons.inj hrest).2).2⟩
  rcases p with ⟨line, column⟩
  rcases q with ⟨line', column'⟩
  rw [Position.mk.injEq]
  exact ⟨hline, hcolumn⟩

/-! ## Reading escaped bytes -/

namespace Text

/-- The value of a hexadecimal digit. -/
def hexValue (c : Char) : ℕ := if c.isDigit then c.toNat - 0x30 else c.toNat - 0x57

/-- The byte that a letter or a mark after a backslash stands for. -/
def markedByte? (c : Char) : Option UInt8 :=
  if c = 't' then some 0x09
  else if c = 'r' then some 0x0d
  else if c = 'n' then some 0x0a
  else if c = '\'' ∨ c = '"' ∨ c = '\\' then some (UInt8.ofNat c.toNat)
  else none

/-- Reads what follows the backslash of an escaped byte. -/
def readMarked : List Char → Option (UInt8 × List Char)
  | 'x' :: high :: low :: rest => some (UInt8.ofNat (16 * hexValue high + hexValue low), rest)
  | mark :: rest => (markedByte? mark).map (·, rest)
  | [] => none

/-- Reads one escaped byte, and gives the characters after it. -/
def readByte : List Char → Option (UInt8 × List Char)
  | [] => none
  | c :: rest => if c = '\\' then readMarked rest else some (UInt8.ofNat c.toNat, rest)

theorem hexValue_digitChar : ∀ n < 16, hexValue (Nat.digitChar n) = n := by decide

/-- **An escaped byte is read back**, whatever follows it. -/
theorem readByte_escapeByte (b : UInt8) (rest : List Char) :
    readByte (escapeByte b ++ rest) = some (b, rest) := by
  unfold escapeByte
  split
  next h => subst h; rfl
  split
  next h => subst h; rfl
  split
  next h => subst h; rfl
  split
  next h => subst h; rfl
  split
  next h => subst h; rfl
  split
  next h => subst h; rfl
  next hbackslash =>
  split
  next h =>
    have hc : Char.ofUInt8 b ≠ '\\' := by
      intro hc
      have hnat := congrArg Char.toNat hc
      rw [toNat_ofUInt8] at hnat
      exact hbackslash (UInt8.toNat_inj.mp hnat)
    rw [List.singleton_append, readByte, if_neg hc, toNat_ofUInt8, UInt8.ofNat_toNat]
  next h =>
    have hb := b.toNat_lt
    have hvalue : 16 * hexValue (Nat.digitChar (b.toNat / 16)) +
        hexValue (Nat.digitChar (b.toNat % 16)) = b.toNat := by
      rw [hexValue_digitChar _ (by omega), hexValue_digitChar _ (by omega)]
      omega
    show some (UInt8.ofNat (16 * hexValue (Nat.digitChar (b.toNat / 16)) +
        hexValue (Nat.digitChar (b.toNat % 16))), rest) = _
    rw [hvalue, UInt8.ofNat_toNat]

/-- Escaped byte strings are read back byte by byte. -/
theorem escape_inj {a b : Bytes} : escape a = escape b ↔ a = b := by
  refine ⟨fun h => ?_, fun h => congrArg escape h⟩
  rw [escape, escape, String.ofList_inj] at h
  have hread := fun (c : UInt8) (more : Bytes) => readByte_escapeByte c (more.flatMap escapeByte)
  induction a generalizing b with
  | nil =>
    cases b with
    | nil => rfl
    | cons c more =>
      have := hread c more
      rw [← List.flatMap_cons, ← h] at this
      cases this
  | cons c more ih =>
    have hc := hread c more
    rw [← List.flatMap_cons, h] at hc
    cases b with
    | nil => cases hc
    | cons d other =>
      rw [List.flatMap_cons, hread, Option.some.injEq, Prod.mk.injEq] at hc
      obtain ⟨rfl, hmore⟩ := hc
      rw [ih hmore.symm]

end Text

/-! ## What the text of a token says -/

/-- The first word of a description. -/
def TokenKind.word : TokenKind → String
  | symbol s => s.text
  | kind => kind.name

/-- What a description says between quotation marks. -/
def TokenKind.payload? : TokenKind → Option String
  | illegal byte => some (Text.escape [byte])
  | string body => some (Text.escape body)
  | integer value => some value.toInt.repr
  | identifier name => some (Text.escape name)
  | keyword word => some word.spelling
  | endOfInput | symbol _ | equal | notEqual => none

/-- What a description says after its first word. -/
def TokenKind.suffix (kind : TokenKind) : String :=
  match kind.payload? with
  | some payload => " \"" ++ payload ++ "\""
  | none => ""

theorem Token.labelled_eq (word payload : String) :
    labelled word payload = word ++ (" \"" ++ payload ++ "\"") := by
  rw [labelled, String.append_assoc, String.append_assoc, String.append_assoc]

/-- What a description begins with is the name of the kind, or the text of the symbol. -/
theorem Token.description_eq (kind : TokenKind) : description kind = kind.word ++ kind.suffix := by
  cases kind with
  | endOfInput | equal | notEqual | symbol => exact String.append_empty.symm
  | _ => exact labelled_eq _ _

theorem Symbol.toList_text (s : Symbol) : s.text.toList = [Char.ofUInt8 s.byte] := by
  cases s <;> decide

/-- No word holds a space. -/
theorem TokenKind.all_ne_space_word (kind : TokenKind) : kind.word.toList.all (· != ' ') = true := by
  cases kind with
  | symbol s =>
    rw [word, s.toList_text]
    cases s <;> decide
  | _ => simp [word, name]

theorem TokenKind.payload?_inj {kind other : TokenKind} (h : kind.suffix = other.suffix) :
    kind.payload? = other.payload? := by
  rw [suffix, suffix] at h
  cases hkind : kind.payload? with
  | none =>
    cases hother : other.payload? with
    | none => rfl
    | some payload =>
      rw [hkind, hother] at h
      simpa using congrArg String.toList h
  | some payload =>
    cases hother : other.payload? with
    | none =>
      rw [hkind, hother] at h
      simpa using congrArg String.toList h
    | some payload' =>
      rw [hkind, hother] at h
      simpa using h

theorem Symbol.text_inj {s t : Symbol} (h : s.text = t.text) : s = t := by
  have hchar := congrArg String.toList h
  rw [toList_text, toList_text, List.singleton_inj] at hchar
  have hbyte := congrArg Char.toNat hchar
  rw [Text.toNat_ofUInt8, Text.toNat_ofUInt8, UInt8.toNat_inj] at hbyte
  exact byte_inj.mp hbyte

/-- The word of a symbol is one character, and all other words are longer. -/
theorem Symbol.eq_of_text_eq_word {s : Symbol} {kind : TokenKind} (h : s.text = kind.word) :
    kind = .symbol s := by
  have hone : kind.word.toList.length = 1 := by rw [← h, toList_text, List.length_singleton]
  cases kind with
  | symbol t => rw [text_inj h]
  | _ => exact absurd hone (by simp [TokenKind.word, TokenKind.name])

/-- The word and the payload leave no choice of a kind. -/
theorem TokenKind.eq_of_word_of_payload? {kind other : TokenKind} (hword : kind.word = other.word)
    (hpayload : kind.payload? = other.payload?) : kind = other := by
  cases kind with
  | symbol s => exact (Symbol.eq_of_text_eq_word hword).symm
  | _ =>
    cases other with
    | symbol t => exact Symbol.eq_of_text_eq_word hword.symm
    | _ =>
      simp_all [word, name, payload?, Text.escape_inj, Keyword.spelling_inj, Int64.toInt_inj]

theorem Token.description_inj {kind other : TokenKind} (h : description kind = description other) :
    kind = other := by
  rw [description_eq, description_eq] at h
  have hlists := congrArg String.toList h
  rw [String.toList_append, String.toList_append] at hlists
  have hhead : ∀ kind : TokenKind, kind.suffix.toList.head?.any (· != ' ') = false := by
    intro kind
    rw [TokenKind.suffix]
    split <;> simp
  obtain ⟨hword, hsuffix⟩ := append_inj_of_all kind.all_ne_space_word other.all_ne_space_word
    (hhead kind) (hhead other) hlists
  exact TokenKind.eq_of_word_of_payload? (String.toList_inj.mp hword)
    (TokenKind.payload?_inj (String.toList_inj.mp hsuffix))

/-- Two tokens are alike if they are the same, or both of them the end of input. -/
structure Token.Alike (s t : Token) : Prop where
  kind : s.kind = t.kind
  position : s.kind ≠ .endOfInput → s.position = t.position

/-- The text of a token begins with the digits of its line, unless it is the end of input. -/
theorem Token.text_ne_of_not_isEnd {t : Token} (h : t.isEnd = false) : t.text ≠ "eof" := by
  intro heof
  rw [text_of_not_isEnd h] at heof
  have hlists : t.position.line.toNat.repr.toList ++ (':' :: (t.position.column.toNat.repr.toList ++
      (':' :: ' ' :: (description t.kind).toList))) = [] ++ ['e', 'o', 'f'] := by
    simpa [Position.text] using congrArg String.toList heof
  have hcut := append_inj_of_all (all_isDigit_repr _) rfl rfl rfl hlists
  exact absurd (List.cons.inj hcut.2).1 (by decide)

/-- **A text says what its token is and where**, except that the end of input does not say where it
    is. -/
theorem Token.text_eq_iff {s t : Token} : s.text = t.text ↔ s.Alike t := by
  cases hs : s.isEnd with
  | true =>
    have hskind := (isEnd_iff s).mp hs
    rw [text_of_isEnd hs]
    constructor
    · intro h
      cases ht : t.isEnd with
      | true =>
        have htkind := (isEnd_iff t).mp ht
        exact ⟨hskind.trans htkind.symm, fun hne => absurd hskind hne⟩
      | false => exact absurd h.symm (text_ne_of_not_isEnd ht)
    · intro h
      rw [text_of_isEnd ((isEnd_iff t).mpr (h.kind.symm.trans hskind))]
  | false =>
    have hskind := (isEnd_eq_false_iff s).mp hs
    constructor
    · intro h
      cases ht : t.isEnd with
      | true =>
        rw [text_of_isEnd ht] at h
        exact absurd h (text_ne_of_not_isEnd hs)
      | false =>
        rw [text_of_not_isEnd hs, text_of_not_isEnd ht] at h
        obtain ⟨hposition, hdescription⟩ := Position.text_append_inj h
        exact ⟨description_inj hdescription, fun _ => hposition⟩
    · intro h
      have ht : t.isEnd = false := (isEnd_eq_false_iff t).mpr (h.kind ▸ hskind)
      rw [text_of_not_isEnd hs, text_of_not_isEnd ht, h.kind, h.position hskind]

/-! ## The lines of a listing -/

theorem Text.all_isPrintable_repr (n : ℕ) : n.repr.toList.all isPrintable = true := by
  rw [List.all_eq_true]
  intro c hc
  have hdigit := Char.isDigit_iff_toNat.mp (List.all_eq_true.mp (all_isDigit_repr n) c hc)
  simp only [isPrintable, Bool.and_eq_true, decide_eq_true_eq]
  exact ⟨le_trans (by decide) hdigit.1, hdigit.2.trans (by decide)⟩

theorem TokenKind.all_isPrintable_word (kind : TokenKind) :
    kind.word.toList.all Text.isPrintable = true := by
  cases kind with
  | symbol s =>
    rw [word, s.toList_text]
    cases s <;> decide
  | _ => simp [word, name, Text.isPrintable]

theorem TokenKind.all_isPrintable_payload {kind : TokenKind} {payload : String}
    (h : kind.payload? = some payload) : payload.toList.all Text.isPrintable = true := by
  cases kind with
  | illegal b => exact Option.some.inj h ▸ Text.all_isPrintable_escape [b]
  | string body => exact Option.some.inj h ▸ Text.all_isPrintable_escape body
  | identifier name => exact Option.some.inj h ▸ Text.all_isPrintable_escape name
  | integer value =>
    obtain rfl := Option.some.inj h
    rw [Int.repr_eq_if]
    split
    · exact Text.all_isPrintable_repr _
    · rw [String.toList_append, List.all_append, Text.all_isPrintable_repr]
      rfl
  | keyword k =>
    obtain rfl := Option.some.inj h
    cases k <;> decide
  | endOfInput | symbol _ | equal | notEqual => cases h

/-- The text of a token is printable ASCII, whatever its payload. -/
theorem Token.all_isPrintable_text (t : Token) : t.text.toList.all Text.isPrintable = true := by
  cases ht : t.isEnd with
  | true =>
    rw [text_of_isEnd ht]
    decide
  | false =>
    have hsuffix : t.kind.suffix.toList.all Text.isPrintable = true := by
      rw [TokenKind.suffix]
      cases hpayload : t.kind.payload? with
      | none => rfl
      | some payload =>
        simp only [String.toList_append, List.all_append,
          TokenKind.all_isPrintable_payload hpayload]
        rfl
    rw [text_of_not_isEnd ht, description_eq]
    simp only [Position.text, String.toList_append, List.all_append, Text.all_isPrintable_repr,
      TokenKind.all_isPrintable_word, hsuffix]
    rfl

theorem Bytes.ofString_eq_flatMap (text : String) :
    ofString text = text.toList.flatMap String.utf8EncodeChar := by
  conv_lhs => rw [← String.ofList_toList (s := text)]
  rw [ofString, String.toByteArray_ofList, List.utf8Encode, List.toList_data_toByteArray]

/-- Only the line feed has the byte of a line feed in its encoding. -/
theorem Bytes.eq_of_lineFeed_mem_utf8EncodeChar {c : Char}
    (h : lineFeed ∈ String.utf8EncodeChar c) : c = '\n' := by
  have hvalue : lineFeed.toNat = 10 := rfl
  -- All bytes of a longer encoding are 128 or more.
  have hlong : ∀ {n : ℕ}, 128 ≤ n → n < 256 → lineFeed = UInt8.ofNat n → c = '\n' := by
    intro n hn hlt hb
    rw [hb, UInt8.toNat_ofNat_of_lt' hlt] at hvalue
    omega
  unfold String.utf8EncodeChar at h
  dsimp only at h
  split at h
  next hshort =>
    rw [List.mem_singleton] at h
    rw [h, UInt8.toNat_ofNat_of_lt' (by rw [UInt8.size]; omega)] at hvalue
    exact Char.toNat_inj.mp hvalue
  next =>
    split at h
    next =>
      simp only [List.mem_cons, List.not_mem_nil, or_false] at h
      rcases h with h | h <;> exact hlong (by omega) (by omega) h
    next =>
      split at h
      next =>
        simp only [List.mem_cons, List.not_mem_nil, or_false] at h
        rcases h with h | h | h <;> exact hlong (by omega) (by omega) h
      next =>
        simp only [List.mem_cons, List.not_mem_nil, or_false] at h
        rcases h with h | h | h | h <;> exact hlong (by omega) (by omega) h

/-- A text without a line feed is without one in bytes, too. -/
theorem Bytes.lineFeed_notMem_ofString {text : String} (h : '\n' ∉ text.toList) :
    lineFeed ∉ ofString text := by
  rw [ofString_eq_flatMap, List.mem_flatMap]
  rintro ⟨c, hc, hmem⟩
  exact h (eq_of_lineFeed_mem_utf8EncodeChar hmem ▸ hc)

namespace Listing

theorem lineFeed_notMem_text (t : Token) : Bytes.lineFeed ∉ Bytes.ofString t.text := by
  apply Bytes.lineFeed_notMem_ofString
  intro hmem
  exact absurd (List.all_eq_true.mp t.all_isPrintable_text _ hmem) (by decide)

/-- The lines of a listing are those of its tokens. -/
theorem lines_bytes (tokens : List Token) : (bytes tokens).lines = tokens.map line :=
  Bytes.lines_flatMap lineFeed_notMem_text tokens

/-- Two listings are the same just if their tokens are alike. -/
theorem bytes_eq_iff {tokens others : List Token} :
    bytes tokens = bytes others ↔ List.Forall₂ Token.Alike tokens others := by
  have hline : ∀ s t : Token, line s = line t ↔ s.Alike t := by
    intro s t
    rw [line, line, List.append_cancel_right_eq, Bytes.ofString_inj, Token.text_eq_iff]
  have hlines : bytes tokens = bytes others ↔ tokens.map line = others.map line := by
    constructor
    · intro h
      rw [← lines_bytes, h, lines_bytes]
    · intro h
      rw [bytes, bytes, List.flatMap_def, List.flatMap_def, h]
  rw [hlines, ← List.forall₂_eq_eq_eq, List.forall₂_map_left_iff, List.forall₂_map_right_iff]
  simp only [hline]

/-- **No two token lists share a listing** unless they differ in nothing but the positions of ends of
    input. So it is for any lists of tokens, and for the tokens of sources whose listings are printed. -/
theorem forall₂_alike_iff :
    (∀ tokens others : List Token,
      bytes tokens = bytes others ↔ List.Forall₂ Token.Alike tokens others) ∧
    ∀ source other : Bytes,
      output source = output other ↔ List.Forall₂ Token.Alike (tokenize source) (tokenize other) := by
  refine ⟨fun tokens others => bytes_eq_iff, fun source other => ?_⟩
  rw [output_eq, output_eq, bytes_eq_iff]

end Listing

end Lexing
