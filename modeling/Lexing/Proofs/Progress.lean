import Lexing.Proofs.Stepwise

/-!
# Progress

Every call for a token takes bytes from the source until nothing but layout is left, and from then
on no call changes anything. A zero byte is a byte like any other: at the end of a source the cursor
shows a zero as well, but the end is told by the bytes that are left. So the loops over a source
need no bound, and in a source that can be counted in 32 bits every token stands behind the one
before it.

Results:

* `Position.le_through`, `Position.lt_rightBy`: no move goes back as long as nothing is cut off.
* `TokenStream.exists_after_eq`: requests lead where taking tokens leads.
* `TokenStream.Within.next_of_isEnd`, `TokenStream.Within.next_of_not_isEnd`: what one call does.
* `TokenStream.Within.pairwise_take`: the positions of tokens in a row.
* `TokenStream.exists_calls`: how often the loop over a source calls for a token.
* `next_progress`: progress, the end of input and the end of the loops.
-/

namespace Lexing

/-! ## The order of positions -/

namespace Position

theorem le_iff (p q : Position) :
    p ≤ q ↔ p.line.toNat < q.line.toNat ∨
      (p.line.toNat = q.line.toNat ∧ p.column.toNat ≤ q.column.toNat) := by
  have hlt := lt_iff p q
  have heq : compare p q = .eq ↔ p.line.toNat = q.line.toNat ∧ p.column.toNat = q.column.toNat := by
    change (compare p.line q.line).then (compare p.column q.column) = .eq ↔ _
    rw [Ordering.then_eq_eq, Std.compare_eq_iff_eq, Std.compare_eq_iff_eq, UInt32.toNat_inj,
      UInt32.toNat_inj]
  change compare p q = .lt ↔ _ at hlt
  change (compare p q).isLE = true ↔ _
  rw [Ordering.isLE_iff_eq_lt_or_eq_eq, hlt, heq]
  omega

instance : Preorder Position where
  le_refl p := (le_iff p p).mpr (.inr ⟨rfl, le_rfl⟩)
  le_trans p q r hpq hqr := by
    rw [le_iff] at *
    omega
  lt_iff_le_not_ge p q := by
    rw [lt_iff, le_iff, le_iff]
    omega

variable {n : ℕ} {p : Position}

/-- Some columns to the right is further on, if they can be counted. -/
theorem lt_rightBy (h : p.Reached n) {count : ℕ} (hpos : 0 < count)
    (hcount : n + count < 2 ^ 32 - 1) : p < p.rightBy count := by
  obtain ⟨hline, hcolumn, hsum⟩ := h
  rw [lt_iff, line_rightBy, toNat_column_rightBy, UInt32.size]
  omega

theorem lt_nextLine (h : p.Reached n) (hcount : n + 1 < 2 ^ 32 - 1) : p < p.nextLine := by
  obtain ⟨hline, hcolumn, hsum⟩ := h
  rw [lt_iff, toNat_line_nextLine, UInt32.size]
  omega

/-- Layout does not lead back, if it can be counted. -/
theorem le_through (h : p.Reached n) {layout : Bytes} (hcount : n + layout.length < 2 ^ 32 - 1) :
    p ≤ p.through layout := by
  induction layout generalizing p n with
  | nil => exact le_rfl
  | cons b layout ih =>
    rw [List.length_cons] at hcount
    have hstep : p < p.afterLayout b := by
      unfold afterLayout
      split
      · exact lt_nextLine h (by omega)
      · exact lt_rightBy h Nat.one_pos (by omega)
    exact hstep.le.trans (ih (h.afterLayout b) (by omega))

end Position

namespace TokenStream

/-! ## The streams that requests lead to -/

/-- The stream after requests that are made one after the other. -/
def after (s : TokenStream) (requests : List Request) : TokenStream :=
  requests.foldl (fun s r => (s.ask r).later) s

theorem skip_skip (m n : ℕ) (s : TokenStream) : (s.skip m).skip n = s.skip (n + m) :=
  (Function.iterate_add_apply _ n m s).symm

theorem exists_take_eq_skip (count : ℕ) (s : TokenStream) : ∃ n, (s.take count).2 = s.skip n := by
  induction count generalizing s with
  | zero => exact ⟨0, rfl⟩
  | succ count ih =>
    rw [take_succ]
    split
    · exact ⟨1, rfl⟩
    · obtain ⟨n, hn⟩ := ih s.next.2
      exact ⟨n + 1, hn⟩

/-- Requests only take tokens: they lead where some number of calls for a token leads. -/
theorem exists_after_eq (s : TokenStream) (requests : List Request) :
    ∃ n, s.after requests = s.skip n := by
  induction requests generalizing s with
  | nil => exact ⟨0, rfl⟩
  | cons r later ih =>
    obtain ⟨m, hm⟩ : ∃ m, (s.ask r).later = s.skip m := exists_take_eq_skip (r.budget s) s
    obtain ⟨n, hn⟩ := ih (s.ask r).later
    exact ⟨n + m, hn.trans (by rw [hm, skip_skip])⟩

/-! ## One call -/

/-- The end of input is found exactly when nothing but layout is left. -/
theorem next_isEnd_iff_allLayout (s : TokenStream) :
    s.next.1.isEnd = true ↔ s.cursor.ahead.AllLayout := by
  rw [next_isEnd_iff, Cursor.ahead_skipLayout, List.dropWhile_eq_nil_iff]
  rfl

/-- A token stands behind the layout before it. -/
theorem position_next (s : TokenStream) :
    s.next.1.position = s.position.through (s.cursor.ahead.takeWhile Bytes.isLayout) := by
  have hskip := Cursor.position_skipLayout s.cursor
  cases hahead : s.cursor.skipLayout.ahead with
  | nil => rw [next_of_layout hahead, hskip, position]
  | cons first rest => rw [next_of_cons hahead, hskip, position]

namespace Within

variable {source : Bytes} {s : TokenStream}

theorem offset_add_length (h : Within source s) :
    s.cursor.offset + s.cursor.ahead.length = source.length := by
  rw [s.cursor.offset_add_length_ahead, h.source_eq]

theorem after (h : Within source s) (requests : List Request) :
    Within source (s.after requests) := by
  obtain ⟨n, hn⟩ := exists_after_eq s requests
  rw [hn]
  exact h.skip n

/-- The layout in front of a token does not lead back. -/
theorem position_le_next (h : Within source s) (hlength : source.length < 2 ^ 32 - 1) :
    s.position ≤ s.next.1.position := by
  have hsum := h.offset_add_length
  have hlayout := (List.takeWhile_prefix Bytes.isLayout (l := s.cursor.ahead)).length_le
  rw [position_next]
  exact Position.le_through h.reached (by omega)

/-- **At the end.** The call passes what is left, and another call would do nothing more. -/
theorem next_of_isEnd (h : Within source s) (hend : s.next.1.isEnd = true) :
    s.next.2.cursor.offset = source.length ∧ s.next.1.position = s.next.2.position ∧
      s.next.2.next = s.next := by
  have hleft := (next_isEnd_iff s).mp hend
  have hnone : s.next.2.cursor.ahead = [] := by
    rw [next_of_layout hleft]
    exact hleft
  have hstays : s.next.2.cursor.skipLayout = s.next.2.cursor := by
    rw [Cursor.skipLayout, hnone, Cursor.skipLayoutFrom, ← hnone]
  refine ⟨?_, by rw [next_of_layout hleft, position], ?_⟩
  · have hsum := h.next.offset_add_length
    rwa [hnone] at hsum
  · have hagain : s.next.2.cursor.skipLayout.ahead = [] := by rw [hstays, hnone]
    rw [next_of_layout hagain, hstays, next_of_layout hleft]

/-- **Before the end.** The call passes bytes, and leads behind the token. -/
theorem next_of_not_isEnd (h : Within source s) (hlength : source.length < 2 ^ 32 - 1)
    (hend : s.next.1.isEnd = false) :
    s.cursor.offset < s.next.2.cursor.offset ∧ s.next.1.position < s.next.2.position := by
  have hsum := h.offset_add_length
  have hshorter := length_ahead_next_lt hend
  have hsum' := h.next.offset_add_length
  refine ⟨by omega, ?_⟩
  cases hahead : s.cursor.skipLayout.ahead with
  | nil => rw [(next_isEnd_iff s).mpr hahead] at hend; cases hend
  | cons first rest =>
    have hskip := h.skipLayout
    have hplace := hskip.offset_add_length
    rw [next_of_cons hahead]
    have htaken : 0 < (s.cursor.skipLayout.ahead.take (Lexeme.ofBytes first rest).size).length := by
      rw [hahead, List.length_take, List.length_cons]
      have := Lexeme.size_pos first rest
      omega
    refine Position.lt_rightBy hskip.reached htaken ?_
    have := List.length_take_le' (Lexeme.ofBytes first rest).size s.cursor.skipLayout.ahead
    show s.cursor.skipLayout.offset + _ < _
    change s.cursor.skipLayout.offset + s.cursor.skipLayout.ahead.length = _ at hplace
    omega

/-! ## Several calls -/

/-- Once the end is reached nothing changes. -/
theorem skip_of_isEnd (h : Within source s) (hend : s.next.1.isEnd = true) (n : ℕ) :
    s.next.2.skip n = s.next.2 := by
  have hagain := (h.next_of_isEnd hend).2.2
  induction n with
  | zero => rfl
  | succ n ih =>
    show s.next.2.next.2.skip n = s.next.2
    rw [hagain, ih]

/-- **Tokens in a row** stand one behind the other, none of them before the place where the stream
    stood. -/
theorem pairwise_take (h : Within source s) (hlength : source.length < 2 ^ 32 - 1) (count : ℕ) :
    (s.take count).1.Pairwise (·.position < ·.position) ∧
      ∀ t ∈ (s.take count).1, s.position ≤ t.position := by
  induction count generalizing s with
  | zero => exact ⟨.nil, by simp⟩
  | succ count ih =>
    have hfirst := h.position_le_next hlength
    rw [take_succ]
    split
    next => exact ⟨List.pairwise_singleton _ _, by simpa using hfirst⟩
    next hend =>
      obtain ⟨-, hbehind⟩ := h.next_of_not_isEnd hlength (Bool.eq_false_iff.mpr hend)
      obtain ⟨hpairwise, hle⟩ := ih h.next
      refine ⟨List.pairwise_cons.mpr ⟨fun t ht => ?_, hpairwise⟩, fun t ht => ?_⟩
      · exact hbehind.trans_le (hle t ht)
      · rcases List.mem_cons.mp ht with rfl | ht
        · exact hfirst
        · exact hfirst.trans (hbehind.le.trans (hle t ht))

end Within

/-- **The loop.** After no more calls than there are bytes left the next token is the end of input,
    and not before. The tokens to come are those of the calls in order. -/
theorem exists_calls (s : TokenStream) :
    ∃ n ≤ s.cursor.ahead.length, (∀ i < n, (s.skip i).next.1.isEnd = false) ∧
      (s.skip n).next.1.isEnd = true ∧
      s.rest = (List.range (n + 1)).map fun i => (s.skip i).next.1 := by
  induction hm : s.cursor.ahead.length using Nat.strongRecOn generalizing s with
  | _ m ih =>
    cases hend : s.next.1.isEnd with
    | true => exact ⟨0, Nat.zero_le m, by simp, hend, rest_of_isEnd hend⟩
    | false =>
      have hshorter := length_ahead_next_lt hend
      rw [hm] at hshorter
      obtain ⟨n, hn, hbefore, hlast, hrest⟩ := ih _ hshorter s.next.2 rfl
      refine ⟨n + 1, by omega, fun i hi => ?_, hlast, ?_⟩
      · cases i with
        | zero => exact hend
        | succ i => exact hbefore i (by omega)
      · rw [rest_of_not_isEnd hend, hrest, List.range_succ_eq_map (n := n + 1), List.map_cons,
          List.map_map]
        rfl

end TokenStream

/-! ## The loop that prints -/

namespace Listing

/-- The loop of `printOnward` with a number of calls for a token at most. If these do not reach the
end of input it gives up, without a summary. -/
def printWithin (put : Token → ConsoleM Fault Unit) :
    (calls : ℕ) → TokenStream → Summary → ConsoleM Fault (Option Summary)
  | 0, _, _ => pure none
  | calls + 1, s, sofar => do
    let t := s.next.1
    Console.record t.events
    put t
    if t.isEnd then return some sofar
    else printWithin put calls s.next.2 ⟨sofar.tokens + 1, sofar.illegal ++ t.illegal?.toList⟩

/-- The loop does not give up before the end of input, and then it has no calls left to make. -/
theorem printWithin_eq {n : ℕ} {s : TokenStream} (put : Token → ConsoleM Fault Unit)
    (sofar : Summary) (hbefore : ∀ i < n, (s.skip i).next.1.isEnd = false)
    (hend : (s.skip n).next.1.isEnd = true) :
    printWithin put (n + 1) s sofar = some <$> printOnward put s sofar := by
  induction n generalizing s sofar with
  | zero =>
    have hend : s.next.1.isEnd = true := hend
    rw [printWithin, printOnward]
    simp [hend]
  | succ n ih =>
    have hfirst : s.next.1.isEnd = false := hbefore 0 (Nat.succ_pos n)
    have hlater : ∀ i < n, (s.next.2.skip i).next.1.isEnd = false :=
      fun i hi => hbefore (i + 1) (Nat.succ_lt_succ hi)
    rw [printWithin, printOnward]
    simp [hfirst, ih _ hlater hend]

end Listing

/-! ## Progress -/

open TokenStream (Request)

/-- **Every call makes progress until the end, and the loops end.** Whatever was requested of a
    stream before, the next token is the end of input exactly when nothing but spaces, tabs, line
    feeds and carriage returns is left, so never before a zero byte. Then all of the source is
    passed, the token stands where the stream does, and every further call hands out the same token
    and leaves the stream as it is. Otherwise bytes are passed, and the token stands where the
    stream was or further on, and before the place where the stream is then. The loops over a source
    call for one token more than there are tokens before the end, which are no more than there are
    bytes. The positions of the tokens increase, up to the end of input. -/
theorem next_progress (source : Bytes) (hlength : source.length < 2 ^ 32 - 1) :
    (∀ requests : List Request,
      let s := (TokenStream.ofBytes source).after requests
      let ahead := source.drop s.cursor.offset
      let t := s.next.1
      let s' := s.next.2
      (t.kind = .endOfInput ↔ ∀ b ∈ ahead,
        b = Bytes.space ∨ b = Bytes.tab ∨ b = Bytes.lineFeed ∨ b = Bytes.carriageReturn) ∧
      (0 ∈ ahead → t.kind ≠ .endOfInput) ∧
      (t.kind = .endOfInput → s'.cursor.offset = source.length ∧ t.position = s'.position ∧
        ∀ n, s'.skip n = s' ∧ (s'.skip n).next = (t, s')) ∧
      (t.kind ≠ .endOfInput → s.cursor.offset < s'.cursor.offset ∧
        s.position ≤ t.position ∧ t.position < s'.position)) ∧
    (∃ n ≤ source.length,
      (∀ i < n, ((TokenStream.ofBytes source).skip i).next.1.isEnd = false) ∧
      ((TokenStream.ofBytes source).skip n).next.1.isEnd = true ∧
      tokenize source =
        (List.range (n + 1)).map (fun i => ((TokenStream.ofBytes source).skip i).next.1) ∧
      Listing.printWithin (fun t => Console.write (Listing.line t)) (n + 1) (.ofBytes source)
        ⟨0, []⟩ = some <$> Listing.print source) ∧
    (∀ log, ∃ c,
      (Listing.print source).run ⟨.unlimited, log⟩ = .ok (.ofTokens (tokenize source)) c) ∧
    (tokenize source).Pairwise (·.position < ·.position) := by
  have hstart := TokenStream.within_ofBytes source
  refine ⟨fun requests => ?_, ?_, fun log => ?_, (hstart.pairwise_take hlength _).1⟩
  · intro s ahead t s'
    have hs : s.Within source := hstart.after requests
    have hlayout : t.kind = .endOfInput ↔ ∀ b ∈ ahead,
        b = Bytes.space ∨ b = Bytes.tab ∨ b = Bytes.lineFeed ∨ b = Bytes.carriageReturn := by
      rw [← Token.isEnd_iff, TokenStream.next_isEnd_iff_allLayout, hs.ahead_eq, Bytes.AllLayout]
      refine forall₂_congr fun b _ => ?_
      simp only [Bytes.isLayout, Bytes.isBlank, Bytes.isLineBreak, Bool.or_eq_true, beq_iff_eq,
        or_assoc]
    refine ⟨hlayout, fun hzero hend => ?_, fun hend => ?_, fun hend => ?_⟩
    · exact absurd (hlayout.mp hend 0 hzero) (by decide)
    · have hend := (Token.isEnd_iff t).mpr hend
      obtain ⟨hoffset, hposition, hagain⟩ := hs.next_of_isEnd hend
      refine ⟨hoffset, hposition, fun n => ?_⟩
      have hstays : s'.skip n = s' := hs.skip_of_isEnd hend n
      exact ⟨hstays, by rw [hstays]; exact hagain⟩
    · obtain ⟨hoffset, hposition⟩ :=
        hs.next_of_not_isEnd hlength ((Token.isEnd_eq_false_iff t).mpr hend)
      exact ⟨hoffset, hs.position_le_next hlength, hposition⟩
  · obtain ⟨n, hn, hbefore, hend, hrest⟩ := (TokenStream.ofBytes source).exists_calls
    refine ⟨n, hn, hbefore, hend, hrest, ?_⟩
    rw [Listing.printWithin_eq _ _ hbefore hend, Listing.printOnward_eq_print]
  · obtain ⟨c, hrun, -⟩ := Listing.exists_run_print source log
    exact ⟨c, hrun⟩

/-- A zero byte behind a letter is not the end: it is passed like any other byte. -/
theorem next_progress_zero :
    let s := (TokenStream.ofBytes [0x61, 0x00, 0x20]).after [.token]
    ([0x61, 0x00, 0x20] : Bytes).length < 2 ^ 32 - 1 ∧ s.next.1.kind ≠ .endOfInput ∧
      s.cursor.offset < s.next.2.cursor.offset := by
  have hlength : ([0x61, 0x00, 0x20] : Bytes).length < 2 ^ 32 - 1 := by decide
  obtain ⟨-, hzero, -, hmoves⟩ := (next_progress _ hlength).1 [.token]
  have htaken := hzero (by decide)
  exact ⟨hlength, htaken, (hmoves htaken).1⟩

end Lexing
