import Mathlib.Algebra.Group.Nat.Defs
import Mathlib.Data.List.TakeDrop
import Mathlib.Data.List.TakeWhile
import Mathlib.Logic.Function.Iterate
import Lexing.Text.Walk

/-!
# Moves byte by byte

Every move of a cursor passes some of the bytes ahead, and each of them in one of two ways: as one
column of its line, or as the end of its line. A move that passes many bytes in one step leads where
these strides lead one after the other. So what is known of single strides is known of every move.

Results:

* `Cursor.advanceBy_eq_iterate`, `Cursor.advanceBy_advanceBy`: passing a number of bytes at once is
  passing them one by one.
* `Cursor.skipWhile_eq_advanceBy`, `Cursor.skipTo_eq`: searching passes the bytes in front of the
  place it finds.
* `Walk.cursor_perform`: every move is a row of strides.
* `Cursor.bulk_moves`: how moves that pass many bytes agree with those that pass one.
-/

namespace Lexing

/-! ## Many columns at once -/

namespace Cursor

@[simp]
theorem advanceBy_zero (c : Cursor) : c.advanceBy 0 = c := by
  rcases c with ⟨passed, ahead, position⟩
  simp [advanceBy]

theorem advanceBy_one (c : Cursor) : c.advanceBy 1 = c.advance := by
  rcases c with ⟨passed, _ | ⟨b, rest⟩, position⟩
  · simp [advanceBy, advance]
  · rfl

/-- Two moves on one line are one move by the sum. -/
theorem advanceBy_advanceBy (m n : ℕ) (c : Cursor) :
    (c.advanceBy m).advanceBy n = c.advanceBy (m + n) := by
  have htaken : c.ahead.take (m + n) = c.ahead.take m ++ (c.ahead.drop m).take n := List.take_add
  simp only [advanceBy, htaken, List.reverse_append, List.length_append, List.append_assoc,
    List.drop_drop, Position.rightBy_rightBy]

/-- **Passing bytes at once is passing them one by one.** At the end both stay where they are. -/
theorem advanceBy_eq_iterate (n : ℕ) (c : Cursor) : c.advanceBy n = advance^[n] c := by
  induction n generalizing c with
  | zero => exact advanceBy_zero c
  | succ n ih =>
    rw [Function.iterate_succ_apply, ← ih, ← advanceBy_one, advanceBy_advanceBy, Nat.add_comm]

/-- No more bytes are passed than there are. -/
theorem advanceBy_min (n : ℕ) (c : Cursor) :
    c.advanceBy (min n c.ahead.length) = c.advanceBy n := by
  have htaken : c.ahead.take (min n c.ahead.length) = c.ahead.take n := List.take_eq_take_min.symm
  have hleft : c.ahead.drop (min n c.ahead.length) = c.ahead.drop n := by
    rcases Nat.le_total n c.ahead.length with hle | hle
    · rw [Nat.min_eq_left hle]
    · rw [Nat.min_eq_right hle, List.drop_length, List.drop_of_length_le hle]
  simp only [advanceBy, htaken, hleft]

theorem offset_advanceBy (n : ℕ) (c : Cursor) :
    (c.advanceBy n).offset = c.offset + min n c.ahead.length := by
  simp only [offset, advanceBy, List.length_append, List.length_reverse, List.length_take]
  omega

/-! ## Searching -/

theorem skipWhileFrom_eq_advanceBy (p : UInt8 → Bool) (passed : Bytes) (position : Position)
    (ahead : Bytes) :
    skipWhileFrom p passed position ahead =
      advanceBy (ahead.takeWhile p).length ⟨passed, ahead, position⟩ := by
  induction ahead generalizing passed position with
  | nil => exact (advanceBy_zero ⟨passed, [], position⟩).symm
  | cons b rest ih =>
    unfold skipWhileFrom
    split
    next h =>
      -- The first byte is passed alone, and then the others.
      rw [List.takeWhile_cons_of_pos h, List.length_cons, Nat.add_comm, ← advanceBy_advanceBy,
        advanceBy_one, ih]
      rfl
    next h => rw [List.takeWhile_cons_of_neg h, List.length_nil, advanceBy_zero]

/-- Skipping passes the bytes in front that satisfy the predicate. -/
theorem skipWhile_eq_advanceBy (p : UInt8 → Bool) (c : Cursor) :
    c.skipWhile p = c.advanceBy (c.ahead.takeWhile p).length :=
  skipWhileFrom_eq_advanceBy p c.passed c.position c.ahead

theorem length_takeWhile_ne (target : UInt8) (bytes : Bytes) :
    (bytes.takeWhile (· != target)).length = bytes.findIdx (· == target) := by
  have hcount : bytes.findIdx (fun b => !(b != target)) = bytes.findIdx (· == target) := by
    simp only [bne, Bool.not_not]
  rw [List.takeWhile_eq_take_findIdx_not, List.length_take, hcount]
  exact Nat.min_eq_left List.findIdx_le_length

/-- Going to a byte passes the bytes that differ from it, and counts them. -/
theorem skipTo_eq (target : UInt8) (c : Cursor) :
    c.skipTo target = ((c.ahead.takeWhile (· != target)).length, c.skipWhile (· != target)) := by
  rw [skipWhile_eq_advanceBy, length_takeWhile_ne]
  rfl

theorem offset_skipTo (target : UInt8) (c : Cursor) :
    (c.skipTo target).2.offset = c.offset + (c.skipTo target).1 := by
  have hle := (List.takeWhile_prefix (· != target) (l := c.ahead)).length_le
  rw [skipTo_eq, skipWhile_eq_advanceBy, offset_advanceBy, Nat.min_eq_left hle]

/-- None of the bytes passed is the one gone to. -/
theorem notMem_take_skipTo (target : UInt8) (c : Cursor) :
    target ∉ c.ahead.take (c.skipTo target).1 := by
  rw [skipTo_eq, ← List.prefix_iff_eq_take.mp (List.takeWhile_prefix _)]
  exact fun hmem => absurd (List.mem_takeWhile_imp hmem) (by simp)

/-- Going to a byte stops in front of it, or at the end. -/
theorem head?_ahead_skipTo (target : UInt8) (c : Cursor) :
    (c.skipTo target).2.ahead.head? = some target ∨ (c.skipTo target).2.ahead = [] := by
  rw [ahead_skipTo]
  cases hleft : c.ahead.dropWhile (· != target) with
  | nil => exact .inr rfl
  | cons b rest =>
    have hstop := List.head?_dropWhile_not (· != target) c.ahead
    rw [hleft] at hstop
    exact .inl (congrArg some (by simpa using hstop))

end Cursor

/-! ## Strides -/

/-- A way to pass one byte. -/
inductive Stride
  /-- As one column of its line. -/
  | right
  /-- As the end of its line. -/
  | down
  deriving DecidableEq

/-- The bytes that a move passes, if these are ahead. -/
def Move.taken (ahead : Bytes) : Move → Bytes
  | advance | nextLine => ahead.take 1
  | advanceBy count => ahead.take count
  | skipLayout => ahead.takeWhile Bytes.isLayout
  | skipWhile p => ahead.takeWhile p
  | skipTo target => ahead.takeWhile (· != target)
  | mark | goBack => []

/-- How a move passes a byte. -/
def Move.stride (b : UInt8) : Move → Stride
  | nextLine => .down
  | skipLayout => if Bytes.isLineBreak b then .down else .right
  | _ => .right

/-- The strides of a move, if these bytes are ahead. -/
def Move.strides (ahead : Bytes) (m : Move) : List Stride := (m.taken ahead).map (m.stride ·)

theorem Move.taken_prefix (ahead : Bytes) (m : Move) : m.taken ahead <+: ahead := by
  cases m with
  | advance | nextLine => exact List.take_prefix 1 ahead
  | advanceBy count => exact List.take_prefix count ahead
  | skipLayout => exact List.takeWhile_prefix _
  | skipWhile p => exact List.takeWhile_prefix p
  | skipTo target => exact List.takeWhile_prefix _
  | mark | goBack => exact List.nil_prefix

theorem Move.length_strides_le (ahead : Bytes) (m : Move) :
    (m.strides ahead).length ≤ ahead.length := by
  rw [strides, List.length_map]
  exact (m.taken_prefix ahead).length_le

namespace Cursor

/-- Passes one byte. -/
def stride (c : Cursor) : Stride → Cursor
  | .right => c.advance
  | .down => c.nextLine

/-- Passes bytes one after the other. -/
def go (c : Cursor) (strides : List Stride) : Cursor := strides.foldl stride c

/-- Strides within a line are a move within a line. -/
theorem go_map_right (taken : Bytes) (c : Cursor) :
    c.go (taken.map fun _ => .right) = c.advanceBy taken.length := by
  induction taken generalizing c with
  | nil => exact (advanceBy_zero c).symm
  | cons b taken ih =>
    rw [List.length_cons, Nat.add_comm, ← advanceBy_advanceBy, advanceBy_one, ← ih]
    rfl

theorem skipLayoutFrom_eq_go (passed : Bytes) (position : Position) (ahead : Bytes) :
    skipLayoutFrom passed position ahead =
      go ⟨passed, ahead, position⟩ (Move.skipLayout.strides ahead) := by
  induction ahead generalizing passed position with
  | nil => rfl
  | cons b rest ih =>
    unfold skipLayoutFrom Move.strides Move.taken
    split
    next hbreak =>
      have hlayout : Bytes.isLayout b = true := by rw [Bytes.isLayout, hbreak, Bool.or_true]
      rw [List.takeWhile_cons_of_pos hlayout, List.map_cons, Move.stride, if_pos hbreak, ih]
      rfl
    next hbreak =>
      split
      next hblank =>
        have hlayout : Bytes.isLayout b = true := by rw [Bytes.isLayout, hblank, Bool.true_or]
        rw [List.takeWhile_cons_of_pos hlayout, List.map_cons, Move.stride, if_neg hbreak, ih]
        rfl
      next hblank =>
        have hlayout : ¬ Bytes.isLayout b = true := by simp [Bytes.isLayout, hblank, hbreak]
        rw [List.takeWhile_cons_of_neg hlayout]
        rfl

/-- The strides of a move within a line are a move within a line. -/
theorem go_strides_of_right {m : Move} (h : ∀ b, m.stride b = .right) (c : Cursor) :
    c.go (m.strides c.ahead) = c.advanceBy (m.taken c.ahead).length := by
  rw [Move.strides, List.map_congr_left fun b _ => h b, go_map_right]

end Cursor

/-- **Every move is a row of strides,** except for going back. -/
theorem Walk.cursor_perform (w : Walk) {m : Move} (h : m ≠ .goBack) :
    (w.perform m).cursor = w.cursor.go (m.strides w.cursor.ahead) := by
  cases m with
  | advance =>
    rw [Cursor.go_strides_of_right fun _ => rfl, Move.taken, List.length_take, Cursor.advanceBy_min,
      Cursor.advanceBy_one, perform]
  | nextLine => rcases w with ⟨⟨passed, _ | ⟨b, rest⟩, position⟩, marks⟩ <;> rfl
  | advanceBy count =>
    rw [Cursor.go_strides_of_right fun _ => rfl, Move.taken, List.length_take, Cursor.advanceBy_min,
      perform]
  | skipLayout => exact Cursor.skipLayoutFrom_eq_go _ _ _
  | skipWhile p =>
    rw [Cursor.go_strides_of_right fun _ => rfl, Move.taken, ← Cursor.skipWhile_eq_advanceBy, perform]
  | skipTo target =>
    rw [Cursor.go_strides_of_right fun _ => rfl, Move.taken, ← Cursor.skipWhile_eq_advanceBy, perform,
      Cursor.skipTo_eq]
  | mark => rfl
  | goBack => exact absurd rfl h

/-! ## Moves that pass many bytes -/

/-- A search for a byte: it answers with the first place where the byte stands, and with nothing
only if the byte stands nowhere. -/
def Bytes.FindsFirst (find : UInt8 → Bytes → Option ℕ) : Prop :=
  ∀ target bytes,
    (∀ i, find target bytes = some i → bytes[i]? = some target ∧ target ∉ bytes.take i) ∧
      (find target bytes = none → target ∉ bytes)

/-- There is one answer only that such a search can give. -/
theorem Bytes.FindsFirst.getD_eq {find : UInt8 → Bytes → Option ℕ} (h : FindsFirst find)
    (target : UInt8) (bytes : Bytes) :
    (find target bytes).getD bytes.length = bytes.findIdx (· == target) := by
  obtain ⟨hsome, hnone⟩ := h target bytes
  cases hfind : find target bytes with
  | none =>
    refine (List.findIdx_eq_length_of_false fun b hb => beq_eq_false_iff_ne.mpr ?_).symm
    rintro rfl
    exact hnone hfind hb
  | some i =>
    obtain ⟨hat, hfirst⟩ := hsome i hfind
    obtain ⟨hi, rfl⟩ := List.getElem?_eq_some_iff.mp hat
    rw [Option.getD_some, eq_comm, List.findIdx_eq hi]
    refine ⟨beq_self_eq_true _, fun j hj => beq_eq_false_iff_ne.mpr fun heq => hfirst ?_⟩
    exact List.mem_take_iff_getElem.mpr ⟨j, by omega, heq⟩

theorem Bytes.findsFirst_findIdx? : FindsFirst fun target bytes => bytes.findIdx? (· == target) := by
  refine fun target bytes => ⟨fun i hi => ?_, fun hnone hmem => ?_⟩
  · obtain ⟨hlt, hat, hbefore⟩ := List.findIdx?_eq_some_iff_getElem.mp hi
    refine ⟨List.getElem?_eq_some_iff.mpr ⟨hlt, eq_of_beq hat⟩, fun hmem => ?_⟩
    obtain ⟨j, hj, heq⟩ := List.mem_take_iff_getElem.mp hmem
    exact hbefore j (by omega) (beq_iff_eq.mpr heq)
  · exact absurd (List.findIdx?_eq_none_iff.mp hnone target hmem) (by simp)

namespace Cursor

/-- Passes the bytes before the place that a search answers with, or all bytes if it answers with
nothing, and says how many they are. -/
def skipToFound (find : UInt8 → Bytes → Option ℕ) (target : UInt8) (c : Cursor) : ℕ × Cursor :=
  let count := (find target c.ahead).getD c.ahead.length
  (count, c.advanceBy count)

theorem skipToFound_eq {find : UInt8 → Bytes → Option ℕ} (hfind : Bytes.FindsFirst find)
    (target : UInt8) (c : Cursor) : c.skipToFound find target = c.skipTo target := by
  rw [skipToFound, hfind.getD_eq]
  rfl

/-- **Moves that pass many bytes agree with moves that pass one.** Passing a number of bytes at once
leads where passing them one by one leads, or all that are left if they are fewer. So two such moves
are one by the sum, also if the sum is cut off at the largest word and the source is no longer than
that. Going to a byte, by any search that finds the first one, leads where skipping all others
leads. It counts the bytes it passes, none of which is the one it goes to, and stops in front of
that one or at the end. -/
theorem bulk_moves {find : UInt8 → Bytes → Option ℕ} (hfind : Bytes.FindsFirst find) (c : Cursor) :
    (∀ n, c.advanceBy n = advance^[min n (c.source.length - c.offset)] c) ∧
    (∀ a b, (c.advanceBy a).advanceBy b = c.advanceBy (a + b)) ∧
    (c.source.length < 2 ^ 64 →
      ∀ a b, (c.advanceBy a).advanceBy b = c.advanceBy (min (a + b) (2 ^ 64 - 1))) ∧
    ∀ target,
      let count := (c.skipToFound find target).1
      let there := (c.skipToFound find target).2
      c.skipTo target = (count, there) ∧
      there = c.skipWhile (· != target) ∧
      there.offset = c.offset + count ∧
      target ∉ (c.source.drop c.offset).take count ∧
      (there.ahead.head? = some target ∨ there.offset = c.source.length) := by
  have hleft := c.offset_add_length_ahead
  refine ⟨fun n => ?_, fun a b => advanceBy_advanceBy a b c, fun hlength a b => ?_, fun target => ?_⟩
  · rw [← hleft, Nat.add_sub_cancel_left, ← advanceBy_eq_iterate, advanceBy_min]
  · -- The sum is not cut off, or it is more than what is left in both cases.
    have hsum : min (min (a + b) (2 ^ 64 - 1)) c.ahead.length = min (a + b) c.ahead.length := by
      omega
    rw [advanceBy_advanceBy, ← advanceBy_min (a + b), ← hsum, advanceBy_min]
  · rw [skipToFound_eq hfind, drop_offset_source]
    refine ⟨rfl, congrArg Prod.snd (skipTo_eq target c), offset_skipTo target c,
      notMem_take_skipTo target c, (head?_ahead_skipTo target c).imp_right fun hnil => ?_⟩
    have hend := (c.skipTo target).2.offset_add_length_ahead
    rwa [hnil, source_skipTo] at hend

/-- From behind the first letter to the quote, over a line end, and from there beyond the end by the
largest word. -/
theorem bulk_moves_to_quote :
    let find (target : UInt8) (bytes : Bytes) := bytes.findIdx? (· == target)
    let c := (ofBytes (.ofString "ab\n\"c")).advanceBy 1
    Bytes.FindsFirst find ∧ c.source.length < 2 ^ 64 ∧
      c.skipToFound find Bytes.quote = (2, ⟨.ofString "\nba", .ofString "\"c", ⟨1, 4⟩⟩) ∧
      c.skipWhile (· != Bytes.quote) = advance^[2] c ∧
      (c.advanceBy 2).advanceBy (2 ^ 64 - 1) = advance^[4] c := by
  intro find c
  have hfind : Bytes.FindsFirst find := Bytes.findsFirst_findIdx?
  have hlength : c.source.length < 2 ^ 64 := by decide
  obtain ⟨hsteps, -, hsum, hsearch⟩ := bulk_moves hfind c
  obtain ⟨hthere, hskip, -⟩ := hsearch Bytes.quote
  have hquote : c.skipTo Bytes.quote = (2, ⟨.ofString "\nba", .ofString "\"c", ⟨1, 4⟩⟩) := by decide
  refine ⟨hfind, hlength, hthere.symm.trans hquote, ?_, ?_⟩
  · rw [← hskip, ← congrArg Prod.snd hthere, hquote]
    decide
  · rw [hsum hlength, hsteps]
    rfl

end Cursor

end Lexing
