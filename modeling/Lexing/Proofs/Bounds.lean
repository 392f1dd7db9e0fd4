import Lexing.Proofs.Indexing
import Lexing.Proofs.Resumption

/-!
# Bounds along a walk

A cursor is moved, copied and set back to its copies, in any order and for any number of times. All
that these calls do is to make strides from places that were reached before. So a bound that single
strides keep holds at the cursor and at every copy, after whatever calls.

Results:

* `Walk.keeps_after`: what single strides keep, every walk keeps.
* `Cursor.reached_stride`: no stride adds more than one line or one column.
* `Cursor.counts_go`: in a source that can be counted in 32 bits, strides count without being cut
  off.
* `Walk.bounded_after`: where a cursor can be, what its moves do, which slices it gives, and that none
  of this is out of range.
-/

namespace Lexing

/-! ## Walks that return to their marks -/

/-- The cursor and all marks have a property. -/
def Walk.Keeps (P : Cursor → Prop) (w : Walk) : Prop := P w.cursor ∧ ∀ c ∈ w.marks, P c

section Keeps

variable {P : Cursor → Prop} (hstride : ∀ c s, P c → P (c.stride s))
include hstride

theorem Cursor.keeps_go {c : Cursor} (h : P c) (strides : List Stride) : P (c.go strides) := by
  induction strides generalizing c with
  | nil => exact h
  | cons s later ih => exact ih (hstride c s h)

theorem Walk.Keeps.perform {w : Walk} (h : w.Keeps P) (m : Move) : (w.perform m).Keeps P := by
  obtain ⟨hcursor, hmarks⟩ := h
  have hmoved : m ≠ .goBack → P (w.perform m).cursor := by
    intro hm
    rw [cursor_perform w hm]
    exact Cursor.keeps_go hstride hcursor _
  cases m with
  | mark => exact ⟨hcursor, List.forall_mem_cons.mpr ⟨hcursor, hmarks⟩⟩
  | goBack =>
    rcases w with ⟨cursor, _ | ⟨c, earlier⟩⟩
    · exact ⟨hcursor, hmarks⟩
    · exact List.forall_mem_cons.mp hmarks
  | _ => exact ⟨hmoved nofun, hmarks⟩

theorem Walk.Keeps.call {w : Walk} (h : w.Keeps P) (call : Call) : (w.call call).Keeps P := by
  cases call with
  | move m => exact h.perform hstride m
  | restore index =>
    refine ⟨?_, h.2⟩
    show P (w.marks[index]?.getD w.cursor)
    cases hmark : w.marks[index]? with
    | none => exact h.1
    | some c => exact h.2 c (List.mem_of_getElem? hmark)

/-- **What single strides keep, every walk keeps.** -/
theorem Walk.keeps_after {w : Walk} (h : w.Keeps P) (calls : List Call) :
    (w.after calls).Keeps P := by
  induction calls generalizing w with
  | nil => exact h
  | cons call later ih => exact ih (h.call hstride call)

end Keeps

/-! ## Single strides -/

/-- Line and column as natural numbers, of which there is no largest. -/
def Position.counts (p : Position) : ℕ × ℕ := (p.line.toNat, p.column.toNat)

/-- Line and column after a stride. -/
def Stride.count : ℕ × ℕ → Stride → ℕ × ℕ
  | (line, column), .right => (line, column + 1)
  | (line, _), .down => (line + 1, 1)

namespace Cursor

variable {c : Cursor}

@[simp]
theorem source_stride (c : Cursor) (s : Stride) : (c.stride s).source = c.source := by
  cases s with
  | right => exact source_advance c
  | down => exact source_nextLine c

theorem offset_stride (c : Cursor) (s : Stride) :
    (c.stride s).offset = c.offset + min 1 c.ahead.length := by
  rcases c with ⟨passed, _ | ⟨b, rest⟩, position⟩ <;> cases s <;> simp [stride, advance, nextLine, offset]

/-- A stride leads no further than its one byte can lead. -/
theorem reached_stride (h : c.position.Reached c.offset) (s : Stride) :
    (c.stride s).position.Reached (c.stride s).offset := by
  cases s with
  | right =>
    rw [stride, ← advanceBy_one]
    exact reached_advanceBy h 1
  | down =>
    rcases c with ⟨passed, _ | ⟨b, rest⟩, position⟩
    · exact h
    · exact h.nextLine

/-- In a source that can be counted in 32 bits a stride is not cut off. -/
theorem counts_stride (h : c.position.Reached c.offset) (hlength : c.source.length < 2 ^ 32 - 1)
    (hahead : c.ahead ≠ []) (s : Stride) :
    (c.stride s).position.counts = Stride.count c.position.counts s := by
  have hplace := c.offset_add_length_ahead
  have hpos := List.length_pos_iff.mpr hahead
  obtain ⟨hline, hcolumn, hsum⟩ := h
  rcases c with ⟨passed, _ | ⟨b, rest⟩, position⟩
  · exact absurd rfl hahead
  · dsimp only at hplace hpos hline hcolumn hsum
    cases s with
    | right =>
      have hnew := Position.toNat_column_rightBy 1 position
      have hexact : (position.rightBy 1).column.toNat = position.column.toNat + 1 := by
        rw [hnew, UInt32.size]
        omega
      exact Prod.ext rfl hexact
    | down =>
      have hnew := Position.toNat_line_nextLine position
      have hexact : position.nextLine.line.toNat = position.line.toNat + 1 := by
        rw [hnew, UInt32.size]
        omega
      exact Prod.ext hexact rfl

/-! ## Strides in a row -/

theorem go_of_ahead_eq_nil (h : c.ahead = []) (strides : List Stride) : c.go strides = c := by
  have hstays : ∀ s, c.stride s = c := by
    rcases c with ⟨passed, ahead, position⟩
    obtain rfl : ahead = [] := h
    intro s
    cases s <;> rfl
  induction strides with
  | nil => rfl
  | cons s later ih =>
    show (c.stride s).go later = c
    rw [hstays s, ih]

/-- Strides never lead back. -/
theorem offset_le_offset_go (c : Cursor) (strides : List Stride) :
    c.offset ≤ (c.go strides).offset := by
  induction strides generalizing c with
  | nil => exact le_rfl
  | cons s later ih =>
    have hfirst := c.offset_stride s
    have hlater := ih (c.stride s)
    show c.offset ≤ ((c.stride s).go later).offset
    omega

/-- **Nothing is cut off.** Strides over the bytes of a source that can be counted in 32 bits count
like natural numbers. -/
theorem counts_go (h : c.position.Reached c.offset) (hlength : c.source.length < 2 ^ 32 - 1)
    {strides : List Stride} (hle : strides.length ≤ c.ahead.length) :
    (c.go strides).position.counts = strides.foldl Stride.count c.position.counts := by
  induction strides generalizing c with
  | nil => rfl
  | cons s later ih =>
    rw [List.length_cons] at hle
    have hahead : c.ahead ≠ [] := List.ne_nil_of_length_pos (by omega)
    have hlength' : (c.stride s).source.length < 2 ^ 32 - 1 := by rwa [source_stride]
    have hle' : later.length ≤ (c.stride s).ahead.length := by
      have hplace := c.offset_add_length_ahead
      have hplace' := (c.stride s).offset_add_length_ahead
      rw [source_stride, offset_stride] at hplace'
      omega
    have hlater := ih (reached_stride h s) hlength' hle'
    rw [counts_stride h hlength hahead] at hlater
    exact hlater

/-! ## Slices -/

/-- A slice is the part of the source between its start and the cursor. -/
theorem slice_of_le {start : ℕ} (h : start ≤ c.offset) :
    c.slice start = .ok ((c.source.take c.offset).drop start) := by
  rw [slice_eq_ok_iff, take_offset_source]
  exact ⟨h, rfl⟩

theorem slice_of_lt {start : ℕ} (h : c.offset < start) : c.slice start = .error ⟨start⟩ :=
  if_neg (Nat.not_le.mpr h)

end Cursor

/-! ## Whole walks -/

namespace Walk

/-- **Where a cursor can be.** After any calls on a cursor that began at the first byte of a source,
the cursor is in that source and not beyond its end. Its line and its column are at least one, and
together they are no further from the first ones than the offset. Every move but going back makes
its strides over the bytes ahead; it leads on, or nowhere, and nowhere if there is nothing ahead. If
the source has fewer than 2^32 - 1 bytes, not one of these strides, also in the middle of a move, is
cut off in counting. The same calls on a cursor into a buffer, where a difference of sizes below zero
and a range outside of the buffer are panics, do not panic, whatever search finds the first place of a
byte, and lead to the same place. A slice has the bytes of the source from its start to the cursor, if
it starts there or before, and is refused if not; as a range of the buffer it is the same. -/
theorem bounded_after (source : Bytes) (calls : List Call) :
    let w := (ofBytes source).after calls
    let c := w.cursor
    (c.source = source ∧ c.offset ≤ source.length ∧
      1 ≤ c.position.line.toNat ∧ 1 ≤ c.position.column.toNat ∧
      (c.position.line.toNat - 1) + (c.position.column.toNat - 1) ≤ c.offset) ∧
    (∀ m, m ≠ .goBack →
      (w.perform m).cursor = c.go (m.strides c.ahead) ∧
      c.offset ≤ (w.perform m).cursor.offset ∧
      (c.offset = source.length → (w.perform m).cursor = c)) ∧
    (source.length < 2 ^ 32 - 1 → ∀ (m : Move) (strides : List Stride),
      strides <+: m.strides c.ahead →
      (c.go strides).position.counts = strides.foldl Stride.count c.position.counts) ∧
    (∀ find, Bytes.FindsFirst find →
      (BufferWalk.ofBytes source).after find calls = .ok w.indexed) ∧
    ∀ start,
      (start ≤ c.offset →
        c.slice start = .ok ((source.take c.offset).drop start) ∧
        c.indexed.slice start = .ok ((source.take c.offset).drop start)) ∧
      (c.offset < start →
        c.slice start = .error ⟨start⟩ ∧ c.indexed.slice start = .error (.slice ⟨start⟩)) := by
  intro w c
  have hstart : (ofBytes source).Keeps fun c => c.source = source ∧ c.position.Reached c.offset :=
    ⟨⟨rfl, Position.reached_start⟩, by simp [ofBytes]⟩
  have hkeeps := keeps_after (fun c s h =>
    ⟨(c.source_stride s).trans h.1, Cursor.reached_stride h.2 s⟩) hstart calls
  have hsource : c.source = source := hkeeps.1.1
  have hreached : c.position.Reached c.offset := hkeeps.1.2
  have hplace : c.offset + c.ahead.length = source.length := by
    rw [← hsource]
    exact c.offset_add_length_ahead
  refine ⟨⟨hsource, by omega, hreached.line_pos, hreached.column_pos, ?_⟩, ?_, ?_,
    fun find hfind => after_indexed hfind (ofBytes source) calls, fun start => ?_⟩
  · have hsum := hreached.sum_le
    have hline := hreached.line_pos
    have hcolumn := hreached.column_pos
    omega
  · intro m hm
    rw [cursor_perform w hm]
    refine ⟨rfl, c.offset_le_offset_go _, fun hend => ?_⟩
    have hnothing : c.ahead = [] := List.length_eq_zero_iff.mp (by omega)
    exact Cursor.go_of_ahead_eq_nil hnothing _
  · intro hlength m strides hprefix
    refine Cursor.counts_go hreached (by rwa [hsource]) ?_
    exact hprefix.length_le.trans (m.length_strides_le c.ahead)
  · rw [c.slice_indexed start, ← hsource]
    refine ⟨fun hle => ?_, fun hlt => ?_⟩
    · rw [Cursor.slice_of_le hle]
      exact ⟨rfl, rfl⟩
    · rw [Cursor.slice_of_lt hlt]
      exact ⟨rfl, rfl⟩

/-- Back at the first of two marks, in front of a carriage return and a line feed: from there the
layout is two lines, counted one by one. In a buffer the way there is the same. -/
theorem bounded_after_restore :
    let source := Bytes.ofString "a\r\n\"b"
    let calls : List Call := [.move .advance, .move .mark, .move .skipLayout, .move .mark,
      .move (.skipTo Bytes.quote), .restore 1]
    let find (target : UInt8) (bytes : Bytes) := bytes.findIdx? (· == target)
    let w := (ofBytes source).after calls
    w.cursor = ⟨.ofString "a", .ofString "\r\n\"b", ⟨1, 2⟩⟩ ∧
      source.length < 2 ^ 32 - 1 ∧ Move.skipLayout ≠ .goBack ∧ Bytes.FindsFirst find ∧
      (∃ b, (BufferWalk.ofBytes source).after find calls = .ok b ∧
        b.cursor = ⟨source.toArray, 1, 1, 2⟩ ∧ b.cursor.slice 0 = .ok (.ofString "a")) ∧
      (w.perform .skipLayout).cursor = w.cursor.go [.down, .down] ∧
      (w.cursor.go [.down]).position.counts = (2, 1) ∧
      w.cursor.slice 0 = .ok (.ofString "a") ∧ w.cursor.slice 2 = .error ⟨2⟩ := by
  intro source calls find w
  have hplace : w.cursor = ⟨.ofString "a", .ofString "\r\n\"b", ⟨1, 2⟩⟩ := by decide
  have hlength : source.length < 2 ^ 32 - 1 := by decide
  have hfind : Bytes.FindsFirst find := Bytes.findsFirst_findIdx?
  obtain ⟨-, hmoves, hcounts, hbuffer, hslices⟩ := bounded_after source calls
  obtain ⟨hlayout, -⟩ := hmoves .skipLayout nofun
  have hfirst : [Stride.down] <+: Move.skipLayout.strides w.cursor.ahead := ⟨[.down], by decide⟩
  have hcount := hcounts hlength .skipLayout [.down] hfirst
  obtain ⟨hslice, hrange⟩ := (hslices 0).1 (Nat.zero_le _)
  obtain ⟨hrefused, -⟩ := (hslices 2).2 (by decide)
  have hindexed : w.indexed.cursor = ⟨source.toArray, 1, 1, 2⟩ := congrArg Cursor.indexed hplace
  exact ⟨hplace, hlength, nofun, hfind, ⟨w.indexed, hbuffer find hfind, hindexed, hrange⟩, hlayout,
    hcount.trans (by decide), hslice, hrefused⟩

end Walk

end Lexing
