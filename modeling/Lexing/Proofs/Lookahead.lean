import Lexing.Proofs.Resumption

/-!
# One byte of lookahead

What a token is depends on its own bytes and on the one byte after them, and its position on the bytes
before. So the tokens of a source up to some token stay what they are when the source is changed behind
the byte after that token. Nothing is asked of the tokens that follow in either source: from there on
both are cut by the grammar on their own, and the cuts fit to the tokens before, since these see no
more than the first byte of them.

Results:

* `Segmented.replace`: the segments after some segment may be exchanged for others that begin with the
  same byte.
* `tokenize_take_of_segmented`: the first tokens of a source are those of its first segments.
* `TokenStream.place_skip_of_segmented`: after some tokens a stream stands behind their segments.
* `tokenize_take_of_take_eq`: sources that agree up to the byte after a token agree on the tokens up to
  this one.
-/

namespace Lexing

variable {front later other : List Segment} {tail tail' : Bytes}

theorem Segment.head?_join_append (front later : List Segment) (tail : Bytes) :
    (join (front ++ later) tail).head? = (join front []).head?.or (join later tail).head? := by
  rw [join_append_eq_append, List.head?_append]

/-- **The segments after some segment may be exchanged** for others that begin with the same byte. -/
theorem Segmented.replace (h : Segmented (front ++ later) tail) (hother : Segmented other tail')
    (hhead : (Segment.join later tail).head? = (Segment.join other tail').head?) :
    Segmented (front ++ other) tail' := by
  induction front with
  | nil => exact hother
  | cons s front ih =>
    obtain ⟨hgap, hrule, hlater⟩ := (segmented_cons_iff s (front ++ later) tail).mp h
    rw [Segment.head?_join_append, hhead, ← Segment.head?_join_append] at hrule
    exact (segmented_cons_iff s (front ++ other) tail').mpr ⟨hgap, hrule, ih hlater⟩

/-- The first tokens of a source are those of its first segments, whatever comes after them. -/
theorem tokenize_take_of_segmented (h : Segmented (front ++ later) tail) :
    (tokenize (Segment.join (front ++ later) tail)).take front.length = tokensOf .start front := by
  rw [tokenize_join h, tokensOf_append, List.append_assoc]
  exact List.take_left' (length_tokensOf .start front)

namespace TokenStream

/-- After as many tokens as there are segments in front, the others are ahead, and the position has
moved past those in front. -/
theorem skip_of_segmented (h : Segmented (front ++ later) tail) {s : TokenStream}
    (hahead : s.cursor.ahead = Segment.join (front ++ later) tail) :
    (s.skip front.length).cursor.ahead = Segment.join later tail ∧
      (s.skip front.length).position = front.foldl Position.past s.position := by
  induction front generalizing s with
  | nil => exact ⟨hahead, rfl⟩
  | cons segment front ih =>
    obtain ⟨hgap, hrule, hlater⟩ := (segmented_cons_iff segment (front ++ later) tail).mp h
    rw [List.cons_append, Segment.join_cons] at hahead
    obtain ⟨-, hrest, hmoved⟩ := next_of_segment hgap hrule hahead
    obtain ⟨hbehind, hposition⟩ := ih hlater hrest
    exact ⟨hbehind, hposition.trans (by rw [hmoved]; rfl)⟩

/-- After some tokens a stream stands behind their segments. -/
theorem place_skip_of_segmented (h : Segmented (front ++ later) tail) :
    let s := (ofBytes (Segment.join (front ++ later) tail)).skip front.length
    s.cursor.offset = (Segment.join front []).length ∧
      s.position = front.foldl Position.past .start := by
  intro s
  have hwithin : Within (Segment.join (front ++ later) tail) s :=
    (within_ofBytes (Segment.join (front ++ later) tail)).skip front.length
  have hstart : (ofBytes (Segment.join (front ++ later) tail)).cursor.ahead =
      Segment.join (front ++ later) tail := rfl
  obtain ⟨hbehind, hposition⟩ := skip_of_segmented h hstart
  refine ⟨?_, hposition⟩
  have hahead : s.cursor.ahead.length = (Segment.join later tail).length :=
    congrArg List.length hbehind
  rw [hwithin.ahead_eq, List.length_drop] at hahead
  have hle := hwithin.offset_le
  have hlength : (Segment.join (front ++ later) tail).length =
      (Segment.join front []).length + (Segment.join later tail).length := by
    rw [Segment.join_append_eq_append, List.length_append]
  omega

end TokenStream

/-- A token before the end of input is the last one of some segments in front. -/
theorem exists_split_of_getElem? {segments : List Segment} (h : Segmented segments tail) {i : ℕ}
    {t : Token} (ht : (tokenize (Segment.join segments tail))[i]? = some t)
    (hkind : t.kind ≠ .endOfInput) :
    ∃ front later, segments = front ++ later ∧ front.length = i + 1 := by
  have hlt : i < segments.length := by
    by_contra hle
    rw [tokenize_join h, List.getElem?_append_right (by rw [length_tokensOf]; omega)] at ht
    have hmem := List.mem_of_getElem? ht
    rw [List.mem_singleton.mp hmem] at hkind
    exact hkind rfl
  exact ⟨segments.take (i + 1), segments.drop (i + 1), (List.take_append_drop _ _).symm,
    List.length_take_of_le hlt⟩

/-- **One byte after a token is enough to know it.** Let a token other than the end of input end at an
offset `e`, where the stream stands after it. In every other source with the same first `e + 1` bytes
the tokens up to this one are the same, in kind, payload and position, whatever follows in either
source, and there the stream stands in the same place after them. (If `e` is the end of the source,
then there is no other source with these bytes.) -/
theorem tokenize_take_of_take_eq (source other : Bytes) (i : ℕ) (t : Token)
    (ht : (tokenize source)[i]? = some t) (hkind : t.kind ≠ .endOfInput) :
    let after := (TokenStream.ofBytes source).skip (i + 1)
    let after' := (TokenStream.ofBytes other).skip (i + 1)
    let e := after.cursor.offset
    other.take (e + 1) = source.take (e + 1) →
      (tokenize other).take (i + 1) = (tokenize source).take (i + 1) ∧
        after'.cursor.offset = e ∧ after'.position = after.position := by
  intro after after' e hsame
  obtain ⟨segments, tail, rfl, hcut⟩ := exists_segmented source
  obtain ⟨front, later, rfl, hfront⟩ := exists_split_of_getElem? hcut ht hkind
  obtain ⟨hoffset, hposition⟩ := TokenStream.place_skip_of_segmented hcut
  rw [hfront] at hoffset hposition
  change e = _ at hoffset
  have hjoin := Segment.join_append_eq_append front
  -- The other source goes on behind the same bytes, and is cut there on its own.
  have hbegin : other.take e = Segment.join front [] := by
    have := congrArg (List.take e) hsame
    rwa [List.take_take, List.take_take, min_eq_left (Nat.le_succ e), hjoin, hoffset,
      List.take_left, ← hoffset] at this
  obtain ⟨others, tail', hrest, hothers⟩ := exists_segmented (other.drop e)
  have hother : other = Segment.join (front ++ others) tail' := by
    rw [hjoin, ← hbegin, ← hrest, List.take_append_drop]
  have hhead : (Segment.join later tail).head? = (Segment.join others tail').head? := by
    rw [hother, hjoin, hjoin, hoffset, List.take_length_add_append, List.take_length_add_append]
      at hsame
    have := congrArg List.head? (List.append_cancel_left hsame)
    rwa [List.head?_take, List.head?_take, eq_comm] at this
  have hreplaced := hcut.replace hothers hhead
  obtain ⟨hoffset', hposition'⟩ := TokenStream.place_skip_of_segmented hreplaced
  rw [← hother, hfront] at hoffset' hposition'
  refine ⟨?_, hoffset'.trans hoffset.symm, hposition'.trans hposition.symm⟩
  rw [← hfront, tokenize_take_of_segmented hcut, hother, tokenize_take_of_segmented hreplaced]

/-- Behind the byte after an operator everything may change, even to a string literal that is not closed.
The operator and the word before it stay. -/
theorem tokenize_take_of_take_eq_operator :
    (tokenize (.ofString "x == y"))[1]? = some ⟨.equal, ⟨1, 3⟩⟩ ∧
      (tokenize (.ofString "x == \"\n")).take 2 = (tokenize (.ofString "x == y")).take 2 := by
  have ht : (tokenize (.ofString "x == y"))[1]? = some ⟨.equal, ⟨1, 3⟩⟩ := by decide
  obtain ⟨hsame, -⟩ := tokenize_take_of_take_eq (.ofString "x == y") (.ofString "x == \"\n") 1 _ ht
    nofun (by decide)
  exact ⟨ht, hsame⟩

end Lexing
