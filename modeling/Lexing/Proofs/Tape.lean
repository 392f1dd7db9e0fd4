import Lexing.Proofs.Place
import Lexing.Proofs.Resumption

/-!
# A stream as an index into its tokens

A stream finds its tokens when it is asked for them. All it answers could be read off the complete
list of tokens instead, with an index that moves over the list: each token taken moves it by one, up
to one place beyond the end of input, and there it stays.

Results:

* `Stands.next`: one token taken moves the index by one.
* `Stands.take`, `Stands.nth`, `Stands.collect`: so do the requests that take several tokens, each
  up to the first that is missing.
* `Stands.ask`: a request is answered alike by the stream and by the list.
* `answers_eq_tape`: any requests, in any order, are answered alike.
-/

namespace Lexing

/-! ## Answers read off a list -/

/-- Tokens in order, the end of input last, and the number of bytes that each token before it
takes. -/
structure Tape where
  tokens : List Token
  sizes : List ℕ

namespace Tape

/-- The index of the end of input. -/
def last (T : Tape) : ℕ := T.tokens.length - 1

/-- The index after one more token. It moves one place beyond the end of input and no further. -/
def after (T : Tape) (k : ℕ) : ℕ := min (k + 1) (T.last + 1)

/-- The token at an index. Beyond the list it is the end of input again. -/
def token? (T : Tape) (k : ℕ) : Option Token := T.tokens[min k T.last]?

/-- The token at an index, if it comes before the end of input. -/
def next? (T : Tape) (k : ℕ) : Option Token := if k < T.last then T.tokens[k]? else none

/-- The token after the next `n`, and the index then. The first token that is missing ends the
search. -/
def nth (T : Tape) : ℕ → ℕ → Option Token × ℕ
  | 0, k => (T.next? k, T.after k)
  | n + 1, k =>
    match T.next? k with
    | some _ => T.nth n (T.after k)
    | none => (none, T.after k)

/-- The next tokens, `n` or up to the first that is missing, and the index then. -/
def take (T : Tape) : ℕ → ℕ → List Token × ℕ
  | 0, k => ([], k)
  | n + 1, k =>
    match T.next? k with
    | some t => (t :: (T.take n (T.after k)).1, (T.take n (T.after k)).2)
    | none => ([], T.after k)

theorem lt_last_of_next? {T : Tape} {k : ℕ} {t : Token} (h : T.next? k = some t) : k < T.last := by
  rw [next?] at h
  split at h
  next hlt => exact hlt
  next => cases h

theorem next?_eq_none_iff {T : Tape} {k : ℕ} : T.next? k = none ↔ T.last ≤ k := by
  rw [next?]
  split
  next h =>
    have hinside : k < T.tokens.length := by
      rw [last] at h
      omega
    simp [hinside, h]
  next h => simpa using h

theorem after_of_le {T : Tape} {k : ℕ} (h : T.last ≤ k) : T.after k = T.last + 1 :=
  Nat.min_eq_right (by omega)

theorem after_of_lt {T : Tape} {k : ℕ} (h : k < T.last) : T.after k = k + 1 :=
  Nat.min_eq_left (by omega)

/-- All next tokens up to the first that is missing, and the index then. -/
def collect (T : Tape) (k : ℕ) : List Token × ℕ :=
  match _h : T.next? k with
  | some t => (t :: (T.collect (T.after k)).1, (T.collect (T.after k)).2)
  | none => ([], T.after k)
termination_by T.last - k
decreasing_by
  all_goals
    have hlt := lt_last_of_next? _h
    rw [after_of_lt hlt]
    omega

theorem collect_of_some {T : Tape} {k : ℕ} {t : Token} (h : T.next? k = some t) :
    T.collect k = (t :: (T.collect (T.after k)).1, (T.collect (T.after k)).2) := by
  rw [collect]
  split <;> simp_all

theorem collect_of_none {T : Tape} {k : ℕ} (h : T.next? k = none) :
    T.collect k = ([], T.after k) := by
  rw [collect]
  split <;> simp_all

/-- To take all tokens is to take no fewer than are left, and the end of input. -/
theorem collect_eq_take {T : Tape} {k n : ℕ} (h : T.last ≤ k + n) :
    T.collect k = T.take (n + 1) k := by
  induction n generalizing k with
  | zero =>
    have hnone : T.next? k = none := next?_eq_none_iff.mpr h
    rw [collect_of_none hnone, take, hnone]
  | succ n ih =>
    rw [take]
    cases hnext : T.next? k with
    | none => exact collect_of_none hnext
    | some t =>
      have hlt := lt_last_of_next? hnext
      rw [collect_of_some hnext, ih (by rw [after_of_lt hlt]; omega)]

/-- The position at an index: behind the token before it, or that of the end of input once this has
been taken. -/
def position? (T : Tape) (k : ℕ) : Option Position :=
  if k = 0 then some .start
  else if k ≤ T.last then
    match T.tokens[k - 1]?, T.sizes[k - 1]? with
    | some t, some size => some (t.position.rightBy size)
    | _, _ => none
  else T.tokens[T.last]?.map Token.position

end Tape

namespace TokenStream

/-- The answer that a token is, if there is one. -/
def Answer.ofToken? : Option Token → Answer
  | some t => .token t
  | none => .noToken

/-- The answer is the end of input, or that there is no token. -/
def Answer.isOver : Answer → Bool
  | .token t => t.isEnd
  | .noToken => true
  | _ => false

/-- The answer to a request when the end of input has been taken. -/
def Request.answerAtEnd (last : Token) : Request → Answer
  | .token => .token last
  | .next | .nth _ => .noToken
  | .take _ | .collect => .tokens []
  | .count => .count 0
  | .position => .position last.position

/-- The answers to requests that are made one after the other. -/
def answers (s : TokenStream) : List Request → List Answer
  | [] => []
  | r :: later => (s.ask r).answer :: (s.ask r).later.answers later

end TokenStream

open TokenStream (Request Answer)

namespace Tape

/-- The answer to a request at an index, and the index then. -/
def answer (T : Tape) (k : ℕ) : Request → Answer × ℕ
  | .token => (.ofToken? (T.token? k), T.after k)
  | .next => (.ofToken? (T.next? k), T.after k)
  | .nth n => (.ofToken? (T.nth n k).1, (T.nth n k).2)
  | .take n => (.tokens (T.take n k).1, (T.take n k).2)
  | .collect => (.tokens (T.collect k).1, (T.collect k).2)
  | .count => (.count (T.collect k).1.length, (T.collect k).2)
  | .position =>
    match T.position? k with
    | some p => (.position p, k)
    | none => (.noToken, k)

/-- The answers to requests that are made one after the other, the first at an index. -/
def answers (T : Tape) (k : ℕ) : List Request → List Answer
  | [] => []
  | r :: later => (T.answer k r).1 :: T.answers (T.answer k r).2 later

/-- The tape of a source that is cut. -/
def ofSegments (segments : List Segment) (tail : Bytes) : Tape :=
  ⟨tokenize (Segment.join segments tail), segments.map (·.lexeme.length)⟩

/-! ## The list -/

section List

variable {segments : List Segment} {tail : Bytes}

theorem last_ofSegments (hcut : Segmented segments tail) :
    (ofSegments segments tail).last = segments.length := by
  rw [last, ofSegments, tokenize_join hcut, List.length_append, length_tokensOf]
  rfl

theorem getElem?_last (hcut : Segmented segments tail) :
    (ofSegments segments tail).tokens[(ofSegments segments tail).last]? =
      some (endFrom .start tail segments) := by
  rw [last_ofSegments hcut]
  exact getElem?_length_tokenize hcut

theorem isEnd_of_next? (hcut : Segmented segments tail) {k : ℕ} {t : Token}
    (h : (ofSegments segments tail).next? k = some t) : t.isEnd = false := by
  have hlt := lt_last_of_next? h
  rw [next?, if_pos hlt, ofSegments, tokenize_join hcut] at h
  rw [last_ofSegments hcut, ← length_tokensOf .start] at hlt
  rw [List.getElem?_append_left hlt] at h
  exact isEnd_of_mem_tokensOf hcut (List.mem_of_getElem? h)

/-! ### When the tokens are over -/

/-- A search that finds no token has taken the end of input. -/
theorem nth_of_isOver (hcut : Segmented segments tail) {n k : ℕ}
    (h : (Answer.ofToken? ((ofSegments segments tail).nth n k).1).isOver = true) :
    ((ofSegments segments tail).nth n k).2 = segments.length + 1 := by
  induction n generalizing k with
  | zero =>
    cases hnext : (ofSegments segments tail).next? k with
    | some t =>
      rw [nth, hnext] at h
      exact absurd h (by simp [Answer.ofToken?, Answer.isOver, isEnd_of_next? hcut hnext])
    | none => rw [nth, after_of_le (next?_eq_none_iff.mp hnext), last_ofSegments hcut]
  | succ n ih =>
    cases hnext : (ofSegments segments tail).next? k with
    | some t =>
      rw [nth, hnext] at h ⊢
      exact ih h
    | none =>
      rw [nth, hnext]
      show (ofSegments segments tail).after k = _
      rw [after_of_le (next?_eq_none_iff.mp hnext), last_ofSegments hcut]

/-- Beyond the end of input every request is answered by it, and the index stays. -/
theorem answer_beyond (hcut : Segmented segments tail) (r : Request) :
    (ofSegments segments tail).answer (segments.length + 1) r =
      (r.answerAtEnd (endFrom .start tail segments), segments.length + 1) := by
  have hlast := last_ofSegments hcut
  have hend := getElem?_last hcut
  have hnone : (ofSegments segments tail).next? (segments.length + 1) = none := by
    rw [next?_eq_none_iff, hlast]
    exact Nat.le_succ _
  have hafter : (ofSegments segments tail).after (segments.length + 1) = segments.length + 1 := by
    rw [after_of_le (by omega), hlast]
  cases r with
  | token =>
    rw [answer, token?, Nat.min_eq_right (by omega), hend, hafter]
    rfl
  | next =>
    rw [answer, hnone, hafter]
    rfl
  | nth n => cases n <;> rw [answer, nth, hnone, hafter] <;> rfl
  | take n => cases n <;> simp only [answer, take, hnone, hafter] <;> rfl
  | collect =>
    rw [answer, collect_of_none hnone, hafter]
    rfl
  | count =>
    rw [answer, collect_of_none hnone, hafter]
    rfl
  | position =>
    rw [answer, position?, if_neg (Nat.succ_ne_zero _), if_neg (by omega), hend]
    rfl

theorem answers_beyond (hcut : Segmented segments tail) (requests : List Request) :
    (ofSegments segments tail).answers (segments.length + 1) requests =
      requests.map (Request.answerAtEnd (endFrom .start tail segments)) := by
  induction requests with
  | nil => rfl
  | cons r later ih => rw [answers, answer_beyond hcut, ih, List.map_cons]

end List

end Tape

/-! ## Where a stream stands -/

/-- `Stands segments tail k s`: on its way through the segments and the layout after them, the
    stream `s` has taken `k` tokens, or more than there are, the last of them the end of input. -/
inductive Stands (segments : List Segment) (tail : Bytes) : ℕ → TokenStream → Prop
  | within {s : TokenStream} (front later : List Segment) (split : segments = front ++ later)
      (ahead : s.cursor.ahead = Segment.join later tail)
      (position : s.position = front.foldl Position.past .start) :
      Stands segments tail front.length s
  | beyond {s : TokenStream} (ahead : s.cursor.ahead = [])
      (position : s.position = (endFrom .start tail segments).position) :
      Stands segments tail (segments.length + 1) s

theorem TokenStream.next_later_of_allLayout {s : TokenStream} (h : s.cursor.ahead.AllLayout) :
    s.next.2.cursor.ahead = [] ∧ s.next.2.position = s.position.through s.cursor.ahead := by
  have hleft : s.cursor.skipLayout.ahead = [] := by
    rw [Cursor.ahead_skipLayout, List.dropWhile_eq_nil_iff]
    exact h
  rw [next_of_layout hleft]
  refine ⟨hleft, ?_⟩
  show s.cursor.skipLayout.position = _
  rw [Cursor.position_skipLayout, List.takeWhile_eq_self_iff.mpr h]
  rfl

namespace Stands

variable {segments : List Segment} {tail : Bytes} {k : ℕ} {s : TokenStream}

theorem start (segments : List Segment) (tail : Bytes) :
    Stands segments tail 0 (.ofBytes (Segment.join segments tail)) :=
  within [] segments rfl rfl rfl

/-- **One token.** The stream hands out the token at its index and moves to the next. -/
theorem next (hcut : Segmented segments tail) (h : Stands segments tail k s) :
    (Tape.ofSegments segments tail).token? k = some s.next.1 ∧
      (k < segments.length ↔ s.next.1.isEnd = false) ∧
      Stands segments tail ((Tape.ofSegments segments tail).after k) s.next.2 := by
  have hlast := Tape.last_ofSegments hcut
  have hend := Tape.getElem?_last hcut
  rw [hlast] at hend
  rw [Tape.token?, Tape.after, hlast]
  cases h with
  | within front later hsplit hahead hposition =>
    cases later with
    | cons segment later =>
      have hlt : front.length < segments.length := by
        rw [hsplit, List.length_append, List.length_cons]
        omega
      have hlater := hcut
      rw [hsplit] at hlater
      obtain ⟨hgap, hrule, -⟩ := (segmented_cons_iff segment later tail).mp hlater.of_append
      rw [Segment.join_cons] at hahead
      obtain ⟨htoken, hrest, hmoved⟩ := TokenStream.next_of_segment hgap hrule hahead
      rw [Nat.min_eq_left hlt.le, Nat.min_eq_left (by omega)]
      refine ⟨?_, ?_, ?_⟩
      · rw [htoken, hposition]
        exact getElem?_tokenize hcut hsplit
      · have hkind : s.next.1.isEnd = false := by
          rw [Token.isEnd_eq_false_iff, htoken]
          exact hrule.kind_ne_endOfInput
        exact ⟨fun _ => hkind, fun _ => hlt⟩
      · rw [← List.length_singleton (a := segment), ← List.length_append]
        refine within (front ++ [segment]) later (by rw [hsplit, List.append_assoc]; rfl) hrest ?_
        rw [hmoved, hposition, List.foldl_append]
        rfl
    | nil =>
      rw [List.append_nil] at hsplit
      subst hsplit
      have hlayout : s.cursor.ahead.AllLayout := by
        rw [hahead]
        exact hcut.ends
      have htoken := TokenStream.next_of_allLayout hlayout
      obtain ⟨hrest, hmoved⟩ := TokenStream.next_later_of_allLayout hlayout
      rw [hahead, Segment.join_nil, hposition] at htoken hmoved
      rw [Nat.min_self, Nat.min_self, hend, htoken]
      exact ⟨rfl, by simp [Token.isEnd], beyond hrest hmoved⟩
  | beyond hahead hposition =>
    have hlayout : s.cursor.ahead.AllLayout := by
      rw [hahead]
      exact fun _ hb => absurd hb List.not_mem_nil
    have htoken := TokenStream.next_of_allLayout hlayout
    obtain ⟨hrest, hmoved⟩ := TokenStream.next_later_of_allLayout hlayout
    rw [hahead, Position.through_nil, hposition] at htoken hmoved
    rw [Nat.min_eq_right (by omega), Nat.min_eq_right (by omega), hend, htoken]
    refine ⟨rfl, ?_, beyond hrest hmoved⟩
    simp [Token.isEnd]

theorem next? (hcut : Segmented segments tail) (h : Stands segments tail k s) :
    (Tape.ofSegments segments tail).next? k =
      if s.next.1.isEnd then none else some s.next.1 := by
  obtain ⟨htoken, hlt, -⟩ := h.next hcut
  rw [Tape.next?, Tape.last_ofSegments hcut]
  cases hend : s.next.1.isEnd with
  | true => exact if_neg fun hk => by rw [hlt.mp hk] at hend; cases hend
  | false =>
    have hk := hlt.mpr hend
    rw [Tape.token?, Tape.last_ofSegments hcut, Nat.min_eq_left hk.le] at htoken
    rw [if_pos hk, htoken]
    rfl

/-! ## Several tokens -/

theorem take (hcut : Segmented segments tail) (h : Stands segments tail k s) (n : ℕ) :
    (s.take n).1.filter (!·.isEnd) = ((Tape.ofSegments segments tail).take n k).1 ∧
      Stands segments tail ((Tape.ofSegments segments tail).take n k).2 (s.take n).2 := by
  induction n generalizing k s with
  | zero => exact ⟨rfl, h⟩
  | succ n ih =>
    have hnext := h.next? hcut
    obtain ⟨-, -, hmoved⟩ := h.next hcut
    rw [TokenStream.take_succ, Tape.take]
    cases hend : s.next.1.isEnd with
    | true =>
      rw [hend, if_pos rfl] at hnext
      rw [hnext, if_pos rfl]
      exact ⟨by simp [hend], hmoved⟩
    | false =>
      rw [hend, if_neg Bool.false_ne_true] at hnext
      obtain ⟨htaken, hlater⟩ := ih hmoved
      rw [hnext, if_neg Bool.false_ne_true]
      refine ⟨?_, hlater⟩
      rw [List.filter_cons_of_pos (by simp [hend]), htaken]

theorem nth (hcut : Segmented segments tail) (h : Stands segments tail k s) (n : ℕ) :
    TokenStream.answerAt n (s.take (n + 1)).1 =
        .ofToken? ((Tape.ofSegments segments tail).nth n k).1 ∧
      Stands segments tail ((Tape.ofSegments segments tail).nth n k).2 (s.take (n + 1)).2 := by
  induction n generalizing k s with
  | zero =>
    have hnext := h.next? hcut
    obtain ⟨-, -, hmoved⟩ := h.next hcut
    rw [TokenStream.take_succ, TokenStream.take_zero, Tape.nth, hnext]
    cases hend : s.next.1.isEnd with
    | true => exact ⟨by simp [TokenStream.answerAt, hend, Answer.ofToken?], hmoved⟩
    | false => exact ⟨by simp [TokenStream.answerAt, hend, Answer.ofToken?], hmoved⟩
  | succ n ih =>
    have hnext := h.next? hcut
    obtain ⟨-, -, hmoved⟩ := h.next hcut
    rw [TokenStream.take_succ, Tape.nth]
    cases hend : s.next.1.isEnd with
    | true =>
      rw [hend, if_pos rfl] at hnext
      rw [hnext, if_pos rfl]
      exact ⟨by simp [TokenStream.answerAt, Answer.ofToken?], hmoved⟩
    | false =>
      rw [hend, if_neg Bool.false_ne_true] at hnext
      rw [hnext, if_neg Bool.false_ne_true]
      exact ih hmoved

theorem length_le (hcut : Segmented segments tail) (h : Stands segments tail k s) :
    segments.length ≤ k + s.cursor.ahead.length := by
  cases h with
  | within front later hsplit hahead =>
    have hlater := hcut
    rw [hsplit] at hlater
    rw [hahead, hsplit, List.length_append]
    exact Nat.add_le_add_left hlater.of_append.length_le _
  | beyond => omega

theorem collect (hcut : Segmented segments tail) (h : Stands segments tail k s) :
    (s.take s.allCount).1.filter (!·.isEnd) = ((Tape.ofSegments segments tail).collect k).1 ∧
      Stands segments tail ((Tape.ofSegments segments tail).collect k).2 (s.take s.allCount).2 := by
  have hcount : (Tape.ofSegments segments tail).last ≤ k + s.cursor.ahead.length := by
    rw [Tape.last_ofSegments hcut]
    exact h.length_le hcut
  rw [Tape.collect_eq_take hcount]
  exact h.take hcut s.allCount

/-! ## Requests -/

theorem position? (hcut : Segmented segments tail) (h : Stands segments tail k s) :
    (Tape.ofSegments segments tail).position? k = some s.position := by
  rw [Tape.position?, Tape.last_ofSegments hcut]
  cases h with
  | within front later hsplit hahead hposition =>
    rw [hposition]
    induction front using List.reverseRecOn with
    | nil => rfl
    | append_singleton front segment _ =>
      have hlength : (front ++ [segment]).length = front.length + 1 := List.length_append
      have hle : front.length + 1 ≤ segments.length := by
        rw [← hlength, hsplit]
        exact (List.prefix_append _ _).length_le
      rw [List.append_assoc] at hsplit
      have htoken := getElem?_tokenize hcut hsplit
      have hsize : (Tape.ofSegments segments tail).sizes[front.length]? =
          some segment.lexeme.length := by
        rw [Tape.ofSegments, hsplit]
        simp
      rw [hlength, if_neg (Nat.succ_ne_zero _), if_pos hle, Nat.add_sub_cancel, hsize]
      show (match (tokenize (Segment.join segments tail))[front.length]?, some _ with
        | some t, some size => some (t.position.rightBy size)
        | _, _ => none) = _
      rw [htoken, List.foldl_append]
      rfl
  | beyond hahead hposition =>
    have hend := Tape.getElem?_last hcut
    rw [Tape.last_ofSegments hcut] at hend
    rw [if_neg (Nat.succ_ne_zero _), if_neg (by omega), hend, hposition]
    rfl

/-- **One request** is answered alike by the stream and by the list, and moves both alike. -/
theorem ask (hcut : Segmented segments tail) (h : Stands segments tail k s) (r : Request) :
    (s.ask r).answer = ((Tape.ofSegments segments tail).answer k r).1 ∧
      Stands segments tail ((Tape.ofSegments segments tail).answer k r).2 (s.ask r).later := by
  obtain ⟨htoken, -, hmoved⟩ := h.next hcut
  cases r with
  | token =>
    have hfirst : (s.take 1).1.head? = some s.next.1 ∧ (s.take 1).2 = s.next.2 := by
      rw [TokenStream.take_succ]
      split <;> exact ⟨rfl, rfl⟩
    obtain ⟨hhead, hlater⟩ := hfirst
    refine ⟨?_, ?_⟩
    · show Request.answer (s.take 1).1 (s.take 1).2 .token = _
      rw [Tape.answer, htoken, Request.answer, hhead]
      rfl
    · show Stands segments tail _ (s.take 1).2
      rw [hlater]
      exact hmoved
  | next => exact h.nth hcut 0
  | nth n => exact h.nth hcut n
  | take n =>
    obtain ⟨htaken, hlater⟩ := h.take hcut n
    exact ⟨congrArg Answer.tokens htaken, hlater⟩
  | collect =>
    obtain ⟨htaken, hlater⟩ := h.collect hcut
    exact ⟨congrArg Answer.tokens htaken, hlater⟩
  | count =>
    obtain ⟨htaken, hlater⟩ := h.collect hcut
    exact ⟨congrArg (fun ts : List Token => Answer.count ts.length) htaken, hlater⟩
  | position =>
    have hposition := h.position? hcut
    rw [Tape.answer, hposition]
    exact ⟨rfl, h⟩

theorem answers (hcut : Segmented segments tail) (h : Stands segments tail k s)
    (requests : List Request) :
    s.answers requests = (Tape.ofSegments segments tail).answers k requests := by
  induction requests generalizing k s with
  | nil => rfl
  | cons r later ih =>
    obtain ⟨hanswer, hmoved⟩ := h.ask hcut r
    rw [TokenStream.answers, Tape.answers, hanswer, ih hmoved]

/-- An answer that tells of the end of input is given when it is taken. -/
theorem index_of_isOver (hcut : Segmented segments tail) (h : Stands segments tail k s)
    {r : Request} (hover : ((Tape.ofSegments segments tail).answer k r).1.isOver = true) :
    ((Tape.ofSegments segments tail).answer k r).2 = segments.length + 1 := by
  cases r with
  | token =>
    obtain ⟨htoken, hlt, -⟩ := h.next hcut
    rw [Tape.answer, htoken] at hover
    have hk : ¬ k < segments.length := fun hk => by
      rw [Answer.ofToken?, Answer.isOver, hlt.mp hk] at hover
      cases hover
    show (Tape.ofSegments segments tail).after k = _
    rw [Tape.after_of_le (by rw [Tape.last_ofSegments hcut]; omega), Tape.last_ofSegments hcut]
  | next => exact Tape.nth_of_isOver hcut (n := 0) hover
  | nth n => exact Tape.nth_of_isOver hcut hover
  | take _ | collect | count => cases hover
  | position =>
    rw [Tape.answer, h.position? hcut] at hover
    cases hover

/-- After an answer that tells of the end of input, all others tell of it. -/
theorem answers_of_isOver (hcut : Segmented segments tail) (h : Stands segments tail k s)
    {front later : List Request} {r : Request} {a : Answer}
    (ha : (s.answers (front ++ r :: later))[front.length]? = some a) (hover : a.isOver = true) :
    (s.answers (front ++ r :: later)).drop (front.length + 1) =
      later.map (Request.answerAtEnd (endFrom .start tail segments)) := by
  induction front generalizing k s with
  | nil =>
    obtain ⟨hanswer, hmoved⟩ := h.ask hcut r
    obtain rfl : (s.ask r).answer = a := by simpa [TokenStream.answers] using ha
    rw [hanswer] at hover
    rw [h.index_of_isOver hcut hover] at hmoved
    rw [← Tape.answers_beyond hcut, ← hmoved.answers hcut]
    rfl
  | cons first front ih =>
    obtain ⟨-, hmoved⟩ := h.ask hcut first
    exact ih hmoved ha

end Stands

/-- The column behind a token is its own and the number of its bytes: in a source that can be
counted in 32 bits nothing is cut off. -/
theorem column_rightBy_ofSegments {segments : List Segment} {tail : Bytes}
    (hcut : Segmented segments tail)
    (hlength : (Segment.join segments tail).length < 2 ^ 32 - 1) {i size : ℕ} {t : Token}
    (ht : (Tape.ofSegments segments tail).tokens[i]? = some t)
    (hsize : (Tape.ofSegments segments tail).sizes[i]? = some size) :
    (t.position.rightBy size).column.toNat = t.position.column.toNat + size := by
  obtain ⟨s, hs, rfl⟩ : ∃ s, segments[i]? = some s ∧ s.lexeme.length = size := by
    simpa [Tape.ofSegments] using hsize
  obtain ⟨hi, rfl⟩ := List.getElem?_eq_some_iff.mp hs
  have hsplit : segments = segments.take i ++ segments[i] :: segments.drop (i + 1) := by
    rw [← List.drop_eq_getElem_cons hi, List.take_append_drop]
  have htoken := getElem?_tokenize hcut hsplit
  rw [List.length_take, Nat.min_eq_left hi.le] at htoken
  obtain rfl := Option.some.inj (ht.symm.trans htoken)
  have hfront := reached_endFrom Position.reached_start (segments.take i) segments[i].gap
  have hbound : (Segment.join (segments.take i) segments[i].gap).length +
      segments[i].lexeme.length ≤ (Segment.join segments tail).length := by
    conv_rhs => rw [hsplit, Segment.join_append, Segment.join_eq_append, Segment.join_cons]
    rw [Segment.join_eq_append]
    simp only [List.length_append]
    omega
  obtain ⟨hline, -, hsum⟩ := hfront
  rw [endFrom] at hline hsum
  rw [Position.toNat_column_rightBy, UInt32.size]
  dsimp only at hline hsum ⊢
  omega

/-- **A stream is an index into its tokens.** However a source of fewer than 2^32 - 1 bytes is cut
    by the grammar: whatever a stream on it is asked, one request after the other, it answers as
    the list of its tokens does by an index that starts at zero. No column is cut off in these
    answers. Once the stream has answered that there is no token, or with the end of input, it
    does so to all later requests, and always with the same position. -/
theorem answers_eq_tape (source : Bytes) (hlength : source.length < 2 ^ 32 - 1) :
    (∃ segments tail, source = Segment.join segments tail ∧ Segmented segments tail) ∧
    ∀ segments tail, source = Segment.join segments tail → Segmented segments tail →
      let T : Tape := ⟨tokenize source, segments.map (·.lexeme.length)⟩
      (∀ requests, (TokenStream.ofBytes source).answers requests = T.answers 0 requests) ∧
      (∀ (i size : ℕ) (t : Token), T.tokens[i]? = some t → T.sizes[i]? = some size →
        (t.position.rightBy size).column.toNat = t.position.column.toNat + size) ∧
      ∃ last : Token, T.tokens.getLast? = some last ∧ last.isEnd = true ∧
        ∀ front r later a,
          ((TokenStream.ofBytes source).answers (front ++ r :: later))[front.length]? = some a →
          a.isOver = true →
          ((TokenStream.ofBytes source).answers (front ++ r :: later)).drop (front.length + 1) =
            later.map (Request.answerAtEnd last) := by
  refine ⟨exists_segmented source, ?_⟩
  rintro segments tail rfl hcut T
  have hstart := Stands.start segments tail
  refine ⟨hstart.answers hcut, fun i size t => column_rightBy_ofSegments hcut hlength, ?_⟩
  refine ⟨endFrom .start tail segments, ?_, rfl, fun _ _ _ _ => hstart.answers_of_isOver hcut⟩
  show (tokenize (Segment.join segments tail)).getLast? = _
  rw [tokenize_join hcut, List.getLast?_concat]

/-- `ab ==`, asked across its end: the word, the place behind it, the symbol after none left out, the
place behind that one, and then the end of input for ever. -/
theorem answers_comparison :
    (Bytes.ofString "ab ==\n").length < 2 ^ 32 - 1 ∧
      (TokenStream.ofBytes (Bytes.ofString "ab ==\n")).answers
          [.position, .token, .position, .nth 0, .position, .take 3, .position, .token, .next] =
        [.position ⟨1, 1⟩, .token ⟨.identifier (.ofString "ab"), ⟨1, 1⟩⟩, .position ⟨1, 3⟩,
          .token ⟨.equal, ⟨1, 4⟩⟩, .position ⟨1, 6⟩, .tokens [], .position ⟨2, 1⟩,
          .token ⟨.endOfInput, ⟨2, 1⟩⟩, .noToken] := by
  have hlength : (Bytes.ofString "ab ==\n").length < 2 ^ 32 - 1 := by decide
  have hword : TokenRule (Bytes.ofString "ab") (some Bytes.space) (.identifier (.ofString "ab")) := by
    refine .identifier ⟨by decide, List.all_eq_true.mp (by decide), ?_⟩ ?_
    · rintro b ⟨⟩
      decide
    · intro k
      cases k <;> decide
  have hcut : Segmented
      [⟨[], Bytes.ofString "ab", .identifier (.ofString "ab")⟩,
        ⟨[Bytes.space], Bytes.ofString "==", .equal⟩] [Bytes.lineFeed] := by
    rw [segmented_cons_iff, segmented_cons_iff, segmented_nil_iff]
    exact ⟨by decide, hword, by decide, .equal, by decide⟩
  obtain ⟨-, hall⟩ := answers_eq_tape _ hlength
  obtain ⟨hanswers, -⟩ := hall _ _ (by decide) hcut
  exact ⟨hlength, (hanswers _).trans (by decide)⟩

end Lexing
