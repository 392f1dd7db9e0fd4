import Lexing.Proofs.Printing
import Lexing.Proofs.Resumption

/-!
# Listing step by step

A listing is defined as the tokens of a source, printed one after the other. It can be made with less
in hand: take a token, write its text piece by piece, offer what is left of a piece until the sink has
taken all of it, sum up the token, and only then look at the rest of the source. Both come to the same,
on every sink and for all pieces. So a sink that runs full keeps a front part of the listing, wherever
the limit falls, and the summary counts the tokens up to the end of input.

Results:

* `Sink.writeAll_eq_write`: a write is made in as many calls as the sink wants.
* `Console.forM_write`: pieces are written like their concatenation.
* `TokenStream.rest_of_isEnd`, `TokenStream.rest_of_not_isEnd`: the tokens to come, by the next one.
* `Listing.printOnward_eq`: what the loop does from any token on.
* `Listing.printOnward_run`: the listing on a sink that runs full.
-/

namespace Lexing

/-! ## Writing in calls -/

namespace Sink

/-- One call of the sink's own write: how many bytes it takes. If there is room this is the first byte
and as many of the others as fit, but not more than `share` says. A sink that is full raises its
fault; if this is `writeZero` then it only answers that it took nothing. -/
def offer (share : Sink → Bytes → ℕ) (bytes : Bytes) (s : Sink) : Except Fault ℕ :=
  match s.fitting bytes with
  | [] => if s.refusal = .writeZero then .ok 0 else .error s.refusal
  | _ :: others => .ok (min others.length (share s bytes) + 1)

/-- Offers bytes until all of them are taken. A sink that takes nothing is at fault. -/
def writeAll (share : Sink → Bytes → ℕ) (bytes : Bytes) (s : Sink) : Sink × Option Fault :=
  match bytes with
  | [] => (s, none)
  | b :: rest =>
    match s.offer share (b :: rest) with
    | .error fault => (s, some fault)
    | .ok 0 => (s, some .writeZero)
    | .ok (count + 1) => writeAll share (rest.drop count) (s.write ((b :: rest).take (count + 1))).1
termination_by bytes.length
decreasing_by
  rw [List.length_drop, List.length_cons]
  omega

/-- All that a write does, from the part that fits. -/
theorem write_eq (bytes : Bytes) (s : Sink) :
    s.write bytes =
      ({ s with
          accepted := s.accepted.appendList (s.fitting bytes)
          room := s.room.map (· - (s.fitting bytes).length) },
        if s.fitting bytes = bytes then none else some s.refusal) := by
  unfold write fitting
  split
  next h => rw [if_pos rfl, h]; rfl
  next room h =>
    rw [h, Option.map_some]
    by_cases hfits : room < bytes.length
    · simp [hfits]
    · simp [hfits]

theorem length_fitting_le (bytes : Bytes) (s : Sink) : (s.fitting bytes).length ≤ bytes.length := by
  unfold fitting
  split
  · exact le_rfl
  · exact List.length_take_le' _ _

theorem fitting_of_length_le {front bytes : Bytes} {s : Sink}
    (hle : front.length ≤ (s.fitting bytes).length) : s.fitting front = front := by
  unfold fitting at hle ⊢
  cases hroom : s.room with
  | none => rfl
  | some room =>
    rw [hroom, List.length_take] at hle
    exact List.take_of_length_le (by omega)

theorem fitting_append_of_fits {bytes : Bytes} {s : Sink} (h : s.fitting bytes = bytes)
    (more : Bytes) : s.fitting (bytes ++ more) = bytes ++ (s.write bytes).1.fitting more := by
  rw [write_eq, h]
  unfold fitting at h ⊢
  cases hroom : s.room with
  | none => rfl
  | some room =>
    rw [hroom] at h
    simp only [List.take_eq_self_iff] at h
    simp only [Option.map_some, List.take_append, List.take_of_length_le h]

theorem fitting_append_of_ne {bytes : Bytes} {s : Sink} (h : s.fitting bytes ≠ bytes)
    (more : Bytes) : s.fitting (bytes ++ more) = s.fitting bytes := by
  unfold fitting at h ⊢
  cases hroom : s.room with
  | none => rw [hroom] at h; exact absurd rfl h
  | some room =>
    rw [hroom] at h
    simp only [ne_eq, List.take_eq_self_iff] at h
    exact List.take_append_of_le_length (by omega)

theorem write_nil (s : Sink) : s.write [] = (s, none) := by
  have hfits : s.fitting [] = [] :=
    List.length_eq_zero_iff.mp (Nat.le_zero.mp (length_fitting_le [] s))
  rw [write_eq, hfits, if_pos rfl]
  rcases s with ⟨accepted, _ | room, refusal, flushes, failingFlush⟩ <;> simp

/-- Behind a write that fits, more is written as if both were one write. -/
theorem write_append_of_fits {bytes : Bytes} {s : Sink} (h : s.fitting bytes = bytes)
    (more : Bytes) : s.write (bytes ++ more) = (s.write bytes).1.write more := by
  have hthen := write_eq more (s.write bytes).1
  rw [write_eq (bytes ++ more), fitting_append_of_fits h, hthen]
  generalize (s.write bytes).1.fitting more = taken
  have haccepted : s.accepted.appendList (bytes ++ taken) =
      (s.accepted.appendList bytes).appendList taken := Array.toList_inj.mp (by simp)
  rw [write_eq bytes, h, haccepted]
  simp only [List.append_cancel_left_eq, Option.map_map, Function.comp_def, List.length_append,
    Nat.sub_sub]

/-- Behind a write that does not fit, more makes no difference. -/
theorem write_append_of_ne {bytes : Bytes} {s : Sink} (h : s.fitting bytes ≠ bytes)
    (more : Bytes) : s.write (bytes ++ more) = s.write bytes := by
  have hsome : s.fitting bytes ≠ bytes ++ more := by
    intro heq
    have hle := length_fitting_le bytes s
    rw [heq, List.length_append] at hle
    rw [List.length_eq_zero_iff.mp (by omega : more.length = 0), List.append_nil] at heq
    exact h heq
  rw [write_eq (bytes ++ more), fitting_append_of_ne h, write_eq bytes, if_neg h, if_neg hsome]

/-- **A write is made in as many calls as the sink wants.** How many bytes it takes at each of them does
not show. -/
theorem writeAll_eq_write (share : Sink → Bytes → ℕ) (bytes : Bytes) (s : Sink) :
    s.writeAll share bytes = s.write bytes := by
  induction hn : bytes.length using Nat.strongRecOn generalizing bytes s with
  | _ n ih =>
    cases bytes with
    | nil => rw [writeAll, write_nil]
    | cons b rest =>
      rw [writeAll, offer]
      cases hfits : s.fitting (b :: rest) with
      | nil =>
        have hfault : s.write (b :: rest) = (s, some s.refusal) := by
          rw [write_eq, hfits, if_neg (List.cons_ne_nil b rest).symm]
          rcases s with ⟨accepted, _ | room, refusal, flushes, failingFlush⟩ <;> simp
        rw [hfault]
        by_cases hzero : s.refusal = .writeZero
        · simp only [hzero, if_true]
        · simp only [if_neg hzero]
      | cons first others =>
        have hcount : min others.length (share s (b :: rest)) ≤ others.length := min_le_left _ _
        dsimp only
        generalize min others.length (share s (b :: rest)) = count at hcount ⊢
        have hfront : s.fitting ((b :: rest).take (count + 1)) = (b :: rest).take (count + 1) := by
          apply fitting_of_length_le
          rw [hfits, List.length_take]
          simp only [List.length_cons]
          omega
        have hsplit : (b :: rest).take (count + 1) ++ rest.drop count = b :: rest :=
          List.take_append_drop (count + 1) (b :: rest)
        have hless : (rest.drop count).length < n := by
          rw [← hn, List.length_drop, List.length_cons]
          omega
        rw [ih _ hless _ _ rfl, ← write_append_of_fits hfront, hsplit]

end Sink

namespace Console

/-- Writes bytes in as many calls as the sink wants. -/
def writeAll (share : Sink → Bytes → ℕ) (bytes : Bytes) : ConsoleM Fault Unit :=
  onSink (Sink.writeAll share bytes)

theorem writeAll_eq_write (share : Sink → Bytes → ℕ) : writeAll share = write := by
  funext bytes
  rw [writeAll, write]
  congr 1
  funext s
  exact s.writeAll_eq_write share bytes

theorem write_append (bytes more : Bytes) :
    write (bytes ++ more) = (do write bytes; write more) := by
  funext c
  show (write (bytes ++ more)).run c = (write bytes >>= fun _ => write more).run c
  rw [EStateM.run_bind, write_run, write_run]
  cases hfault : (c.sink.write bytes).2 with
  | none =>
    have hfits := (Sink.write_fault_eq_none_iff bytes c.sink).mp hfault
    simp only [write_run, Sink.write_append_of_fits hfits]
  | some fault =>
    have hne : c.sink.fitting bytes ≠ bytes := fun hfits =>
      absurd ((Sink.write_fault_eq_none_iff bytes c.sink).mpr hfits) (by rw [hfault]; exact nofun)
    rw [Sink.write_append_of_ne hne, hfault]

/-- Pieces are written like their concatenation. -/
theorem forM_write (pieces : List Bytes) : forM pieces write = write pieces.flatten := by
  induction pieces with
  | nil =>
    funext c
    show (pure () : ConsoleM Fault Unit).run c = (write []).run c
    rw [write_run, Sink.write_nil]
    rfl
  | cons piece later ih =>
    rw [List.forM_cons, ih, List.flatten_cons, write_append]

end Console

/-! ## The tokens to come -/

namespace TokenStream

theorem rest_of_isEnd {s : TokenStream} (h : s.next.1.isEnd = true) : s.rest = [s.next.1] := by
  rw [rest, allCount, take_succ, if_pos h]

theorem rest_of_not_isEnd {s : TokenStream} (h : s.next.1.isEnd = false) :
    s.rest = s.next.1 :: s.next.2.rest := by
  rw [rest, allCount, take_succ, if_neg (Bool.eq_false_iff.mp h),
    take_eq_rest (length_ahead_next_lt h)]

end TokenStream

/-! ## The loop -/

namespace Listing

/-- Takes a token, writes it with `put`, sums it up, and goes on with the rest of the source. Nothing
is taken after the end of input. -/
def printOnward (put : Token → ConsoleM Fault Unit) (s : TokenStream) (sofar : Summary) :
    ConsoleM Fault Summary := do
  let t := s.next.1
  Console.record t.events
  put t
  if _h : t.isEnd then return sofar
  else printOnward put s.next.2 ⟨sofar.tokens + 1, sofar.illegal ++ t.illegal?.toList⟩
termination_by s.cursor.ahead.length
decreasing_by exact TokenStream.length_ahead_next_lt (Bool.eq_false_iff.mpr _h)

/-- **From any token on** the loop prints the tokens to come, and adds them to the summary. -/
theorem printOnward_eq (s : TokenStream) (sofar : Summary) :
    printOnward (fun t => Console.write (line t)) s sofar = (do
      printTokens s.rest
      return ⟨sofar.tokens + s.rest.countP (!·.isEnd),
        sofar.illegal ++ s.rest.filterMap Token.illegal?⟩) := by
  induction hn : s.cursor.ahead.length using Nat.strongRecOn generalizing s sofar with
  | _ n ih =>
    rw [printOnward]
    cases hend : s.next.1.isEnd with
    | true =>
      have hkind := (Token.isEnd_iff s.next.1).mp hend
      have hnone : s.next.1.illegal? = none := by
        rw [Token.illegal?, hkind]
      simp [TokenStream.rest_of_isEnd hend, printTokens, printToken, hend, hnone]
    | false =>
      have hless := TokenStream.length_ahead_next_lt hend
      rw [hn] at hless
      simp only [dif_neg Bool.false_ne_true]
      rw [ih _ hless _ _ rfl, TokenStream.rest_of_not_isEnd hend]
      have hcount : (s.next.1 :: s.next.2.rest).countP (!·.isEnd) =
          1 + s.next.2.rest.countP (!·.isEnd) := by
        rw [List.countP_cons_of_pos (by rw [hend]; rfl), Nat.add_comm]
      have hillegal : (s.next.1 :: s.next.2.rest).filterMap Token.illegal? =
          s.next.1.illegal?.toList ++ s.next.2.rest.filterMap Token.illegal? := by
        rw [List.filterMap_cons]
        cases s.next.1.illegal? <;> rfl
      simp only [printTokens, printToken, bind_assoc, hcount, hillegal, Nat.add_assoc,
        List.append_assoc]

theorem printOnward_eq_print (source : Bytes) :
    printOnward (fun t => Console.write (line t)) (.ofBytes source) ⟨0, []⟩ = print source := by
  rw [printOnward_eq, Nat.zero_add, List.nil_append]
  rfl

/-- The listing of a source is what the loop prints from the first token on, however it cuts the
lines and however many bytes the sink takes at a call. -/
theorem printOnward_ofBytes {cut : Token → List Bytes} (hcut : ∀ t, (cut t).flatten = line t)
    (share : Sink → Bytes → ℕ) (source : Bytes) :
    printOnward (fun t => forM (cut t) (Console.writeAll share)) (.ofBytes source) ⟨0, []⟩ =
      print source := by
  have hput : (fun t => forM (cut t) (Console.writeAll share)) = fun t => Console.write (line t) := by
    funext t
    rw [Console.writeAll_eq_write, Console.forM_write, hcut]
  rw [hput, printOnward_eq_print]

/-- What a sink with a limit holds after the listing of a source. -/
theorem print_run_limited (source : Bytes) (limit : ℕ) (refusal : Fault) :
    let console : Console := ⟨{ room := some limit, refusal }, #[]⟩
    ((bytes (tokenize source)).length ≤ limit →
      ∃ c, (print source).run console = .ok (.ofTokens (tokenize source)) c ∧
        c.sink.accepted.toList = bytes (tokenize source)) ∧
    (limit < (bytes (tokenize source)).length →
      ∃ c, (print source).run console = .error refusal c ∧
        c.sink.accepted.toList = (bytes (tokenize source)).take limit) := by
  intro console
  have hover : ∀ {fault : Fault}, Session.Conditions.fault? ⟨none, some limit, refusal, none⟩ []
      (.write (bytes (tokenize source))) = some fault ↔
      limit < (bytes (tokenize source)).length ∧ refusal = fault := by
    intro fault
    rw [Session.Conditions.fault?_write_eq_some_iff]
    simp [Session.written]
  have hconsole :
      Console.mk (Session.Conditions.sink ⟨none, some limit, refusal, none⟩) #[] = console := rfl
  have hshows := print_shows source (some limit) refusal #[]
  dsimp only at hshows
  rw [hconsole] at hshows
  cases hrun : (print source).run console with
  | ok summary c =>
    rw [hrun] at hshows
    obtain ⟨hnone, haccepted⟩ := hshows
    refine ⟨fun _ => ⟨c, by rw [summary_of_print hrun], haccepted⟩, fun hlt => ?_⟩
    rw [hover.mpr ⟨hlt, rfl⟩] at hnone
    cases hnone
  | error fault c =>
    rw [hrun] at hshows
    obtain ⟨hsome, haccepted⟩ := hshows
    obtain ⟨hlt, rfl⟩ := hover.mp hsome
    exact ⟨fun hle => absurd hlt (Nat.not_lt.mpr hle), fun _ => ⟨c, rfl, haccepted⟩⟩

/-- **A sink that runs full keeps a front part of the listing.** Tokens are taken from the source and
written one by one, each line in pieces and each piece in as many calls as the sink wants. If the
sink has room for the texts of all tokens, a line for each, then it holds them, and the summary has
the number of tokens before the end of input and the reports of the illegal ones. If not, the loop
ends with the fault of the sink, which holds as many bytes of the listing as it has room for. -/
theorem printOnward_run (source : Bytes) (limit : ℕ) (refusal : Fault) (share : Sink → Bytes → ℕ)
    (cut : Token → List Bytes)
    (hcut : ∀ t, (cut t).flatten = Bytes.ofString t.text ++ [Bytes.lineFeed]) :
    let all := (tokenize source).flatMap fun t => Bytes.ofString t.text ++ [Bytes.lineFeed]
    let console : Console := ⟨{ room := some limit, refusal }, #[]⟩
    let loop := printOnward (fun t => forM (cut t) (Console.writeAll share)) (.ofBytes source) ⟨0, []⟩
    loop = print source ∧
    (all.length ≤ limit →
      ∃ c, loop.run console =
          .ok ⟨(tokenize source).countP (!·.isEnd), (tokenize source).filterMap Token.illegal?⟩ c ∧
        c.sink.accepted.toList = all) ∧
    (limit < all.length →
      ∃ c, loop.run console = .error refusal c ∧ c.sink.accepted.toList = all.take limit) := by
  intro all console loop
  have hloop : loop = print source := printOnward_ofBytes hcut share source
  rw [hloop]
  exact ⟨rfl, print_run_limited source limit refusal⟩

/-- Two lines and the end of input, written byte by byte: a sink that takes 20 bytes is full behind the
position of the second token. -/
theorem printOnward_run_full :
    let cut (t : Token) : List Bytes := (line t).map fun b => [b]
    let loop := printOnward (fun t => forM (cut t) (Console.writeAll fun _ _ => 0))
      (.ofBytes (.ofString "@a")) ⟨0, []⟩
    let refusal : Fault := ⟨.brokenPipe, "Broken pipe (os error 32)"⟩
    (∃ c, loop.run ⟨{ room := some 20, refusal }, #[]⟩ = .error refusal c ∧
      c.sink.accepted.toList = Bytes.ofString "1:1: illegal \"@\"\n1:2") ∧
    ∃ c, loop.run ⟨{ room := some 36, refusal }, #[]⟩ = .ok ⟨2, [⟨0x40, ⟨1, 1⟩⟩]⟩ c ∧
      c.sink.accepted.toList = Bytes.ofString "1:1: illegal \"@\"\n1:2: ident \"a\"\neof\n" := by
  intro cut loop refusal
  have hcut : ∀ t, (cut t).flatten = Bytes.ofString t.text ++ [Bytes.lineFeed] := by
    intro t
    rw [← List.flatMap_def, List.flatMap_singleton']
    rfl
  obtain ⟨-, -, hfull⟩ := printOnward_run (.ofString "@a") 20 refusal (fun _ _ => 0) cut hcut
  obtain ⟨-, hroom, -⟩ := printOnward_run (.ofString "@a") 36 refusal (fun _ _ => 0) cut hcut
  obtain ⟨c, herror, hfront⟩ := hfull (by decide)
  obtain ⟨c', hok, hall⟩ := hroom (by decide)
  exact ⟨⟨c, herror, hfront.trans (by decide)⟩, ⟨c', hok, hall.trans (by decide)⟩⟩

end Listing

end Lexing
