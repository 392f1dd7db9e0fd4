import Mathlib.Data.List.Basic
import Mathlib.Data.List.TakeWhile
import Mathlib.Data.Nat.Notation
import Lexing.Channel.Source

/-!
# Lines of input

The input splits into lines at its line feeds: every line keeps its line feed, and the last line may
lack one. How a source cuts the input into chunks does not show in the lines it is read by. A
source that fails does so at an offset, which is the number of bytes that come before the fault, and
the read that fails is the first one that asks for a byte from there on.

Results:

* `Bytes.flatten_lines`, `Bytes.ne_nil_of_mem_lines`, `Bytes.lineFeed_notMem_dropLast`,
  `Bytes.getLast?_of_mem_dropLast_lines`: the lines are the parts of the input that end at line
  feeds.
* `Source.fault?_failingAt`: a source that is made to fail at an offset fails there.
* `Source.takes_readLine`: what reading one line brings, from the lines and the fault alone.
-/

namespace Lexing

/-! ## Splitting at line feeds -/

namespace Bytes

/-- The lines of an input, each with its line feed. The last one may lack it. -/
def lines : Bytes → List Bytes
  | [] => []
  | b :: rest =>
    if b = lineFeed then [b] :: lines rest
    else
      match lines rest with
      | [] => [[b]]
      | line :: later => (b :: line) :: later

/-- The first line of an input, or nothing if the input is empty. -/
def firstLine (bytes : Bytes) : Bytes := bytes.lines.headD []

theorem lines_lineFeed_cons (rest : Bytes) : lines (lineFeed :: rest) = [lineFeed] :: lines rest := by
  rw [lines, if_pos rfl]

theorem lines_cons_of_ne {b : UInt8} (h : b ≠ lineFeed) (rest : Bytes) :
    lines (b :: rest) = (b :: firstLine rest) :: rest.lines.tail := by
  rw [lines, if_neg h, firstLine]
  cases lines rest with
  | nil => rfl
  | cons line later => rfl

/-- Bytes without a line feed lengthen the first line of what follows them. -/
theorem lines_append {front : Bytes} (hfront : lineFeed ∉ front) (hne : front ≠ []) (rest : Bytes) :
    lines (front ++ rest) = (front ++ firstLine rest) :: rest.lines.tail := by
  induction front with
  | nil => exact absurd rfl hne
  | cons b more ih =>
    have hb : b ≠ lineFeed := fun h => hfront (h ▸ List.mem_cons_self)
    have hmore : lineFeed ∉ more := fun h => hfront (List.mem_cons_of_mem _ h)
    rw [List.cons_append, lines_cons_of_ne hb]
    by_cases hnil : more = []
    · rw [hnil]
      rfl
    · rw [firstLine, ih hmore hnil]
      rfl

theorem lines_append_of_eq_cons {front : Bytes} (hfront : lineFeed ∉ front) {rest line : Bytes}
    {later : List Bytes} (h : rest.lines = line :: later) :
    lines (front ++ rest) = (front ++ line) :: later := by
  by_cases hne : front = []
  · rw [hne, List.nil_append, List.nil_append, h]
  · rw [lines_append hfront hne, firstLine, h, List.headD_cons, List.tail_cons]

theorem lines_append_lineFeed {front : Bytes} (hfront : lineFeed ∉ front) (rest : Bytes) :
    lines (front ++ lineFeed :: rest) = (front ++ [lineFeed]) :: lines rest := by
  by_cases hne : front = []
  · rw [hne, List.nil_append, lines_lineFeed_cons]
    rfl
  · rw [lines_append hfront hne, firstLine, lines_lineFeed_cons]
    rfl

/-- Texts without a line feed, each with one added, are the lines of all of them in a row. -/
theorem lines_flatMap {α : Type} {text : α → Bytes} (htext : ∀ a, lineFeed ∉ text a) (l : List α) :
    lines (l.flatMap fun a => text a ++ [lineFeed]) = l.map fun a => text a ++ [lineFeed] := by
  induction l with
  | nil => rfl
  | cons a later ih =>
    rw [List.flatMap_cons, List.append_assoc, List.singleton_append,
      lines_append_lineFeed (htext a), ih, List.map_cons]

theorem lines_of_notMem {bytes : Bytes} (h : lineFeed ∉ bytes) (hne : bytes ≠ []) :
    bytes.lines = [bytes] := by
  have := lines_append h hne []
  rwa [List.append_nil, firstLine, lines, List.headD_nil, List.append_nil, List.tail_nil] at this

theorem firstLine_append {front : Bytes} (hfront : lineFeed ∉ front) (rest : Bytes) :
    firstLine (front ++ rest) = front ++ firstLine rest := by
  by_cases hne : front = []
  · rw [hne, List.nil_append, List.nil_append]
  · rw [firstLine, lines_append hfront hne, List.headD_cons]

/-- Induction over the lines of an input: it is empty, or an unfinished line, or a line with its
line feed and the input after it. -/
theorem lines_induction {motive : Bytes → Prop} (nil : motive [])
    (unfinished : ∀ line, lineFeed ∉ line → line ≠ [] → motive line)
    (finished : ∀ front rest, lineFeed ∉ front → motive rest → motive (front ++ lineFeed :: rest))
    (bytes : Bytes) : motive bytes := by
  by_cases h : lineFeed ∈ bytes
  · obtain ⟨front, rest, heq, hfront⟩ := List.eq_append_cons_of_mem h
    have hshorter : rest.length < bytes.length := by
      rw [heq, List.length_append, List.length_cons]
      omega
    rw [heq]
    exact finished front rest hfront (lines_induction nil unfinished finished rest)
  · by_cases hne : bytes = []
    · rw [hne]
      exact nil
    · exact unfinished bytes h hne
termination_by bytes.length

/-- The lines in order are the input. -/
theorem flatten_lines (bytes : Bytes) : bytes.lines.flatten = bytes := by
  induction bytes using lines_induction with
  | nil => rfl
  | unfinished line h hne => rw [lines_of_notMem h hne, List.flatten_singleton]
  | finished front rest h ih =>
    rw [lines_append_lineFeed h, List.flatten_cons, ih, List.append_assoc, List.singleton_append]

theorem ne_nil_of_mem_lines {bytes line : Bytes} (h : line ∈ bytes.lines) : line ≠ [] := by
  induction bytes using lines_induction with
  | nil => cases h
  | unfinished text htext hne =>
    rw [lines_of_notMem htext hne, List.mem_singleton] at h
    rwa [h]
  | finished front rest hfront ih =>
    rw [lines_append_lineFeed hfront, List.mem_cons] at h
    obtain rfl | h := h
    · exact List.append_ne_nil_of_right_ne_nil _ (List.cons_ne_nil _ _)
    · exact ih h

/-- A line feed stands nowhere in a line but at its end. -/
theorem lineFeed_notMem_dropLast {bytes line : Bytes} (h : line ∈ bytes.lines) :
    lineFeed ∉ line.dropLast := by
  induction bytes using lines_induction with
  | nil => cases h
  | unfinished text htext hne =>
    rw [lines_of_notMem htext hne, List.mem_singleton] at h
    rw [h]
    exact fun hmem => htext (List.dropLast_subset text hmem)
  | finished front rest hfront ih =>
    rw [lines_append_lineFeed hfront, List.mem_cons] at h
    obtain rfl | h := h
    · rwa [List.dropLast_concat]
    · exact ih h

/-- Every line but the last ends with a line feed. -/
theorem getLast?_of_mem_dropLast_lines {bytes line : Bytes} (h : line ∈ bytes.lines.dropLast) :
    line.getLast? = some lineFeed := by
  induction bytes using lines_induction with
  | nil => cases h
  | unfinished text htext hne =>
    rw [lines_of_notMem htext hne] at h
    cases h
  | finished front rest hfront ih =>
    rw [lines_append_lineFeed hfront] at h
    by_cases hlater : rest.lines = []
    · rw [hlater] at h
      cases h
    · rw [List.dropLast_cons_of_ne_nil hlater, List.mem_cons] at h
      obtain rfl | h := h
      · exact List.getLast?_concat
      · exact ih h

example : lines (.ofString "a\n\nb") = [.ofString "a\n", .ofString "\n", .ofString "b"] := by
  decide

/-! ## What reading a line asks for -/

/-- The number of bytes that must be asked for to read a line. A line without a line feed, and the
end of the input, is recognised only by asking for a byte that is not there. -/
def asked (line : Bytes) : ℕ :=
  if line.getLast? = some lineFeed then line.length else line.length + 1

theorem asked_concat_lineFeed (front : Bytes) : asked (front ++ [lineFeed]) = front.length + 1 := by
  rw [asked, if_pos List.getLast?_concat, List.length_append, List.length_singleton]

theorem asked_of_notMem {text : Bytes} (h : lineFeed ∉ text) : asked text = text.length + 1 :=
  if_neg fun hlast => h (List.mem_of_getLast? hlast)

theorem asked_pos (line : Bytes) : 0 < asked line := by
  rw [asked]
  split
  next h => exact List.length_pos_of_mem (List.mem_of_getLast? h)
  next => omega

theorem asked_append {front : Bytes} (hfront : lineFeed ∉ front) (text : Bytes) :
    asked (front ++ text) = front.length + asked text := by
  by_cases hne : text = []
  · rw [hne, List.append_nil, asked_of_notMem hfront]
    rfl
  · rw [asked, asked, List.getLast?_append_of_ne_nil _ hne, List.length_append]
    split <;> omega

end Bytes

/-! ## Where a source fails -/

namespace Source

/-- A fault with its offset, as it is seen from a place some bytes earlier. -/
def delay (n : ℕ) (fault : Option (ℕ × Fault)) : Option (ℕ × Fault) :=
  fault.map fun (offset, fault) => (n + offset, fault)

theorem delay_delay (m n : ℕ) (fault : Option (ℕ × Fault)) :
    delay m (delay n fault) = delay (m + n) fault := by
  rw [delay, delay, delay, Option.map_map]
  congr 1
  funext ⟨offset, fault⟩
  simp only [Function.comp_apply, Nat.add_assoc]

theorem delay_eq_some_iff {n offset : ℕ} {fault : Option (ℕ × Fault)} {f : Fault} :
    delay n fault = some (offset, f) ↔ ∃ before, fault = some (before, f) ∧ offset = n + before := by
  rw [delay, Option.map_eq_some_iff]
  constructor
  · rintro ⟨⟨before, _⟩, hfault, heq⟩
    cases heq
    exact ⟨before, hfault, rfl⟩
  · rintro ⟨before, hfault, rfl⟩
    exact ⟨(before, f), hfault, rfl⟩

/-- The first fault of a source that is not an interruption, with the number of bytes before it. -/
def fault? : Source → Option (ℕ × Fault)
  | [] => none
  | .fault fault :: later => if fault.kind = .interrupted then fault? later else some (0, fault)
  | .bytes chunk :: later => delay chunk.length (fault? later)

theorem fault?_append_fault {before : Source} (h : before.fault? = none) {fault : Fault}
    (hfault : fault.kind ≠ .interrupted) (later : Source) :
    fault? (before ++ .fault fault :: later) = some (before.content.length, fault) := by
  fun_induction fault? before with
  | case1 => exact if_neg hfault
  | case2 other rest hother ih =>
    rw [List.cons_append, fault?, if_pos hother, content]
    exact ih h
  | case3 other rest hother => cases h
  | case4 chunk rest ih =>
    rw [delay, Option.map_eq_none_iff] at h
    rw [List.cons_append, fault?, ih h, content, List.length_append]
    rfl

theorem fault?_chunks (size : ℕ) (bytes : Bytes) : (chunks size bytes).fault? = none := by
  fun_induction chunks size bytes with
  | case1 => rfl
  | case2 bytes h ih => rw [fault?, ih, delay, Option.map_none]

theorem fault?_sized (size : Option ℕ) (bytes : Bytes) : (sized size bytes).fault? = none := by
  cases size with
  | none => rfl
  | some size => exact fault?_chunks size bytes

/-- A source that is made to fail at an offset of its input fails there, in whatever chunks the
input arrives. -/
theorem fault?_failingAt {size : Option ℕ} (hsize : size ≠ some 0) {fault : Fault}
    (hfault : fault.kind ≠ .interrupted) {offset : ℕ} {bytes : Bytes}
    (hoffset : offset ≤ bytes.length) :
    (failingAt offset fault size bytes).fault? = some (offset, fault) := by
  have hbefore : (sized size (bytes.take offset)).content.length = offset := by
    rw [content_sized hsize, List.length_take]
    omega
  rw [failingAt, if_pos hbefore, fault?_append_fault (fault?_sized _ _) hfault, hbefore]

end Source

/-! ## Reading one line -/

/-- What a reading takes from a source: its first line if no fault comes before the last byte asked
for, and else the fault. -/
def Reading.Takes (s : Source) : Reading → Prop
  | line text later =>
    s.content.lines = text :: later.content.lines ∧
      s.fault? = Source.delay text.length later.fault? ∧
      ∀ offset fault, s.fault? = some (offset, fault) → text.asked ≤ offset
  | ended => s.content = [] ∧ s.fault? = none
  | failed fault =>
    ∃ offset, s.fault? = some (offset, fault) ∧ offset < s.content.firstLine.asked

theorem Reading.Takes.of_eq {s t : Source} {r : Reading} (h : r.Takes t)
    (hcontent : s.content = t.content) (hfault : s.fault? = t.fault?) : r.Takes s := by
  cases r <;> simpa only [Reading.Takes, hcontent, hfault] using h

/-- A chunk without a line feed comes before the reading of what follows it. -/
theorem Reading.Takes.after {s : Source} {r : Reading} (h : r.Takes s) {chunk : Bytes}
    (hchunk : Bytes.lineFeed ∉ chunk) : (r.after chunk).Takes (.bytes chunk :: s) := by
  cases r with
  | line text later =>
    obtain ⟨hlines, hfault, hasked⟩ := h
    refine ⟨Bytes.lines_append_of_eq_cons hchunk hlines, ?_, ?_⟩
    · rw [Source.fault?, hfault, Source.delay_delay, List.length_append]
    · intro offset fault hsome
      rw [Source.fault?, Source.delay_eq_some_iff] at hsome
      obtain ⟨before, hbefore, rfl⟩ := hsome
      have hle := hasked before fault hbefore
      rw [Bytes.asked_append hchunk]
      omega
  | ended =>
    obtain ⟨hcontent, hfault⟩ := h
    have hnone : Source.fault? (.bytes chunk :: s) = none := by
      rw [Source.fault?, hfault]
      rfl
    have hwhole : Source.content (.bytes chunk :: s) = chunk := by
      rw [Source.content, hcontent, List.append_nil]
    by_cases hne : chunk = []
    · rw [Reading.after, if_pos (List.isEmpty_iff.mpr hne)]
      exact ⟨hwhole.trans hne, hnone⟩
    · rw [Reading.after, if_neg fun hempty => hne (List.isEmpty_iff.mp hempty)]
      refine ⟨?_, hnone, fun offset fault hsome => ?_⟩
      · rw [hwhole, Bytes.lines_of_notMem hchunk hne]
        rfl
      · rw [hnone] at hsome
        cases hsome
  | failed fault =>
    obtain ⟨offset, hfault, hlt⟩ := h
    refine ⟨chunk.length + offset, Source.delay_eq_some_iff.mpr ⟨offset, hfault, rfl⟩, ?_⟩
    rw [Source.content, Bytes.firstLine_append hchunk, Bytes.asked_append hchunk]
    omega

/-- **Reading a line takes the first line of the input.** Nothing else is read, and the reading
fails just if the source fails before the last byte that the line asks for. -/
theorem Source.takes_readLine (s : Source) : s.readLine.Takes s := by
  fun_induction readLine s with
  | case1 => exact ⟨rfl, rfl⟩
  | case2 fault later hfault ih => exact ih.of_eq rfl (if_pos hfault)
  | case3 fault later hfault => exact ⟨0, if_neg hfault, Bytes.asked_pos _⟩
  | case4 chunk later hchunk ih =>
    apply ih.after
    intro hmem
    exact absurd (List.dropWhile_eq_nil_iff.mp hchunk _ hmem) (by decide)
  | case5 chunk later b tail hchunk =>
    have hfront : Bytes.lineFeed ∉ chunk.takeWhile (· != Bytes.lineFeed) := fun hmem =>
      absurd (List.mem_takeWhile_imp hmem) (by decide)
    obtain rfl : b = Bytes.lineFeed := by
      have := List.head?_dropWhile_not (· != Bytes.lineFeed) chunk
      rw [hchunk] at this
      simpa using this
    have hwhole : chunk = chunk.takeWhile (· != Bytes.lineFeed) ++ Bytes.lineFeed :: tail := by
      rw [← hchunk, List.takeWhile_append_dropWhile]
    generalize chunk.takeWhile (· != Bytes.lineFeed) = front at hfront hwhole ⊢
    have hcontent : content (.bytes chunk :: later) =
        front ++ Bytes.lineFeed :: content (.bytes tail :: later) := by
      rw [content, content, hwhole, List.append_assoc, List.cons_append]
    have hlength : chunk.length = (front ++ [Bytes.lineFeed]).length + tail.length := by
      rw [hwhole, List.length_append, List.length_append, List.length_cons, List.length_singleton]
      omega
    refine ⟨?_, ?_, ?_⟩
    · rw [hcontent, Bytes.lines_append_lineFeed hfront]
    · rw [fault?, fault?, delay_delay, hlength]
    · intro offset fault hsome
      obtain ⟨before, -, rfl⟩ := delay_eq_some_iff.mp hsome
      rw [List.length_append, List.length_singleton] at hlength
      rw [Bytes.asked_concat_lineFeed]
      omega

end Lexing
