import Lexing.Proofs.Schedule

/-!
# Printing to a sink

A listing is printed in pieces, with logging in between, and the sink may run full at any of them.
What it has taken then does not show the pieces: it is the same as if everything had been written at
once.

Results:

* `Session.Conditions.reach_of_printing`: steps that only write and log are like one write.
* `Listing.print_shows`: what a sink holds after a listing was printed to it.
* `Listing.exists_run_print`, `Listing.exists_run_printFile`: the listing of a source or of a file is
  printed to its end if the sink takes everything.
* `Listing.output_eq`: a sink that takes everything holds the listing of the source's tokens.
-/

namespace Lexing

namespace Session

/-- The step writes or logs. -/
def Step.isPrinting : Step → Bool
  | .write _ | .record _ => true
  | .flush | .read _ => false

section Printing

variable {w : Conditions} {done steps : List Step}

/-- A write fails with the sink's refusal if it goes beyond the limit. -/
theorem Conditions.fault?_write_eq_some_iff {bytes : Bytes} {fault : Fault} :
    w.fault? done (.write bytes) = some fault ↔
      (∃ limit, w.limit = some limit ∧ limit < (written done).length + bytes.length) ∧
        w.refusal = fault := by
  rw [fault?]
  cases w.limit <;> simp

/-- What is too much by itself is too much with more behind it. -/
theorem Conditions.fault?_write_append_of_some {bytes : Bytes} {fault : Fault}
    (h : w.fault? done (.write bytes) = some fault) (more : Bytes) :
    w.fault? done (.write (bytes ++ more)) = some fault := by
  obtain ⟨⟨limit, hlimit, hover⟩, hfault⟩ := fault?_write_eq_some_iff.mp h
  refine fault?_write_eq_some_iff.mpr ⟨⟨limit, hlimit, ?_⟩, hfault⟩
  rw [List.length_append]
  omega

theorem Conditions.fitting_append_of_some {bytes : Bytes} {fault : Fault}
    (h : w.fault? done (.write bytes) = some fault) (more : Bytes) :
    w.fitting done (bytes ++ more) = w.fitting done bytes := by
  obtain ⟨⟨limit, hlimit, hover⟩, -⟩ := fault?_write_eq_some_iff.mp h
  simp only [fitting, hlimit]
  exact List.take_append_of_le_length (by omega)

/-- Of a write that fails a part is accepted, but not all of it. -/
theorem Conditions.fitting_of_fault? {bytes : Bytes} {fault : Fault}
    (hne : bytes ≠ []) (h : w.fault? done (.write bytes) = some fault) :
    w.fitting done bytes <+: bytes ∧ w.fitting done bytes ≠ bytes := by
  obtain ⟨⟨limit, hlimit, hover⟩, -⟩ := fault?_write_eq_some_iff.mp h
  have hpos := List.length_pos_iff.mpr hne
  simp only [fitting, hlimit]
  refine ⟨List.take_prefix _ _, fun hall => ?_⟩
  rw [List.take_eq_self_iff] at hall
  omega

/-- A write that fits leaves as much room for more as one write of both. -/
theorem Conditions.fault?_write_concat (bytes more : Bytes) :
    w.fault? (done ++ [.write bytes]) (.write more) = w.fault? done (.write (bytes ++ more)) := by
  simp only [fault?, written_concat, Step.output, List.length_append, Nat.add_assoc]

theorem Conditions.fitting_append_of_fits {bytes : Bytes} (hfits : w.fitting done bytes = bytes)
    (more : Bytes) :
    w.fitting done (bytes ++ more) = bytes ++ w.fitting (done ++ [.write bytes]) more := by
  cases hlimit : w.limit with
  | none => simp only [fitting, hlimit]
  | some limit =>
    simp only [fitting, hlimit, List.take_eq_self_iff] at hfits
    simp only [fitting, hlimit, written_concat, Step.output, List.length_append]
    rw [List.take_append, List.take_of_length_le hfits, Nat.sub_sub]

/-- **Printing in pieces is printing at once.** Steps that only write and log lead to the output and
    the fault that one write of all their bytes would lead to. -/
theorem Conditions.reach_of_printing (hsteps : ∀ step ∈ steps, step.isPrinting = true)
    (hwithin : ∀ limit, w.limit = some limit → (written done).length ≤ limit) :
    (w.reach done steps).output w = written done ++ w.fitting done (written steps) ∧
      (w.reach done steps).fault? = w.fault? done (.write (written steps)) := by
  induction steps generalizing done with
  | nil =>
    refine ⟨?_, ((fault?_write_eq_none_iff hwithin).mpr (w.fitting_nil done)).symm⟩
    show written done ++ [] = written done ++ w.fitting done []
    rw [w.fitting_nil]
  | cons step later ih =>
    have hlater : ∀ step ∈ later, step.isPrinting = true :=
      fun step hstep => hsteps step (List.mem_cons_of_mem _ hstep)
    cases step with
    | write bytes =>
      have hwritten : written (.write bytes :: later) = bytes ++ written later := rfl
      rw [hwritten]
      cases hfault : w.fault? done (.write bytes) with
      | none =>
        have hfits := (fault?_write_eq_none_iff hwithin).mp hfault
        have hwithin' : ∀ limit, w.limit = some limit →
            (written (done ++ [.write bytes])).length ≤ limit := by
          intro limit hlimit
          have hle := hwithin limit hlimit
          rw [fitting, hlimit, List.take_eq_self_iff] at hfits
          rw [written_concat, Step.output, List.length_append]
          omega
        obtain ⟨houtput, hends⟩ := ih hlater hwithin'
        rw [reach_cons_of_none hfault, houtput, hends, fitting_append_of_fits hfits, written_concat,
          Step.output, List.append_assoc, fault?_write_concat]
        exact ⟨rfl, rfl⟩
      | some fault =>
        rw [reach_cons_of_some hfault, fitting_append_of_some hfault,
          fault?_write_append_of_some hfault]
        exact ⟨rfl, rfl⟩
    | record events =>
      have hsame : written (done ++ [.record events]) = written done := by
        rw [written_concat]
        exact List.append_nil _
      have hwithin' : ∀ limit, w.limit = some limit →
          (written (done ++ [.record events])).length ≤ limit := by rwa [hsame]
      obtain ⟨houtput, hends⟩ := ih hlater hwithin'
      rw [reach_cons_of_none rfl, houtput, hends]
      simp only [fitting, fault?, hsame]
      exact ⟨rfl, rfl⟩
    | flush => exact absurd (hsteps _ List.mem_cons_self) Bool.false_ne_true
    | read line => exact absurd (hsteps _ List.mem_cons_self) Bool.false_ne_true

end Printing

/-- A console whose sink took nothing yet, whatever was logged. -/
theorem Tracks.start_of_log (w : Conditions) (log : Array Event) :
    Tracks w [.record log.toList] ⟨w.sink, log⟩ := by
  have hlog : (#[] : Array Event).appendList log.toList = log := by
    simp
  have htracks := (Tracks.start w).record log.toList
  rwa [hlog] at htracks

end Session

namespace Listing

open Session (Step Conditions Tracks)

/-- The steps of printing tokens. -/
def printing (tokens : List Token) : List Step :=
  tokens.flatMap fun t => [.record t.events, .write (line t)]

theorem isPrinting_of_mem_printing {tokens : List Token} {step : Step}
    (h : step ∈ printing tokens) : step.isPrinting = true := by
  obtain ⟨t, -, ht⟩ := List.mem_flatMap.mp h
  simp only [List.mem_cons, List.not_mem_nil, or_false] at ht
  obtain rfl | rfl := ht <;> rfl

theorem written_printing (tokens : List Token) : Session.written (printing tokens) = bytes tokens := by
  rw [Session.written, printing, List.flatMap_assoc, bytes]
  congr 1
  funext t
  exact List.append_nil _

/-- What a sink holds after a listing was printed to it: all of the listing, or as much as fits, and
then the printing ends with the sink's fault. What was logged before makes no difference. -/
theorem print_shows (source : Bytes) (limit : Option ℕ) (refusal : Fault) (log : Array Event) :
    let w : Conditions := ⟨none, limit, refusal, none⟩
    match (print source).run ⟨w.sink, log⟩ with
    | .ok _ c =>
      w.fault? [] (.write (bytes (tokenize source))) = none ∧
        c.sink.accepted.toList = bytes (tokenize source)
    | .error fault c =>
      w.fault? [] (.write (bytes (tokenize source))) = some fault ∧
        c.sink.accepted.toList = w.fitting [] (bytes (tokenize source)) := by
  intro w
  have hfollows : Session.Follows w [.record log.toList] (printing (tokenize source) ++ [])
      (print source) :=
    (Session.printTokens_follows (tokenize source)).bind fun _ => Session.Follows.pure _
  rw [List.append_nil] at hfollows
  have hwithin : ∀ limit, w.limit = some limit →
      (Session.written [.record log.toList]).length ≤ limit := fun limit _ => Nat.zero_le limit
  obtain ⟨houtput, hfault⟩ := Conditions.reach_of_printing
    (fun step (hstep : step ∈ printing (tokenize source)) => isPrinting_of_mem_printing hstep) hwithin
  rw [written_printing] at houtput hfault
  have hrun := hfollows _ (Tracks.start_of_log w log)
  cases hresult : (print source).run ⟨w.sink, log⟩ with
  | ok summary c =>
    rw [hresult] at hrun
    obtain ⟨hreach, htracks⟩ := hrun
    rw [hreach] at hfault
    refine ⟨hfault.symm, ?_⟩
    rw [htracks.accepted, List.singleton_append, ← written_printing]
    rfl
  | error fault c =>
    rw [hresult] at hrun
    obtain ⟨hends, hshows⟩ := hrun
    refine ⟨hfault.symm.trans hends, ?_⟩
    rw [hshows.accepted, houtput]
    rfl

/-- The summary of a listing that was printed to its end is that of the tokens of its source. -/
theorem summary_of_print {source : Bytes} {c c' : Console} {summary : Summary}
    (h : (print source).run c = .ok summary c') : summary = .ofTokens (tokenize source) := by
  rw [print, EStateM.run_bind] at h
  cases hprint : (printTokens (tokenize source)).run c with
  | ok _ c'' =>
    rw [hprint] at h
    cases h
    rfl
  | error fault c'' =>
    rw [hprint] at h
    cases h

/-- A listing is printed to its end if the sink takes everything. -/
theorem exists_run_print (source : Bytes) (log : Array Event) :
    ∃ c, (print source).run ⟨.unlimited, log⟩ = .ok (.ofTokens (tokenize source)) c ∧
      c.sink.accepted.toList = bytes (tokenize source) := by
  have hshows := print_shows source none .writeZero log
  have hsink : Conditions.sink ⟨none, none, .writeZero, none⟩ = .unlimited := rfl
  dsimp only at hshows
  rw [hsink] at hshows
  cases hrun : (print source).run ⟨.unlimited, log⟩ with
  | ok summary c =>
    rw [hrun] at hshows
    exact ⟨c, by rw [summary_of_print hrun], hshows.2⟩
  | error fault c =>
    rw [hrun] at hshows
    cases hshows.1

/-- What a sink that takes everything holds after the listing of a source. -/
def output (source : Bytes) : Bytes :=
  match (print source).run .unlimited with
  | .ok _ c | .error _ c => c.sink.accepted.toList

theorem output_eq (source : Bytes) : output source = bytes (tokenize source) := by
  obtain ⟨c, hrun, haccepted⟩ := exists_run_print source #[]
  rw [output, Console.unlimited, hrun]
  exact haccepted

end Listing

end Lexing
