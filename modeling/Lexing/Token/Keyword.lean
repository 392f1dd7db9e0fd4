import Lexing.Bytes

/-!
# Keywords

Seven words are reserved. There is a table of all keywords, a table of their texts, and for reading
there are tables of the reserved words by their length, so that a word is compared only with those
that are as long as it is.

Results:

* `spelling_inj`: no two keywords are spelled alike.
* `bucket_eq`: the tables agree.
* `ofBytes?_eq_some_iff`: a word is read as a keyword exactly when it is spelled like the keyword.
-/

namespace Lexing

/-- A reserved word (`Keyword`). -/
inductive Keyword
  | fnWord
  | letWord
  | trueWord
  | falseWord
  | ifWord
  | elseWord
  | returnWord
  deriving DecidableEq, Repr

namespace Keyword

/-- Every keyword (`Keyword::ALL`). -/
def all : List Keyword := [fnWord, letWord, trueWord, falseWord, ifWord, elseWord, returnWord]

/-- The text of a keyword (`Keyword::as_str`). -/
def spelling : Keyword → String
  | fnWord => "fn"
  | letWord => "let"
  | trueWord => "true"
  | falseWord => "false"
  | ifWord => "if"
  | elseWord => "else"
  | returnWord => "return"

/-- The bytes of a keyword. -/
def bytes (k : Keyword) : Bytes := .ofString k.spelling

/-- The words of one length that are reserved, with the keywords they are. -/
def bucket : Nat → List (Bytes × Keyword)
  | 2 => [(.ofString "fn", fnWord), (.ofString "if", ifWord)]
  | 3 => [(.ofString "let", letWord)]
  | 4 => [(.ofString "true", trueWord), (.ofString "else", elseWord)]
  | 5 => [(.ofString "false", falseWord)]
  | 6 => [(.ofString "return", returnWord)]
  | _ => []

/-- The keyword that a word is, if it is one (`Keyword::lookup`). -/
def ofBytes? (word : Bytes) : Option Keyword := (bucket word.length).lookup word

theorem mem_all (k : Keyword) : k ∈ all := by cases k <;> decide

theorem spelling_inj {j k : Keyword} : j.spelling = k.spelling ↔ j = k := by
  constructor
  · cases j <;> cases k <;> decide
  · rintro rfl
    rfl

theorem bytes_inj {j k : Keyword} : j.bytes = k.bytes ↔ j = k :=
  Bytes.ofString_inj.trans spelling_inj

/-! ## The three tables agree -/

theorem length_bytes_le (k : Keyword) : k.bytes.length ≤ 6 := by cases k <;> decide

/-- The reserved words of a length are the texts of the keywords that are so long, in the order of
the table. -/
theorem bucket_eq (n : Nat) :
    bucket n = (all.filter (·.bytes.length == n)).map fun k => (k.bytes, k) := by
  match n with
  | 0 | 1 | 2 | 3 | 4 | 5 | 6 => decide
  | n + 7 =>
    -- Beyond the longest keyword both sides are empty.
    have hnone : ∀ k ∈ all, ¬ (k.bytes.length == n + 7) = true := by
      intro k _ hk
      have hle := k.length_bytes_le
      have heq := eq_of_beq hk
      omega
    rw [List.filter_eq_nil_iff.mpr hnone]
    rfl

theorem ofBytes?_eq_some_iff {word : Bytes} {k : Keyword} :
    ofBytes? word = some k ↔ k.bytes = word := by
  constructor
  · intro h
    obtain ⟨front, later, hbucket, -⟩ := List.lookup_eq_some_iff.mp h
    have hmem : (word, k) ∈ bucket word.length := by simp [hbucket]
    rw [bucket_eq] at hmem
    obtain ⟨j, -, hj⟩ := List.mem_map.mp hmem
    cases hj
    rfl
  · rintro rfl
    cases k <;> decide

end Keyword

end Lexing
