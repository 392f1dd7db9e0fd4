import Mathlib.Data.Nat.Notation
import Lexing.Token.Keyword

/-!
# Looking up keywords

A word is compared only with the reserved words that are as long as it is. These are the texts of the
keywords of that length, in the order of the table of all keywords, and a keyword of another length
is spelled differently. So the search among them answers like a search of the whole table, and its
answer does not depend on the order, since no two keywords are spelled alike.

Results:

* `lookup_bucket`: the reserved words of one length are enough to find a word of that length.
* `ofBytes?_eq_find?_all`: a word is looked up as in the whole table.
-/

namespace Lexing.Keyword

theorem lookup_map_bytes (keywords : List Keyword) (word : Bytes) :
    (keywords.map fun k => (k.bytes, k)).lookup word = keywords.find? (·.bytes == word) := by
  induction keywords with
  | nil => rfl
  | cons k later ih =>
    rw [List.map_cons, List.lookup_cons, List.find?_cons, ih, Bool.beq_comm]

/-- A word of a length is found among the reserved words of that length if it is in the table. -/
theorem lookup_bucket (word : Bytes) :
    (bucket word.length).lookup word = all.find? (·.bytes == word) := by
  have hsame : (fun k : Keyword =>
      decide ((k.bytes.length == word.length) = true ∧ (k.bytes == word) = true)) =
      (·.bytes == word) := by
    funext k
    cases hword : k.bytes == word with
    | true => simp [eq_of_beq hword]
    | false => simp
  rw [bucket_eq, lookup_map_bytes, List.find?_filter, hsame]

/-- **A word is looked up as in the table of all keywords.** The answer is the first keyword of the
table that has the bytes of the word, and there is none if no keyword has them. There is no more than
one that has them, so a word is read as a keyword exactly when it is the text of the keyword. -/
theorem ofBytes?_eq_find?_all (word : Bytes) :
    ofBytes? word = all.find? (fun k => Bytes.ofString k.spelling == word) ∧
    (∀ j ∈ all, ∀ k ∈ all, Bytes.ofString j.spelling = word → Bytes.ofString k.spelling = word →
      j = k) ∧
    (∀ k, ofBytes? word = some k ↔ word = Bytes.ofString k.spelling) ∧
    (ofBytes? word = none ↔ ∀ k ∈ all, Bytes.ofString k.spelling ≠ word) := by
  have hsearch : ofBytes? word = all.find? (·.bytes == word) := lookup_bucket word
  refine ⟨hsearch, fun j _ k _ hj hk => ?_, fun k => ?_, ?_⟩
  · exact bytes_inj.mp (Eq.trans hj hk.symm)
  · rw [ofBytes?_eq_some_iff, bytes, eq_comm]
  · rw [hsearch, List.find?_eq_none]
    exact forall₂_congr fun k _ => not_congr beq_iff_eq

example : ofBytes? (.ofString "Let") = none ∧ ofBytes? (.ofString "lets") = none := by decide

end Lexing.Keyword
