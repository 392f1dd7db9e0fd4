/-!
# Positions in a source

A position is a line and a column, both counted from one in 32-bit words. Counting stops at the
largest word instead of starting again, so a position never goes back. Positions are ordered by line
and then by column.

Results:

* `toNat_column_rightBy`, `toNat_line_nextLine`: the counts as natural numbers, cut off at the
  largest word.
* `rightBy_rightBy`: two moves to the right are one move by the sum.
* `rightBy_eq`, `nextLine_eq`: the same counts in the arithmetic of words.
* `lt_iff`: the order, on natural numbers.
-/

namespace Lexing

/-- A line and a column (`Position`). -/
structure Position where
  line : UInt32
  column : UInt32
  deriving DecidableEq, Repr

namespace Position

/-- The first position of every source (`Position::START`). -/
def start : Position := ⟨1, 1⟩

instance : Inhabited Position := ⟨start⟩

/-- The position `count` columns further on the same line. -/
def rightBy (count : Nat) (p : Position) : Position :=
  ⟨p.line, UInt32.ofNatClamp (p.column.toNat + count)⟩

/-- The next position on the same line. -/
def right (p : Position) : Position := p.rightBy 1

/-- The first position of the next line. -/
def nextLine (p : Position) : Position :=
  ⟨UInt32.ofNatClamp (p.line.toNat + 1), 1⟩

/-- Line and column in decimal, with a colon between them (`Position::fmt`). -/
def text (p : Position) : String := p.line.toNat.repr ++ ":" ++ p.column.toNat.repr

/-! ## Counting -/

theorem toNat_ofNatClamp (n : Nat) :
    (UInt32.ofNatClamp n).toNat = min n (UInt32.size - 1) := by
  by_cases h : n < UInt32.size
  · rw [UInt32.toNat_ofNatClamp_of_lt h]; omega
  · rw [UInt32.toNat_ofNatClamp_of_le (by omega)]; simp [UInt32.size] at *; omega

@[simp]
theorem line_rightBy (count : Nat) (p : Position) : (p.rightBy count).line = p.line := rfl

@[simp]
theorem column_nextLine (p : Position) : p.nextLine.column = 1 := rfl

theorem toNat_column_rightBy (count : Nat) (p : Position) :
    (p.rightBy count).column.toNat = min (p.column.toNat + count) (UInt32.size - 1) :=
  toNat_ofNatClamp _

theorem toNat_line_nextLine (p : Position) :
    p.nextLine.line.toNat = min (p.line.toNat + 1) (UInt32.size - 1) :=
  toNat_ofNatClamp _

@[simp]
theorem rightBy_zero (p : Position) : p.rightBy 0 = p := by
  rcases p with ⟨line, column⟩
  have := column.toNat_lt
  simp only [rightBy, mk.injEq, true_and]
  apply UInt32.toNat_inj.mp
  rw [toNat_ofNatClamp]
  simp [UInt32.size]
  omega

theorem rightBy_rightBy (m n : Nat) (p : Position) :
    (p.rightBy m).rightBy n = p.rightBy (m + n) := by
  have : (p.rightBy m).column.toNat = min (p.column.toNat + m) (UInt32.size - 1) :=
    toNat_column_rightBy m p
  apply congrArg (Position.mk p.line)
  apply UInt32.toNat_inj.mp
  rw [toNat_ofNatClamp, toNat_ofNatClamp, this]
  omega

/-! ## Counting in words -/

/-- The sum of two words, or the largest word if the sum is larger (`saturating_add`). -/
def saturatingAdd (m n : UInt32) : UInt32 :=
  if m.toNat + n.toNat < UInt32.size then m + n else 0xffffffff

/-- A number as a word, or the largest word if the number is larger (`try_from`). -/
def ofNatSaturating (n : Nat) : UInt32 :=
  if n < UInt32.size then UInt32.ofNat n else 0xffffffff

theorem toNat_saturatingAdd (m n : UInt32) :
    (saturatingAdd m n).toNat = min (m.toNat + n.toNat) (UInt32.size - 1) := by
  unfold saturatingAdd
  split
  next h =>
    have hsize : UInt32.size = 2 ^ 32 := rfl
    rw [UInt32.toNat_add, Nat.mod_eq_of_lt (by omega)]
    omega
  next h =>
    show UInt32.size - 1 = _
    omega

theorem toNat_ofNatSaturating (n : Nat) :
    (ofNatSaturating n).toNat = min n (UInt32.size - 1) := by
  unfold ofNatSaturating
  split
  next h =>
    rw [UInt32.toNat_ofNat_of_lt' h]
    omega
  next h =>
    show UInt32.size - 1 = _
    omega

/-- Columns are added as words. -/
theorem rightBy_eq (count : Nat) (p : Position) :
    p.rightBy count = ⟨p.line, saturatingAdd p.column (ofNatSaturating count)⟩ := by
  refine congrArg (mk p.line) (UInt32.toNat_inj.mp ?_)
  rw [toNat_ofNatClamp, toNat_saturatingAdd, toNat_ofNatSaturating]
  omega

theorem right_eq (p : Position) : p.right = ⟨p.line, saturatingAdd p.column 1⟩ := p.rightBy_eq 1

/-- Lines are added as words. -/
theorem nextLine_eq (p : Position) : p.nextLine = ⟨saturatingAdd p.line 1, 1⟩ := by
  refine congrArg (mk · 1) (UInt32.toNat_inj.mp ?_)
  rw [toNat_ofNatClamp, toNat_saturatingAdd]
  rfl

/-! ## Order -/

/-- By line, then by column (`Position::cmp`). -/
instance : Ord Position where
  compare p q := (compare p.line q.line).then (compare p.column q.column)

instance : LE Position := ⟨fun p q => (compare p q).isLE = true⟩

instance : LT Position := ⟨fun p q => compare p q = .lt⟩

instance (p q : Position) : Decidable (p ≤ q) :=
  inferInstanceAs (Decidable ((compare p q).isLE = true))

instance (p q : Position) : Decidable (p < q) :=
  inferInstanceAs (Decidable (compare p q = .lt))

theorem lt_iff (p q : Position) :
    p < q ↔ p.line.toNat < q.line.toNat ∨
      (p.line.toNat = q.line.toNat ∧ p.column.toNat < q.column.toNat) := by
  change (compare p.line q.line).then (compare p.column q.column) = .lt ↔ _
  rw [Ordering.then_eq_lt, Std.compare_eq_lt, Std.compare_eq_lt, Std.compare_eq_iff_eq,
    UInt32.lt_iff_toNat_lt, UInt32.lt_iff_toNat_lt, UInt32.toNat_inj]

end Position

end Lexing
