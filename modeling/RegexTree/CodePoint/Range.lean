namespace RegexTree

@[ext] structure CodePointRange where
  first : UInt32
  last : UInt32
deriving DecidableEq, Repr

namespace CodePointRange

def single (c : Char) : CodePointRange := ⟨c.val, c.val⟩

def between (first last : Char) : CodePointRange := ⟨first.val, last.val⟩

instance : Membership UInt32 CodePointRange where
  mem r x := r.first ≤ x ∧ x ≤ r.last

theorem mem_def {x : UInt32} {r : CodePointRange} : x ∈ r ↔ r.first ≤ x ∧ x ≤ r.last := Iff.rfl

instance (x : UInt32) (r : CodePointRange) : Decidable (x ∈ r) :=
  inferInstanceAs (Decidable (r.first ≤ x ∧ x ≤ r.last))

theorem mem_single {x : UInt32} {c : Char} : x ∈ single c ↔ x = c.val :=
  ⟨fun h => UInt32.le_antisymm h.2 h.1, fun h => h ▸ ⟨UInt32.le_refl _, UInt32.le_refl _⟩⟩

theorem mem_between {x : UInt32} {a b : Char} : x ∈ between a b ↔ a.val ≤ x ∧ x ≤ b.val := Iff.rfl

def isEmpty (r : CodePointRange) : Bool := r.last < r.first

theorem isEmpty_iff {r : CodePointRange} : r.isEmpty ↔ ∀ x, x ∉ r := by
  simp only [isEmpty, decide_eq_true_eq, mem_def, UInt32.lt_iff_toNat_lt, UInt32.le_iff_toNat_le]
  constructor
  · intro h x; omega
  · intro h
    have := h r.first
    omega

def contains (r : CodePointRange) (c : Char) : Bool := c.val ∈ r

theorem contains_iff {r : CodePointRange} {c : Char} : r.contains c ↔ c.val ∈ r := by
  simp [contains]

instance : Ord CodePointRange where
  compare := compareLex (compareOn first) (compareOn last)

end CodePointRange

end RegexTree
