import RegexTree.CodePoint.Difference
import RegexTree.CodePoint.Text
import RegexTree.Bisect

namespace RegexTree

structure CodePointSet where
  ranges : Array CodePointRange
deriving DecidableEq, Repr

namespace CodePointSet

def isEmpty (s : CodePointSet) : Bool := s.ranges.isEmpty

def side (x : UInt32) (r : CodePointRange) : Ordering :=
  if r.last < x then .lt else if x < r.first then .gt else .eq

theorem side_eq_iff {x : UInt32} {r : CodePointRange} : side x r = .eq ↔ x ∈ r := by
  simp only [side, CodePointRange.mem_def, UInt32.lt_iff_toNat_lt, UInt32.le_iff_toNat_le]
  split <;> (try split) <;> simp <;> omega

def contains (s : CodePointSet) (c : Char) : Bool := bisect (side c.val) s.ranges

def chars (s : CodePointSet) : List Char :=
  '[' :: s.ranges.toList.flatMap CodePointRange.chars ++ [']']

def text (s : CodePointSet) : String := String.ofList s.chars

end CodePointSet

end RegexTree
