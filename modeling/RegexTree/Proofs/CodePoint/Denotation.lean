import RegexTree.CodePoint.Draft
import RegexTree.Proofs.CodePoint.Subtraction

namespace RegexTree

def Edit.included : Edit → List CodePointRange
  | .including ranges => ranges
  | .excluding _ => []

def Edit.excluded : Edit → List CodePointRange
  | .including _ => []
  | .excluding ranges => ranges

namespace CodePointSet

namespace Draft

theorem included_foldl_edit (edits : List Edit) (d : Draft) :
    (edits.foldl edit d).included.toList = d.included.toList ++ edits.flatMap Edit.included := by
  induction edits generalizing d with
  | nil => simp
  | cons e edits ih => cases e <;> simp [ih, edit, Edit.included]

theorem excluded_foldl_edit (edits : List Edit) (d : Draft) :
    (edits.foldl edit d).excluded.toList = d.excluded.toList ++ edits.flatMap Edit.excluded := by
  induction edits generalizing d with
  | nil => simp
  | cons e edits ih => cases e <;> simp [ih, edit, Edit.excluded]

theorem mem_everything {x : UInt32} : x ∈ everything ↔ x ≤ 0x10FFFF := by
  simp [everything, CodePointRange.mem_def]

theorem takes_everything_iff {d : Draft} :
    (d.included.isEmpty && !d.excluded.isEmpty) = true ↔
      d.included.toList = [] ∧ d.excluded.toList ≠ [] := by
  simp

theorem covers_base {d : Draft} {x : UInt32} :
    Covers d.base x ↔ Covers d.included.toList x ∨
      d.included.toList = [] ∧ d.excluded.toList ≠ [] ∧ x ≤ 0x10FFFF := by
  rw [base]
  split
  · next h =>
      obtain ⟨hin, hout⟩ := takes_everything_iff.mp h
      simp [hin, hout, mem_everything]
  · next h =>
      rw [takes_everything_iff] at h
      have hnot : ¬ (d.included.toList = [] ∧ d.excluded.toList ≠ [] ∧ x ≤ 0x10FFFF) :=
        fun ⟨hin, hout, _⟩ => h ⟨hin, hout⟩
      rw [CodePointRange.covers_normalize, or_iff_left hnot]

theorem covers_finish {d : Draft} {x : UInt32} :
    Covers d.finish.ranges.toList x ↔ Covers d.base x ∧ ¬ Covers d.excluded.toList x := by
  simp only [finish, CodePointRange.covers_subtract (CodePointRange.normalForm_normalize _),
    CodePointRange.covers_normalize]

end Draft

theorem covers_ofEdits (edits : List Edit) (x : UInt32) :
    Covers (ofEdits edits).ranges.toList x ↔
      (Covers (edits.flatMap Edit.included) x ∨
        edits.flatMap Edit.included = [] ∧ edits.flatMap Edit.excluded ≠ [] ∧ x ≤ 0x10FFFF) ∧
      ¬ Covers (edits.flatMap Edit.excluded) x := by
  have hin : (edits.foldl Draft.edit {}).included.toList = edits.flatMap Edit.included :=
    Draft.included_foldl_edit edits {}
  have hout : (edits.foldl Draft.edit {}).excluded.toList = edits.flatMap Edit.excluded :=
    Draft.excluded_foldl_edit edits {}
  rw [ofEdits, Draft.covers_finish, Draft.covers_base, hin, hout]

end CodePointSet

end RegexTree
