import RegexTree.CodePoint.Normal

namespace RegexTree.CodePointRange

def overlaps (r s : CodePointRange) : Bool := r.first ≤ s.last && s.first ≤ r.last

def carve (first last : UInt32) : List CodePointRange → List CodePointRange
  | [] => [⟨first, last⟩]
  | cut :: cuts =>
      let before := if first < cut.first then [⟨first, cut.first - 1⟩] else []
      let after := if cut.last < last then carve (max first (cut.last + 1)) last cuts else []
      before ++ after

def subtract (base removed : List CodePointRange) : List CodePointRange :=
  base.flatMap fun r => carve r.first r.last (removed.filter r.overlaps)

theorem subtract_cons (r : CodePointRange) (base removed : List CodePointRange) :
    subtract (r :: base) removed =
      carve r.first r.last (removed.filter r.overlaps) ++ subtract base removed := rfl

end RegexTree.CodePointRange
