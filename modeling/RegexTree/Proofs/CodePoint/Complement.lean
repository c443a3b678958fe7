import RegexTree.Proofs.CodePoint.Canonicity

namespace RegexTree.CodePointSet

open CodePointRange

variable {s : CodePointSet} {edits : List Edit} {x : UInt32}

def rebuilt (s : CodePointSet) : CodePointSet := ofEdits [.including s.ranges.toList]

def complement (s : CodePointSet) : CodePointSet := ofEdits [.excluding s.ranges.toList]

theorem covers_rebuilt : Covers s.rebuilt.ranges.toList x ↔ Covers s.ranges.toList x := by
  simp [rebuilt, covers_ofEdits, Edit.included, Edit.excluded]

theorem covers_complement (hs : s.isEmpty = false) :
    Covers s.complement.ranges.toList x ↔ x ≤ 0x10FFFF ∧ ¬ Covers s.ranges.toList x := by
  have hheld : s.ranges.toList ≠ [] := isEmpty_eq_false_iff.mp hs
  rw [complement, covers_ofEdits]
  simp only [Edit.included, Edit.excluded, List.flatMap_cons, List.flatMap_nil, List.append_nil,
    covers_nil, false_or, true_and, ne_eq, hheld, not_false_eq_true]

theorem rebuilt_eq (h : NormalForm s.ranges.toList) : s.rebuilt = s :=
  ext_of_covers (normalForm_ofEdits _) h fun _ => covers_rebuilt

theorem complement_complement (h : NormalForm s.ranges.toList)
    (hbound : ∀ x, Covers s.ranges.toList x → x ≤ 0x10FFFF) (hs : s.isEmpty = false)
    (ht : s.complement.isEmpty = false) : s.complement.complement = s := by
  refine ext_of_covers (normalForm_ofEdits _) h fun x => ?_
  rw [covers_complement ht, covers_complement hs]
  constructor
  · rintro ⟨hx, hout⟩
    exact Classical.not_not.mp fun hnot => hout ⟨hx, hnot⟩
  · intro hx
    exact ⟨hbound x hx, fun hout => hout.2 hx⟩

theorem ofEdits_complemented (hbound : ∀ r ∈ edits.flatMap Edit.included, r.last ≤ 0x10FFFF) :
    (ofEdits edits).rebuilt = ofEdits edits ∧
      ((ofEdits edits).isEmpty = false →
        (∀ x, Covers (ofEdits edits).complement.ranges.toList x ↔
          x ≤ 0x10FFFF ∧ ¬ Covers (ofEdits edits).ranges.toList x) ∧
        ((ofEdits edits).complement.isEmpty = false →
          (ofEdits edits).complement.complement = ofEdits edits)) := by
  have hform := normalForm_ofEdits edits
  refine ⟨rebuilt_eq hform, fun hs => ⟨fun x => covers_complement hs, fun ht => ?_⟩⟩
  exact complement_complement hform (fun x => le_of_covers_ofEdits hbound) hs ht

theorem ofEdits_complemented_of_one_gap :
    (∀ r ∈ [⟨0, 0x60⟩, (⟨0x62, 0x10FFFF⟩ : CodePointRange)], r.last ≤ 0x10FFFF) ∧
      ∃ s, s = ofEdits [.including [⟨0, 0x60⟩, ⟨0x62, 0x10FFFF⟩]] ∧ s.isEmpty = false ∧
        s.complement.isEmpty = false ∧ s.rebuilt = s ∧ s.complement.complement = s := by
  have hs : (ofEdits [.including [⟨0, 0x60⟩, ⟨0x62, 0x10FFFF⟩]]).isEmpty = false :=
    isEmpty_eq_false ((covers_ofEdits _ 0).mpr (by decide))
  have hgap : ¬ Covers (ofEdits [.including [⟨0, 0x60⟩, ⟨0x62, 0x10FFFF⟩]]).ranges.toList 0x61 :=
    fun h => absurd ((covers_ofEdits _ 0x61).mp h) (by decide)
  have ht : (ofEdits [.including [⟨0, 0x60⟩, ⟨0x62, 0x10FFFF⟩]]).complement.isEmpty = false :=
    isEmpty_eq_false ((covers_complement hs).mpr ⟨by decide, hgap⟩)
  obtain ⟨hrebuilt, hcomplemented⟩ :=
    @ofEdits_complemented [.including [⟨0, 0x60⟩, ⟨0x62, 0x10FFFF⟩]] (by decide)
  exact ⟨by decide, _, rfl, hs, ht, hrebuilt, (hcomplemented hs).2 ht⟩

end RegexTree.CodePointSet
