import RegexTree.Proofs.CodePoint.NormalForm

namespace RegexTree.CodePointRange

instance : Std.TransOrd CodePointRange :=
  inferInstanceAs (Std.TransCmp (compareLex (compareOn first) (compareOn last)))

theorem first_le_of_isLE {r s : CodePointRange} (h : (compare r s).isLE) : r.first ≤ s.first := by
  have hthen : ((compare r.first s.first).then (compare r.last s.last)).isLE := h
  exact Std.isLE_compare.mp (Ordering.isLE_then_iff_and.mp hthen).1

structure Ascending (rs : List CodePointRange) : Prop where
  nonempty : ∀ r ∈ rs, r.first ≤ r.last
  sorted : rs.Pairwise fun r s => r.first ≤ s.first

namespace Ascending

theorem tail {r : CodePointRange} {rs : List CodePointRange} (h : Ascending (r :: rs)) :
    Ascending rs :=
  ⟨fun s hs => h.nonempty s (List.mem_cons_of_mem r hs), (List.pairwise_cons.mp h.sorted).2⟩

theorem join {r s : CodePointRange} {rs : List CodePointRange} (h : Ascending (r :: s :: rs)) :
    Ascending (⟨r.first, max r.last s.last⟩ :: rs) := by
  obtain ⟨hr, hrs⟩ := List.pairwise_cons.mp h.sorted
  refine ⟨?_, List.pairwise_cons.mpr ⟨?_, (List.pairwise_cons.mp hrs).2⟩⟩
  · intro t ht
    rcases List.mem_cons.mp ht with rfl | ht
    · have hfirst := h.nonempty r (by simp)
      simp only [UInt32.le_iff_toNat_le, toNat_max] at hfirst ⊢
      omega
    · exact h.nonempty t (by simp [ht])
  · intro t ht
    exact hr t (by simp [ht])

theorem sort (rs : List CodePointRange) :
    Ascending ((rs.filter fun r => !r.isEmpty).mergeSort fun r s => (compare r s).isLE) := by
  constructor
  · intro r hr
    have hheld := (List.mem_filter.mp (List.mem_mergeSort.mp hr)).2
    simpa [isEmpty, UInt32.not_lt] using hheld
  · refine (List.pairwise_mergeSort ?_ ?_ _).imp first_le_of_isLE
    · intro r s t hrs hst
      exact Std.TransCmp.isLE_trans hrs hst
    · intro r s
      have hswap : compare s r = (compare r s).swap := Std.OrientedCmp.eq_swap
      rw [hswap]
      cases compare r s <;> rfl

end Ascending

theorem covers_sort (rs : List CodePointRange) {x : UInt32} :
    Covers ((rs.filter fun r => !r.isEmpty).mergeSort fun r s => (compare r s).isLE) x ↔
      Covers rs x := by
  simp only [Covers, List.mem_mergeSort, List.mem_filter]
  constructor
  · rintro ⟨r, ⟨hr, -⟩, hx⟩
    exact ⟨r, hr, hx⟩
  · rintro ⟨r, hr, hx⟩
    have hheld : r.isEmpty = false := by
      rw [← Bool.not_eq_true, isEmpty_iff]
      exact fun h => h x hx
    exact ⟨r, ⟨hr, by simp [hheld]⟩, hx⟩

theorem mem_join {r s : CodePointRange} {x : UInt32} (hr : r.first ≤ s.first) (h : ¬ r.Apart s) :
    x ∈ (⟨r.first, max r.last s.last⟩ : CodePointRange) ↔ x ∈ r ∨ x ∈ s := by
  simp only [mem_def, Apart, UInt32.le_iff_toNat_le, toNat_max] at hr h ⊢
  omega

theorem covers_coalesceFrom {rs : List CodePointRange} {x : UInt32} {r : CodePointRange}
    (h : Ascending (r :: rs)) : Covers (coalesceFrom r rs) x ↔ x ∈ r ∨ Covers rs x := by
  induction rs generalizing r with
  | nil => simp [coalesceFrom]
  | cons s rs ih =>
      have hrs : r.first ≤ s.first := (List.pairwise_cons.mp h.sorted).1 s (by simp)
      simp only [coalesceFrom]
      split
      · next htouch =>
          have hmeet : ¬ r.Apart s := fun hapart => apart_iff.mp hapart htouch
          rw [ih h.join, mem_join hrs hmeet, covers_cons, or_assoc]
      · rw [covers_cons, ih h.tail, covers_cons]

theorem first_le_of_mem_coalesceFrom {rs : List CodePointRange} {r t : CodePointRange}
    (h : Ascending (r :: rs)) (ht : t ∈ coalesceFrom r rs) : r.first ≤ t.first := by
  induction rs generalizing r with
  | nil =>
      have heq : t = r := by simpa [coalesceFrom] using ht
      exact heq ▸ UInt32.le_refl _
  | cons s rs ih =>
      have hrs : r.first ≤ s.first := (List.pairwise_cons.mp h.sorted).1 s (by simp)
      simp only [coalesceFrom] at ht
      split at ht
      · have hjoin := ih h.join ht
        exact hjoin
      · rcases List.mem_cons.mp ht with rfl | ht
        · exact UInt32.le_refl _
        · exact UInt32.le_trans hrs (ih h.tail ht)

theorem normalForm_coalesceFrom {rs : List CodePointRange} {r : CodePointRange}
    (h : Ascending (r :: rs)) : NormalForm (coalesceFrom r rs) := by
  induction rs generalizing r with
  | nil => exact .singleton (h.nonempty r (by simp))
  | cons s rs ih =>
      simp only [coalesceFrom]
      split
      · exact ih h.join
      · next hgap =>
          refine .cons (h.nonempty r (by simp)) (ih h.tail) ?_
          intro t ht
          have hst := first_le_of_mem_coalesceFrom h.tail ht
          have hrs : r.Apart s := apart_iff.mpr hgap
          simp only [Apart, UInt32.le_iff_toNat_le] at hst hrs ⊢
          omega

theorem covers_coalesce {rs : List CodePointRange} {x : UInt32} (h : Ascending rs) :
    Covers (coalesce rs) x ↔ Covers rs x := by
  cases rs with
  | nil => rfl
  | cons r rs => rw [coalesce, covers_coalesceFrom h, covers_cons]

theorem normalForm_coalesce {rs : List CodePointRange} (h : Ascending rs) :
    NormalForm (coalesce rs) := by
  cases rs with
  | nil => exact .nil
  | cons r rs => exact normalForm_coalesceFrom h

theorem covers_normalize {rs : List CodePointRange} {x : UInt32} :
    Covers (normalize rs) x ↔ Covers rs x :=
  (covers_coalesce (.sort rs)).trans (covers_sort rs)

theorem normalForm_normalize (rs : List CodePointRange) : NormalForm (normalize rs) :=
  normalForm_coalesce (.sort rs)

theorem NormalForm.normalize_eq {rs : List CodePointRange} (h : NormalForm rs) : normalize rs = rs :=
  (normalForm_normalize rs).eq_of_covers h fun _ => covers_normalize

theorem eq_normalize_iff {rs ss : List CodePointRange} :
    ss = normalize rs ↔ NormalForm ss ∧ ∀ x, Covers ss x ↔ Covers rs x := by
  constructor
  · rintro rfl
    exact ⟨normalForm_normalize rs, fun x => covers_normalize⟩
  · rintro ⟨hform, hcovers⟩
    exact hform.eq_of_covers (normalForm_normalize rs) fun x => (hcovers x).trans covers_normalize.symm

theorem normalize_eq_normalize_iff {rs ss : List CodePointRange} :
    normalize ss = normalize rs ↔ ∀ x, Covers ss x ↔ Covers rs x := by
  simp only [eq_normalize_iff, normalForm_normalize, covers_normalize, true_and]

theorem normalize_determined (rs : List CodePointRange) :
    (∀ ss, ss = normalize rs ↔ NormalForm ss ∧ ∀ x, Covers ss x ↔ Covers rs x) ∧
      (∀ ss, normalize ss = normalize rs ↔ ∀ x, Covers ss x ↔ Covers rs x) ∧
      normalize (normalize rs) = normalize rs :=
  ⟨fun _ => eq_normalize_iff, fun _ => normalize_eq_normalize_iff, (normalForm_normalize rs).normalize_eq⟩

-- Nothing stands behind the last number of 32 bits, so the range that reaches it swallows all that follow.
example : normalize [⟨3, 0xFFFFFFFF⟩, ⟨5, 4⟩, ⟨0, 2⟩, ⟨0xFFFFFFFF, 0xFFFFFFFF⟩] = [⟨0, 0xFFFFFFFF⟩] := by
  cbv

end RegexTree.CodePointRange
