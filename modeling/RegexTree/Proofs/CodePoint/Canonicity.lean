import RegexTree.Proofs.CodePoint.Denotation

namespace RegexTree

/-- The same is asked in and the same asked out, and the one has ranges asked in, or out, where the other
has. -/
structure Edit.Agree (edits edits' : List Edit) : Prop where
  included : ∀ x, Covers (edits.flatMap Edit.included) x ↔ Covers (edits'.flatMap Edit.included) x
  excluded : ∀ x, Covers (edits.flatMap Edit.excluded) x ↔ Covers (edits'.flatMap Edit.excluded) x
  included_eq_nil : edits.flatMap Edit.included = [] ↔ edits'.flatMap Edit.included = []
  excluded_eq_nil : edits.flatMap Edit.excluded = [] ↔ edits'.flatMap Edit.excluded = []

namespace Edit

variable {edits edits' : List Edit}

theorem Agree.of_mem
    (hin : ∀ r, r ∈ edits.flatMap Edit.included ↔ r ∈ edits'.flatMap Edit.included)
    (hout : ∀ r, r ∈ edits.flatMap Edit.excluded ↔ r ∈ edits'.flatMap Edit.excluded) :
    Agree edits edits' where
  included x := by simp only [Covers, hin]
  excluded x := by simp only [Covers, hout]
  included_eq_nil := by simp only [List.eq_nil_iff_forall_not_mem, hin]
  excluded_eq_nil := by simp only [List.eq_nil_iff_forall_not_mem, hout]

theorem Agree.of_perm (h : edits.Perm edits') : Agree edits edits' :=
  .of_mem (fun _ => (h.flatMap_right _).mem_iff) (fun _ => (h.flatMap_right _).mem_iff)

theorem included_asking (out : Bool) (ranges : List CodePointRange) :
    (asking out ranges).included = if out then [] else ranges := by
  cases out <;> rfl

theorem excluded_asking (out : Bool) (ranges : List CodePointRange) :
    (asking out ranges).excluded = if out then ranges else [] := by
  cases out <;> rfl

theorem Agree.split (u v : List Edit) (out : Bool) (rs ss : List CodePointRange) :
    Agree (u ++ asking out (rs ++ ss) :: v) (u ++ asking out rs :: asking out ss :: v) := by
  refine .of_mem ?_ ?_ <;> cases out <;> simp [included_asking, excluded_asking]

theorem Agree.repetition (u v : List Edit) (out : Bool) (rs : List CodePointRange)
    {r : CodePointRange} (hr : r ∈ rs) :
    Agree (u ++ asking out (r :: rs) :: v) (u ++ asking out rs :: v) := by
  have hmem (t : CodePointRange) : t ∈ r :: rs ↔ t ∈ rs := by
    rw [List.mem_cons, or_iff_right_of_imp]
    rintro rfl
    exact hr
  refine .of_mem ?_ ?_ <;> cases out <;>
    simp only [List.flatMap_append, List.flatMap_cons, List.mem_append, included_asking,
      excluded_asking, hmem, Bool.false_eq_true, if_true, if_false, implies_true]

end Edit

namespace CodePointSet

open CodePointRange

theorem ext_of_covers {s t : CodePointSet} (hs : NormalForm s.ranges.toList)
    (ht : NormalForm t.ranges.toList)
    (h : ∀ x, Covers s.ranges.toList x ↔ Covers t.ranges.toList x) : s = t := by
  obtain ⟨rs⟩ := s
  obtain ⟨ss⟩ := t
  exact congrArg CodePointSet.mk (Array.toList_inj.mp (hs.eq_of_covers ht h))

theorem isEmpty_eq_false_iff {s : CodePointSet} : s.isEmpty = false ↔ s.ranges.toList ≠ [] := by
  simp [isEmpty]

theorem isEmpty_eq_false {s : CodePointSet} {x : UInt32} (h : Covers s.ranges.toList x) :
    s.isEmpty = false := by
  obtain ⟨r, hr, -⟩ := h
  exact isEmpty_eq_false_iff.mpr (List.ne_nil_of_mem hr)

namespace Draft

theorem normalForm_base (d : Draft) : NormalForm d.base := by
  rw [base]
  split
  · exact .singleton (by decide)
  · exact normalForm_normalize _

theorem normalForm_finish (d : Draft) : NormalForm d.finish.ranges.toList :=
  normalForm_subtract d.normalForm_base (normalForm_normalize _)

theorem le_of_covers_finish {d : Draft} {x : UInt32}
    (hbound : ∀ r ∈ d.included.toList, r.last ≤ 0x10FFFF) (hx : Covers d.finish.ranges.toList x) :
    x ≤ 0x10FFFF := by
  rcases covers_base.mp (covers_finish.mp hx).1 with ⟨r, hr, hmem⟩ | ⟨-, -, hx⟩
  · exact UInt32.le_trans hmem.2 (hbound r hr)
  · exact hx

end Draft

variable {edits edits' : List Edit}

theorem normalForm_ofEdits (edits : List Edit) : NormalForm (ofEdits edits).ranges.toList :=
  Draft.normalForm_finish _

theorem ofEdits_eq_iff :
    ofEdits edits = ofEdits edits' ↔
      ∀ x, Covers (ofEdits edits).ranges.toList x ↔ Covers (ofEdits edits').ranges.toList x :=
  ⟨fun h x => by rw [h], ext_of_covers (normalForm_ofEdits _) (normalForm_ofEdits _)⟩

theorem le_of_covers_ofEdits {x : UInt32}
    (hbound : ∀ r ∈ edits.flatMap Edit.included, r.last ≤ 0x10FFFF)
    (hx : Covers (ofEdits edits).ranges.toList x) : x ≤ 0x10FFFF := by
  refine Draft.le_of_covers_finish (d := edits.foldl Draft.edit {}) ?_ hx
  simpa [Draft.included_foldl_edit] using hbound

theorem ofEdits_eq_of_agree (h : Edit.Agree edits edits') : ofEdits edits = ofEdits edits' := by
  refine ofEdits_eq_iff.mpr fun x => ?_
  simp only [ofEdits, Draft.covers_finish, Draft.covers_base, Draft.included_foldl_edit,
    Draft.excluded_foldl_edit, List.nil_append, ne_eq]
  rw [h.included, h.excluded, h.included_eq_nil, h.excluded_eq_nil]

theorem ofEdits_canonical (hbound : ∀ r ∈ edits.flatMap Edit.included, r.last ≤ 0x10FFFF)
    (hbound' : ∀ r ∈ edits'.flatMap Edit.included, r.last ≤ 0x10FFFF) :
    (∀ r ∈ (ofEdits edits).ranges.toList, r.first ≤ r.last ∧ r.last ≤ 0x10FFFF) ∧
      (ofEdits edits).ranges.toList.Pairwise (fun r s => r.last.toNat + 1 < s.first.toNat) ∧
      (ofEdits edits = ofEdits edits' ↔ ∀ x ≤ 0x10FFFF,
        (Covers (ofEdits edits).ranges.toList x ↔ Covers (ofEdits edits').ranges.toList x)) ∧
      (Edit.Agree edits edits' → ofEdits edits = ofEdits edits') ∧
      (edits.Perm edits' → ofEdits edits = ofEdits edits') ∧
      ∀ (u v : List Edit) (out : Bool) (rs ss : List CodePointRange),
        ofEdits (u ++ Edit.asking out (rs ++ ss) :: v) =
            ofEdits (u ++ Edit.asking out rs :: Edit.asking out ss :: v) ∧
          ∀ r ∈ rs, ofEdits (u ++ Edit.asking out (r :: rs) :: v) =
            ofEdits (u ++ Edit.asking out rs :: v) := by
  have hform := normalForm_ofEdits edits
  refine ⟨?_, hform.apart, ?_, ofEdits_eq_of_agree, fun h => ofEdits_eq_of_agree (.of_perm h), ?_⟩
  · intro r hr
    have hheld : r.first ≤ r.last := hform.nonempty r hr
    exact ⟨hheld, le_of_covers_ofEdits hbound ⟨r, hr, hheld, UInt32.le_refl _⟩⟩
  · rw [ofEdits_eq_iff]
    refine ⟨fun h x _ => h x, fun h x => ?_⟩
    by_cases hx : x ≤ 0x10FFFF
    · exact h x hx
    · exact iff_of_false (fun hc => hx (le_of_covers_ofEdits hbound hc))
        (fun hc => hx (le_of_covers_ofEdits hbound' hc))
  · intro u v out rs ss
    exact ⟨ofEdits_eq_of_agree (.split u v out rs ss),
      fun r hr => ofEdits_eq_of_agree (.repetition u v out rs hr)⟩

theorem ofEdits_canonical_of_reordered :
    (∀ r ∈ [⟨0x67, 0x7A⟩, ⟨0x10FFFF, 0x30⟩, (⟨0x61, 0x66⟩ : CodePointRange)], r.last ≤ 0x10FFFF) ∧
      ofEdits [.including [⟨0x67, 0x7A⟩, ⟨0x10FFFF, 0x30⟩], .excluding [⟨0x63, 0x63⟩],
          .including [⟨0x61, 0x66⟩]] =
        ofEdits [.including [⟨0x61, 0x66⟩], .including [⟨0x67, 0x7A⟩, ⟨0x10FFFF, 0x30⟩],
          .excluding [⟨0x63, 0x63⟩]] := by
  have hperm : [Edit.including [⟨0x67, 0x7A⟩, ⟨0x10FFFF, 0x30⟩], .excluding [⟨0x63, 0x63⟩],
      .including [⟨0x61, 0x66⟩]].Perm [.including [⟨0x61, 0x66⟩],
      .including [⟨0x67, 0x7A⟩, ⟨0x10FFFF, 0x30⟩], .excluding [⟨0x63, 0x63⟩]] := by decide
  exact ⟨by decide, (ofEdits_canonical (by decide) (by decide)).2.2.2.2.1 hperm⟩

end CodePointSet

end RegexTree
