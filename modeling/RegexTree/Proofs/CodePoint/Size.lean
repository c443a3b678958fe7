import RegexTree.Proofs.CodePoint.Canonicity

namespace RegexTree

namespace CodePointRange

variable {r s t : CodePointRange} {rs qs base removed cuts : List CodePointRange}
  {low high bound : UInt32}

theorem Apart.last_lt (h : r.Apart s) : r.last < s.first := by
  rw [Apart] at h
  rw [UInt32.lt_iff_toNat_lt]
  omega

namespace NormalForm

theorem gaps (h : NormalForm rs) : rs.Pairwise fun r s => r.Apart s ∧ ¬ Covers rs (r.last + 1) := by
  induction rs with
  | nil => exact .nil
  | cons r rs ih =>
      refine List.pairwise_cons.mpr ⟨?_, ?_⟩
      · intro s hs
        exact ⟨h.head_apart hs, h.not_covers_successor (h.head_apart hs).last_lt⟩
      · refine (ih h.tail).imp_of_mem ?_
        rintro s t hs - ⟨hapart, hgap⟩
        refine ⟨hapart, fun hcovers => (covers_cons.mp hcovers).elim (fun hmem => ?_) hgap⟩
        have hheld : s.first ≤ s.last := h.tail.nonempty s hs
        have hbehind := h.head_apart hs
        have hlast := hmem.2
        simp only [Apart, UInt32.le_iff_toNat_le, toNat_successor hapart.last_lt] at hbehind hheld hlast
        omega

theorem nodup_first (h : NormalForm rs) : (rs.map first).Nodup := by
  refine List.pairwise_map.mpr (h.apart.imp_of_mem ?_)
  intro r s hr _ hapart heq
  have hheld : r.first ≤ r.last := h.nonempty r hr
  rw [heq] at hheld
  exact UInt32.not_le.mpr hapart.last_lt hheld

end NormalForm

def holder (qs : List CodePointRange) (r : CodePointRange) : Option CodePointRange :=
  qs.find? fun q => r.first ∈ q

theorem first_mem_of_holder {q : CodePointRange} (h : holder qs r = some q) : q ∈ qs ∧ r.first ∈ q :=
  ⟨List.mem_of_find?_eq_some h, by simpa using List.find?_some h⟩

theorem exists_holder (h : Covers qs r.first) : ∃ q, holder qs r = some q := by
  obtain ⟨q, hq, hmem⟩ := h
  exact Option.isSome_iff_exists.mp (List.find?_isSome.mpr ⟨q, hq, by simpa using hmem⟩)

theorem successor_mem {q : CodePointRange} (hapart : r.Apart s) (hr : r.first ≤ r.last)
    (hfirst : r.first ∈ q) (hnext : s.first ∈ q) : r.last + 1 ∈ q := by
  have hbefore := hfirst.1
  have hbehind := hnext.2
  rw [mem_def]
  simp only [Apart, UInt32.le_iff_toNat_le, toNat_successor hapart.last_lt] at *
  omega

theorem NormalForm.length_le_of_covers (h : NormalForm rs) (hbound : ∀ r ∈ rs, r.first ≤ bound)
    (hcovers : ∀ x ≤ bound, Covers qs x ↔ Covers rs x) : rs.length ≤ qs.length := by
  have hheld : ∀ r ∈ rs, ∃ q, holder qs r = some q := fun r hr =>
    exists_holder ((hcovers _ (hbound r hr)).mpr ⟨r, hr, UInt32.le_refl _, h.nonempty r hr⟩)
  have hnodup : (rs.map (holder qs)).Nodup := by
    refine List.pairwise_map.mpr (h.gaps.imp_of_mem ?_)
    rintro r s hr hs ⟨hapart, hgap⟩ heq
    obtain ⟨q, hq⟩ := hheld r hr
    obtain ⟨hmem, hfirst⟩ := first_mem_of_holder hq
    obtain ⟨-, hnext⟩ := first_mem_of_holder (heq ▸ hq)
    have hwithin : r.last + 1 ≤ bound := by
      have hlast := hbound s hs
      simp only [Apart, UInt32.le_iff_toNat_le, toNat_successor hapart.last_lt] at hapart hlast ⊢
      omega
    -- A range that holds the starts of both reaches over the gap between them.
    exact hgap ((hcovers _ hwithin).mp ⟨q, hmem, successor_mem hapart (h.nonempty r hr) hfirst hnext⟩)
  have hsubset : rs.map (holder qs) ⊆ qs.map some := by
    intro found hfound
    obtain ⟨r, hr, rfl⟩ := List.mem_map.mp hfound
    obtain ⟨q, hq⟩ := hheld r hr
    exact hq ▸ List.mem_map_of_mem (first_mem_of_holder hq).1
  simpa using hnodup.length_le_of_subset hsubset

theorem length_coalesceFrom_le (r : CodePointRange) (rs : List CodePointRange) :
    (coalesceFrom r rs).length ≤ rs.length + 1 := by
  induction rs generalizing r with
  | nil => exact Nat.le_refl _
  | cons s rs ih =>
      simp only [coalesceFrom, List.length_cons]
      split
      · exact Nat.le_succ_of_le (ih _)
      · exact Nat.succ_le_succ (ih s)

theorem length_coalesce_le (rs : List CodePointRange) : (coalesce rs).length ≤ rs.length := by
  cases rs with
  | nil => exact Nat.le_refl _
  | cons r rs => exact length_coalesceFrom_le r rs

theorem length_normalize_le (rs : List CodePointRange) : (normalize rs).length ≤ rs.length := by
  refine Nat.le_trans (length_coalesce_le _) ?_
  rw [List.length_mergeSort]
  exact List.length_filter_le _ _

theorem max_eq_or (x y : UInt32) : max x y = x ∨ max x y = y := by
  rw [show max x y = if x ≤ y then y else x from rfl]
  split
  · exact .inr rfl
  · exact .inl rfl

theorem first_of_mem_carve (ht : t ∈ carve low high cuts) :
    t.first = low ∨ ∃ cut ∈ cuts, t.first = cut.last + 1 := by
  induction cuts generalizing low with
  | nil => simp_all [carve]
  | cons cut cuts ih =>
      simp only [carve, List.mem_append] at ht
      rcases ht with ht | ht
      · split at ht
        · exact .inl (List.mem_singleton.mp ht ▸ rfl)
        · contradiction
      · split at ht
        · rcases ih ht with hstart | ⟨c, hc, hstart⟩
          · rcases max_eq_or low (cut.last + 1) with hmax | hmax
            · exact .inl (hstart.trans hmax)
            · exact .inr ⟨cut, by simp, hstart.trans hmax⟩
          · exact .inr ⟨c, by simp [hc], hstart⟩
        · contradiction

theorem first_of_mem_subtract (ht : t ∈ subtract base removed) :
    t.first ∈ base.map first ++ removed.map fun cut => cut.last + 1 := by
  obtain ⟨r, hr, ht⟩ := List.mem_flatMap.mp ht
  rcases first_of_mem_carve ht with hstart | ⟨cut, hcut, hstart⟩
  · exact List.mem_append_left _ (hstart ▸ List.mem_map_of_mem hr)
  · exact List.mem_append_right _ (hstart ▸ List.mem_map_of_mem (List.mem_filter.mp hcut).1)

theorem length_subtract_le (hbase : NormalForm base) (h : NormalForm removed) :
    (subtract base removed).length ≤ base.length + removed.length := by
  have hsubset : (subtract base removed).map first ⊆
      base.map first ++ removed.map fun cut => cut.last + 1 := by
    intro x hx
    obtain ⟨t, ht, rfl⟩ := List.mem_map.mp hx
    exact first_of_mem_subtract ht
  simpa using (normalForm_subtract hbase h).nodup_first.length_le_of_subset hsubset

end CodePointRange

namespace CodePointSet

open CodePointRange

variable {edits : List Edit}

theorem Draft.length_base_le (d : Draft) :
    d.base.length ≤
      if d.included.toList = [] ∧ d.excluded.toList ≠ [] then 1 else d.included.toList.length := by
  rw [base]
  split
  · next h =>
      rw [if_pos (takes_everything_iff.mp h)]
      exact Nat.le_refl _
  · next h =>
      rw [if_neg (mt takes_everything_iff.mpr h)]
      exact length_normalize_le _

theorem Draft.size_finish_le (d : Draft) :
    d.finish.ranges.size ≤ d.base.length + d.excluded.toList.length := by
  rw [finish, List.size_toArray]
  have hcuts := length_normalize_le d.excluded.toList
  have hsplit := length_subtract_le d.normalForm_base (normalForm_normalize d.excluded.toList)
  omega

theorem size_ofEdits_le (hbound : ∀ r ∈ edits.flatMap Edit.included, r.last ≤ 0x10FFFF) :
    (∀ qs, (∀ x ≤ 0x10FFFF, Covers qs x ↔ Covers (ofEdits edits).ranges.toList x) →
        (ofEdits edits).ranges.size ≤ qs.length) ∧
      (ofEdits edits).ranges.size ≤
        (if edits.flatMap Edit.included = [] ∧ edits.flatMap Edit.excluded ≠ [] then 1
          else (edits.flatMap Edit.included).length) +
        (edits.flatMap Edit.excluded).length := by
  constructor
  · intro qs hqs
    have hform := normalForm_ofEdits edits
    rw [← Array.length_toList]
    refine hform.length_le_of_covers (fun r hr => ?_) hqs
    exact le_of_covers_ofEdits hbound ⟨r, hr, UInt32.le_refl _, hform.nonempty r hr⟩
  · have hsize := Draft.size_finish_le (edits.foldl Draft.edit {})
    have hbase := Draft.length_base_le (edits.foldl Draft.edit {})
    rw [Draft.included_foldl_edit, Draft.excluded_foldl_edit] at hbase
    rw [Draft.excluded_foldl_edit] at hsize
    exact Nat.le_trans hsize (Nat.add_le_add_right hbase _)

theorem size_ofEdits_le_of_overlapping :
    (∀ r ∈ [(⟨0x61, 0x7A⟩ : CodePointRange)], r.last ≤ 0x10FFFF) ∧
      (∀ x ≤ 0x10FFFF, Covers [⟨0x61, 0x6C⟩, ⟨0x6E, 0x7A⟩, ⟨0x6E, 0x70⟩] x ↔
        Covers (ofEdits [.including [⟨0x61, 0x7A⟩], .excluding [⟨0x6D, 0x6D⟩]]).ranges.toList x) ∧
      (ofEdits [.including [⟨0x61, 0x7A⟩], .excluding [⟨0x6D, 0x6D⟩]]).ranges.size ≤ 3 ∧
      (ofEdits [.including [⟨0x61, 0x7A⟩], .excluding [⟨0x6D, 0x6D⟩]]).ranges.size ≤ 1 + 1 := by
  have hcovers : ∀ x ≤ 0x10FFFF, Covers [⟨0x61, 0x6C⟩, ⟨0x6E, 0x7A⟩, ⟨0x6E, 0x70⟩] x ↔
      Covers (ofEdits [.including [⟨0x61, 0x7A⟩], .excluding [⟨0x6D, 0x6D⟩]]).ranges.toList x := by
    intro x _
    rw [covers_ofEdits]
    simp only [Edit.included, Edit.excluded, List.flatMap_cons, List.flatMap_nil, List.append_nil,
      List.nil_append, covers_cons, covers_nil, mem_def, UInt32.le_iff_toNat_le,
      UInt32.reduceToNat, List.cons_ne_nil, false_and, or_false]
    omega
  obtain ⟨hleast, hmost⟩ :=
    @size_ofEdits_le [.including [⟨0x61, 0x7A⟩], .excluding [⟨0x6D, 0x6D⟩]] (by decide)
  exact ⟨by decide, hcovers, hleast _ hcovers, hmost⟩

end CodePointSet

end RegexTree
