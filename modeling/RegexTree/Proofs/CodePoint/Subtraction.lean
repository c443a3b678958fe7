import RegexTree.CodePoint.Difference
import RegexTree.Proofs.CodePoint.Normalization

namespace RegexTree.CodePointRange

theorem covers_before {first last : UInt32} {cut : CodePointRange} {x : UInt32}
    (hreach : cut.first ≤ last) :
    Covers (if first < cut.first then [⟨first, cut.first - 1⟩] else []) x ↔
      first ≤ x ∧ x ≤ last ∧ x < cut.first := by
  split
  · next h =>
      simp only [covers_cons, covers_nil, or_false, mem_def, UInt32.le_iff_toNat_le,
        UInt32.lt_iff_toNat_lt, toNat_predecessor h] at h hreach ⊢
      omega
  · next h =>
      simp only [covers_nil, false_iff, UInt32.le_iff_toNat_le, UInt32.lt_iff_toNat_lt] at h hreach ⊢
      omega

theorem covers_behind {cuts : List CodePointRange} {first last : UInt32} {cut : CodePointRange}
    {x : UInt32} (hrest : ∀ start, Covers (carve start last cuts) x ↔
      (start ≤ x ∧ x ≤ last) ∧ ¬ Covers cuts x) :
    Covers (if cut.last < last then carve (max first (cut.last + 1)) last cuts else []) x ↔
      (first ≤ x ∧ x ≤ last ∧ cut.last < x) ∧ ¬ Covers cuts x := by
  split
  · next h =>
      rw [hrest]
      refine and_congr_left fun _ => ?_
      simp only [UInt32.le_iff_toNat_le, UInt32.lt_iff_toNat_lt, toNat_max, toNat_successor h]
      omega
  · next h =>
      refine iff_of_false covers_nil ?_
      rintro ⟨⟨-, hlast, hbehind⟩, -⟩
      exact h (UInt32.lt_of_lt_of_le hbehind hlast)

theorem covers_carve {cuts : List CodePointRange} {first last x : UInt32} (h : NormalForm cuts)
    (hreach : ∀ cut ∈ cuts, cut.first ≤ last) :
    Covers (carve first last cuts) x ↔ (first ≤ x ∧ x ≤ last) ∧ ¬ Covers cuts x := by
  induction cuts generalizing first with
  | nil => simp [carve, mem_def]
  | cons cut cuts ih =>
      have hrest (start : UInt32) : Covers (carve start last cuts) x ↔
          (start ≤ x ∧ x ≤ last) ∧ ¬ Covers cuts x :=
        ih h.tail fun c hc => hreach c (by simp [hc])
      have hcut := h.head
      have hlater : Covers cuts x → cut.last < x := h.lt_of_covers
      rw [carve, covers_append, covers_before (hreach cut (by simp)), covers_behind hrest, covers_cons,
        not_or, mem_def]
      simp only [UInt32.le_iff_toNat_le, UInt32.lt_iff_toNat_lt] at hcut hlater ⊢
      by_cases hc : Covers cuts x
      · have := hlater hc
        simp only [hc, not_true_eq_false, and_false, or_false, iff_false]
        omega
      · simp only [hc, not_false_eq_true, and_true]
        omega

theorem overlaps_of_mem {r s : CodePointRange} {x : UInt32} (hr : x ∈ r) (hs : x ∈ s) :
    r.overlaps s := by
  simp only [overlaps, Bool.and_eq_true, decide_eq_true_eq]
  exact ⟨UInt32.le_trans hr.1 hs.2, UInt32.le_trans hs.1 hr.2⟩

theorem covers_filter_overlaps {r : CodePointRange} {rs : List CodePointRange} {x : UInt32}
    (h : x ∈ r) : Covers (rs.filter r.overlaps) x ↔ Covers rs x := by
  constructor
  · rintro ⟨s, hs, hx⟩
    exact ⟨s, (List.mem_filter.mp hs).1, hx⟩
  · rintro ⟨s, hs, hx⟩
    exact ⟨s, List.mem_filter.mpr ⟨hs, overlaps_of_mem h hx⟩, hx⟩

theorem first_le_of_overlaps {r : CodePointRange} {removed : List CodePointRange} :
    ∀ cut ∈ removed.filter r.overlaps, cut.first ≤ r.last := by
  intro cut hcut
  have hmeets := (List.mem_filter.mp hcut).2
  simp only [overlaps, Bool.and_eq_true, decide_eq_true_eq] at hmeets
  exact hmeets.2

theorem covers_carve_overlaps {r : CodePointRange} {removed : List CodePointRange} {x : UInt32}
    (h : NormalForm removed) :
    Covers (carve r.first r.last (removed.filter r.overlaps)) x ↔ x ∈ r ∧ ¬ Covers removed x := by
  rw [covers_carve (h.filter r.overlaps) first_le_of_overlaps, ← mem_def]
  exact and_congr_right fun hx => not_congr (covers_filter_overlaps hx)

theorem covers_subtract {base removed : List CodePointRange} {x : UInt32} (h : NormalForm removed) :
    Covers (subtract base removed) x ↔ Covers base x ∧ ¬ Covers removed x := by
  induction base with
  | nil => simp [subtract]
  | cons r base ih =>
      rw [subtract_cons, covers_append, covers_carve_overlaps h, ih, covers_cons, or_and_right]

theorem within_of_mem_carve {cuts : List CodePointRange} {first last : UInt32} {t : CodePointRange}
    (hreach : ∀ cut ∈ cuts, cut.first ≤ last) (ht : t ∈ carve first last cuts) :
    first ≤ t.first ∧ t.last ≤ last := by
  induction cuts generalizing first with
  | nil =>
      obtain rfl : t = ⟨first, last⟩ := by simpa [carve] using ht
      exact ⟨UInt32.le_refl _, UInt32.le_refl _⟩
  | cons cut cuts ih =>
      have hcut : cut.first ≤ last := hreach cut (by simp)
      simp only [carve, List.mem_append] at ht
      rcases ht with ht | ht
      · split at ht
        · next hbefore =>
            obtain rfl := List.mem_singleton.mp ht
            refine ⟨UInt32.le_refl _, ?_⟩
            simp only [UInt32.le_iff_toNat_le, toNat_predecessor hbefore] at hcut ⊢
            omega
        · contradiction
      · split at ht
        · obtain ⟨hfirst, hlast⟩ := ih (fun c hc => hreach c (by simp [hc])) ht
          refine ⟨?_, hlast⟩
          simp only [UInt32.le_iff_toNat_le, toNat_max] at hfirst ⊢
          omega
        · contradiction

theorem normalForm_before {first : UInt32} {cut : CodePointRange} :
    NormalForm (if first < cut.first then [⟨first, cut.first - 1⟩] else []) := by
  split
  · next h =>
      refine .singleton ?_
      simp only [UInt32.le_iff_toNat_le, toNat_predecessor h]
      rw [UInt32.lt_iff_toNat_lt] at h
      omega
  · exact .nil

theorem last_lt_of_mem_before {first : UInt32} {cut t : CodePointRange}
    (ht : t ∈ if first < cut.first then [⟨first, cut.first - 1⟩] else []) : t.last < cut.first := by
  split at ht
  · next h =>
      obtain rfl := List.mem_singleton.mp ht
      simp only [UInt32.lt_iff_toNat_lt, toNat_predecessor h] at h ⊢
      omega
  · contradiction

theorem start_behind_le {first last : UInt32} {cut : CodePointRange} (hheld : first ≤ last)
    (h : cut.last < last) : max first (cut.last + 1) ≤ last := by
  simp only [UInt32.le_iff_toNat_le, toNat_max, toNat_successor h] at hheld ⊢
  rw [UInt32.lt_iff_toNat_lt] at h
  omega

theorem lt_first_of_mem_behind {cuts : List CodePointRange} {first last : UInt32}
    {cut t : CodePointRange} (hreach : ∀ c ∈ cuts, c.first ≤ last)
    (ht : t ∈ if cut.last < last then carve (max first (cut.last + 1)) last cuts else []) :
    cut.last < t.first := by
  split at ht
  · next h =>
      obtain ⟨hfirst, -⟩ := within_of_mem_carve hreach ht
      simp only [UInt32.le_iff_toNat_le, UInt32.lt_iff_toNat_lt, toNat_max, toNat_successor h] at hfirst ⊢
      omega
  · contradiction

theorem Apart.of_between {r s cut : CodePointRange} (hr : r.last < cut.first)
    (hcut : cut.first ≤ cut.last) (hs : cut.last < s.first) : r.Apart s := by
  rw [UInt32.lt_iff_toNat_lt] at hr hs
  rw [UInt32.le_iff_toNat_le] at hcut
  rw [Apart]
  omega

theorem normalForm_carve {cuts : List CodePointRange} {first last : UInt32} (h : NormalForm cuts)
    (hreach : ∀ cut ∈ cuts, cut.first ≤ last) (hheld : first ≤ last) :
    NormalForm (carve first last cuts) := by
  induction cuts generalizing first with
  | nil => exact .singleton hheld
  | cons cut cuts ih =>
      have hlater : ∀ c ∈ cuts, c.first ≤ last := fun c hc => hreach c (by simp [hc])
      refine NormalForm.append normalForm_before ?_ ?_
      · split
        · next hbehind => exact ih h.tail hlater (start_behind_le hheld hbehind)
        · exact .nil
      · -- The cut lies between what stands before it and all that is left behind it.
        intro r hr s hs
        exact .of_between (last_lt_of_mem_before hr) h.head (lt_first_of_mem_behind hlater hs)

theorem exists_first_le_of_mem_subtract {base removed : List CodePointRange} {t : CodePointRange}
    (ht : t ∈ subtract base removed) : ∃ r ∈ base, r.first ≤ t.first ∧ t.last ≤ r.last := by
  obtain ⟨r, hr, ht⟩ := List.mem_flatMap.mp ht
  exact ⟨r, hr, within_of_mem_carve first_le_of_overlaps ht⟩

theorem normalForm_subtract {base removed : List CodePointRange} (hbase : NormalForm base)
    (h : NormalForm removed) : NormalForm (subtract base removed) := by
  induction base with
  | nil => exact .nil
  | cons r base ih =>
      rw [subtract_cons]
      refine NormalForm.append ?_ (ih hbase.tail) ?_
      · exact normalForm_carve (h.filter r.overlaps) first_le_of_overlaps hbase.head
      · intro s hs t ht
        obtain ⟨-, hs⟩ := within_of_mem_carve first_le_of_overlaps hs
        obtain ⟨b, hb, ht, -⟩ := exists_first_le_of_mem_subtract ht
        have hapart := hbase.head_apart hb
        simp only [Apart, UInt32.le_iff_toNat_le] at hapart hs ht ⊢
        omega

end RegexTree.CodePointRange
