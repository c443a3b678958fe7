import RegexTree.Proofs.CodePoint.Canonicity

namespace RegexTree

section

variable {α : Type} {side : α → Ordering} {xs : Array α} {low high : Nat}

def Ascends (side : α → Ordering) (xs : List α) : Prop :=
  xs.Pairwise fun a b => (side a = .gt → side b = .gt) ∧ (side b = .lt → side a = .lt)

theorem Ascends.getElem (h : Ascends side xs.toList) {i j : Nat} (hj : j < xs.size) (hij : i < j) :
    (side xs[i] = .gt → side xs[j] = .gt) ∧ (side xs[j] = .lt → side xs[i] = .lt) :=
  List.pairwise_iff_getElem.mp h i j (by simp; omega) (by simpa using hj) hij

theorem Ascends.gt_of_le (h : Ascends side xs.toList) {i j : Nat} (hj : j < xs.size) (hij : i ≤ j)
    (hi : side xs[i] = .gt) : side xs[j] = .gt := by
  rcases Nat.eq_or_lt_of_le hij with rfl | hlt
  · exact hi
  · exact (h.getElem hj hlt).1 hi

theorem Ascends.lt_of_le (h : Ascends side xs.toList) {i j : Nat} (hj : j < xs.size) (hij : i ≤ j)
    (hside : side xs[j] = .lt) : side xs[i] = .lt := by
  rcases Nat.eq_or_lt_of_le hij with rfl | hlt
  · exact hside
  · exact (h.getElem hj hlt).2 hside

theorem bisectWindow_iff (h : Ascends side xs.toList) (hhigh : high ≤ xs.size) :
    bisectWindow side xs low high hhigh ↔
      ∃ i, ∃ hi : i < xs.size, low ≤ i ∧ i < high ∧ side xs[i] = .eq := by
  fun_induction bisectWindow side xs low high hhigh with
  | case1 low high hhigh hlt middle hmiddle hside =>
      exact iff_of_true rfl ⟨middle, by omega, hmiddle.1, hmiddle.2, hside⟩
  | case2 low high hhigh hlt middle hmiddle hside ih =>
      rw [ih]
      constructor
      · rintro ⟨i, hi, hlow, hwithin, heq⟩
        exact ⟨i, hi, by omega, hwithin, heq⟩
      · rintro ⟨i, hi, hlow, hwithin, heq⟩
        refine ⟨i, hi, Nat.succ_le_of_lt (Nat.lt_of_not_le fun hle => ?_), hwithin, heq⟩
        rw [h.lt_of_le (by omega) hle hside] at heq
        contradiction
  | case3 low high hhigh hlt middle hmiddle hside ih =>
      rw [ih]
      constructor
      · rintro ⟨i, hi, hlow, hwithin, heq⟩
        exact ⟨i, hi, hlow, by omega, heq⟩
      · rintro ⟨i, hi, hlow, hwithin, heq⟩
        refine ⟨i, hi, hlow, Nat.lt_of_not_le fun hle => ?_, heq⟩
        rw [h.gt_of_le hi hle hside] at heq
        contradiction
  | case4 low high hhigh hempty =>
      refine iff_of_false Bool.false_ne_true ?_
      rintro ⟨i, hi, hlow, hwithin, -⟩
      omega

theorem bisect_iff (h : Ascends side xs.toList) :
    bisect side xs ↔ ∃ a ∈ xs.toList, side a = .eq := by
  rw [bisect, bisectWindow_iff h]
  simp only [Array.mem_toList_iff, Array.mem_iff_getElem]
  constructor
  · rintro ⟨i, hi, -, -, heq⟩
    exact ⟨xs[i], ⟨i, hi, rfl⟩, heq⟩
  · rintro ⟨-, ⟨i, hi, rfl⟩, heq⟩
    exact ⟨i, hi, Nat.zero_le i, hi, heq⟩

/-- What is expected of a search, whatever it does where the sides do not ascend. -/
def Searches (search : (α → Ordering) → Array α → Bool) : Prop :=
  ∀ side xs, Ascends side xs.toList → (search side xs ↔ ∃ a ∈ xs.toList, side a = .eq)

theorem searches_bisect : Searches (@bisect α) := fun _ _ => bisect_iff

def scan (side : α → Ordering) (xs : Array α) : Bool := xs.toList.any fun a => side a = .eq

theorem searches_scan : Searches (@scan α) := by
  intro side xs _
  rw [scan, List.any_eq_true]
  simp only [decide_eq_true_eq]

end

namespace CodePointSet

open CodePointRange

variable {s : CodePointSet} {rs : List CodePointRange} {c : Char} {x : UInt32}

theorem side_eq_lt_iff {r : CodePointRange} : side x r = .lt ↔ r.last < x := by
  rw [side]
  split
  · next h => exact iff_of_true rfl h
  · next h => split <;> simp [h]

theorem side_eq_gt_iff {r : CodePointRange} (hr : r.first ≤ r.last) :
    side x r = .gt ↔ x < r.first := by
  rw [side]
  split
  · next h =>
      have hbehind : ¬ x < r.first := UInt32.not_lt.mpr (UInt32.le_trans hr (UInt32.le_of_lt h))
      exact iff_of_false (by decide) hbehind
  · split <;> simp_all

theorem ascends_side (h : NormalForm rs) (x : UInt32) : Ascends (side x) rs := by
  refine List.Pairwise.imp_of_mem ?_ h.apart
  intro r t hr ht hapart
  have hrs : r.first ≤ r.last := h.nonempty r hr
  have hts : t.first ≤ t.last := h.nonempty t ht
  rw [side_eq_gt_iff hrs, side_eq_gt_iff hts, side_eq_lt_iff, side_eq_lt_iff]
  simp only [Apart, UInt32.lt_iff_toNat_lt, UInt32.le_iff_toNat_le] at hapart hrs hts ⊢
  omega

theorem contains_iff_covers (h : NormalForm s.ranges.toList) :
    s.contains c ↔ Covers s.ranges.toList c.val := by
  rw [contains, bisect_iff (ascends_side h c.val)]
  simp only [side_eq_iff]
  rfl

theorem contains_iff_exists (h : NormalForm s.ranges.toList) :
    s.contains c ↔ ∃ r ∈ s.ranges.toList, r.contains c := by
  simp only [contains_iff_covers h, Covers, contains_iff]

theorem search_eq_contains {search : (CodePointRange → Ordering) → Array CodePointRange → Bool}
    (hsearch : Searches search) (h : NormalForm s.ranges.toList) (c : Char) :
    search (side c.val) s.ranges = s.contains c :=
  Bool.eq_iff_iff.mpr ((hsearch _ _ (ascends_side h c.val)).trans
    (searches_bisect _ _ (ascends_side h c.val)).symm)

theorem contains_ofEdits_iff_exists (edits : List Edit) (c : Char) :
    ((ofEdits edits).contains c ↔ ∃ r ∈ (ofEdits edits).ranges.toList, r.contains c) ∧
      ∀ search, Searches search →
        search (side c.val) (ofEdits edits).ranges = (ofEdits edits).contains c :=
  ⟨contains_iff_exists (normalForm_ofEdits edits),
    fun _ hsearch => search_eq_contains hsearch (normalForm_ofEdits edits) c⟩

theorem contains_ofEdits_iff_exists_by_scan :
    Searches (@scan CodePointRange) ∧
      scan (side 'm'.val) (ofEdits [.excluding [⟨0x6D, 0x6D⟩, ⟨0x7A, 0x61⟩]]).ranges =
        (ofEdits [.excluding [⟨0x6D, 0x6D⟩, ⟨0x7A, 0x61⟩]]).contains 'm' :=
  ⟨searches_scan, (contains_ofEdits_iff_exists _ 'm').2 scan searches_scan⟩

theorem val_valid (c : Char) :
    c.val.toNat < 0xD800 ∨ 0xDFFF < c.val.toNat ∧ c.val.toNat < 0x110000 := c.valid

theorem val_le (c : Char) : c.val ≤ 0x10FFFF := by
  rw [UInt32.le_iff_toNat_le]
  have hvalid := val_valid c
  change c.val.toNat ≤ 0x10FFFF
  omega

theorem included_map_asking (out : Bool) (rs : List CodePointRange) :
    (rs.map fun r => Edit.asking out [r]).flatMap Edit.included = if out then [] else rs := by
  cases out <;> simp [List.flatMap_map, Edit.included_asking]

theorem excluded_map_asking (out : Bool) (rs : List CodePointRange) :
    (rs.map fun r => Edit.asking out [r]).flatMap Edit.excluded = if out then rs else [] := by
  cases out <;> simp [List.flatMap_map, Edit.excluded_asking]

theorem contains_ofEdits (edits : List Edit) (c : Char) :
    (ofEdits edits).contains c ↔
      (Covers (edits.flatMap Edit.included) c.val ∨
        edits.flatMap Edit.included = [] ∧ edits.flatMap Edit.excluded ≠ []) ∧
      ¬ Covers (edits.flatMap Edit.excluded) c.val := by
  rw [contains_iff_covers (normalForm_ofEdits _), ofEdits, Draft.covers_finish, Draft.covers_base,
    Draft.included_foldl_edit, Draft.excluded_foldl_edit]
  simp [val_le c]

theorem contains_ofEdits_asking (hrs : rs ≠ []) (out : Bool) :
    (ofEdits (rs.map fun r => Edit.asking out [r])).contains c ↔
      if out then ¬ Covers rs c.val else Covers rs c.val := by
  rw [contains_ofEdits, included_map_asking, excluded_map_asking]
  cases out with
  | true => simp [hrs]
  | false => simp

theorem not_covers_flatten_iff {slices : List (List CodePointRange)} :
    ¬ Covers slices.flatten c.val ↔ ∀ ranges ∈ slices, ∀ r ∈ ranges, r.contains c = false := by
  simp only [← Bool.not_eq_true, contains_iff]
  constructor
  · intro h ranges hranges r hr hc
    exact h ⟨r, List.mem_flatten.mpr ⟨ranges, hranges, hr⟩, hc⟩
  · rintro h ⟨r, hr, hc⟩
    obtain ⟨ranges, hranges, hr⟩ := List.mem_flatten.mp hr
    exact h ranges hranges r hr hc

theorem contains_ofEdits_excluding (slices : List (List CodePointRange)) (c : Char) :
    (ofEdits (slices.map .excluding)).contains c ↔
      (∃ ranges ∈ slices, ranges ≠ []) ∧
        ∀ ranges ∈ slices, ∀ r ∈ ranges, r.contains c = false := by
  have hin : (slices.map Edit.excluding).flatMap Edit.included = [] := by
    simp [List.flatMap_map, Edit.included]
  have hout : (slices.map Edit.excluding).flatMap Edit.excluded = slices.flatten := by
    simp [List.flatMap_map, Edit.excluded, List.flatMap_id']
  rw [contains_ofEdits, hin, hout, not_covers_flatten_iff]
  simp

theorem contains_ofEdits_excluding_nil :
    (∀ ranges ∈ [([] : List CodePointRange)], ∀ r ∈ ranges, r.contains 'a' = false) ∧
      (ofEdits ([[]].map .excluding)).contains 'a' = false := by
  refine ⟨by decide, ?_⟩
  rw [← Bool.not_eq_true, contains_ofEdits]
  simp [Edit.included, Edit.excluded]

end CodePointSet

end RegexTree
