import RegexTree.Proofs.Grammar.Negation

namespace RegexTree

namespace CodePointRange

variable {rs : List CodePointRange} {x y : UInt32}

def surrogates : CodePointRange := ⟨0xD800, 0xDFFF⟩

theorem mem_surrogates_iff : x ∈ surrogates ↔ 0xD800 ≤ x.toNat ∧ x.toNat ≤ 0xDFFF := Iff.rfl

theorem val_notMem_surrogates (c : Char) : c.val ∉ surrogates := by
  have hvalid := CodePointSet.val_valid c
  rw [mem_surrogates_iff]
  omega

theorem exists_val_eq (hx : x ≤ 0x10FFFF) (hout : x ∉ surrogates) : ∃ c : Char, c.val = x := by
  have hend : x.toNat ≤ 0x10FFFF := UInt32.le_iff_toNat_le.mp hx
  have hvalid : x.toNat < 0xD800 ∨ 0xDFFF < x.toNat ∧ x.toNat < 0x110000 := by
    rw [mem_surrogates_iff] at hout
    omega
  exact ⟨⟨x, hvalid⟩, rfl⟩

theorem mem_between_of_surrogates {a b : Char} (hx : x ∈ surrogates) (hy : y ∈ surrogates)
    (h : x ∈ between a b) : y ∈ between a b := by
  have ha := val_notMem_surrogates a
  have hb := val_notMem_surrogates b
  simp only [mem_surrogates_iff, mem_between, UInt32.le_iff_toNat_le] at ha hb hx hy h ⊢
  omega

def BetweenChars (r : CodePointRange) : Prop := ∃ a b, r = between a b

theorem covers_surrogates_iff (h : ∀ r ∈ rs, r.BetweenChars) (hx : x ∈ surrogates)
    (hy : y ∈ surrogates) : Covers rs x ↔ Covers rs y := by
  constructor
  · rintro ⟨r, hr, hmem⟩
    obtain ⟨a, b, rfl⟩ := h r hr
    exact ⟨_, hr, mem_between_of_surrogates hx hy hmem⟩
  · rintro ⟨r, hr, hmem⟩
    obtain ⟨a, b, rfl⟩ := h r hr
    exact ⟨_, hr, mem_between_of_surrogates hy hx hmem⟩

end CodePointRange

structure Edit.BetweenChars (edits : List Edit) : Prop where
  included : ∀ r ∈ edits.flatMap Edit.included, r.BetweenChars
  excluded : ∀ r ∈ edits.flatMap Edit.excluded, r.BetweenChars

namespace CodePointSet

open CodePointRange

variable {edits : List Edit} {x y : UInt32}

theorem covers_ofEdits_surrogates_iff (h : Edit.BetweenChars edits) (hx : x ∈ surrogates)
    (hy : y ∈ surrogates) :
    Covers (ofEdits edits).ranges.toList x ↔ Covers (ofEdits edits).ranges.toList y := by
  have hxy : x ≤ 0x10FFFF ↔ y ≤ 0x10FFFF :=
    iff_of_true (UInt32.le_trans hx.2 (by decide)) (UInt32.le_trans hy.2 (by decide))
  simp only [ofEdits, Draft.covers_finish, Draft.covers_base, Draft.included_foldl_edit,
    Draft.excluded_foldl_edit, List.nil_append]
  rw [covers_surrogates_iff h.included hx hy, covers_surrogates_iff h.excluded hx hy, hxy]

theorem le_of_covers_betweenChars (h : Edit.BetweenChars edits)
    (hx : Covers (ofEdits edits).ranges.toList x) : x ≤ 0x10FFFF := by
  refine le_of_covers_ofEdits (fun r hr => ?_) hx
  obtain ⟨a, b, rfl⟩ := h.included r hr
  exact val_le b

theorem covers_iff_mem_surrogates (h : Edit.BetweenChars edits)
    (hnone : ∀ c, (ofEdits edits).contains c = false)
    (hx : Covers (ofEdits edits).ranges.toList x) :
    Covers (ofEdits edits).ranges.toList y ↔ y ∈ surrogates := by
  have hgap : ∀ z, Covers (ofEdits edits).ranges.toList z → z ∈ surrogates := by
    intro z hz
    by_contra hchar
    obtain ⟨c, rfl⟩ := exists_val_eq (le_of_covers_betweenChars h hz) hchar
    have hheld := (contains_iff_covers (normalForm_ofEdits edits)).mpr hz
    rw [hnone c] at hheld
    contradiction
  exact ⟨hgap y, fun hy => (covers_ofEdits_surrogates_iff h (hgap x hx) hy).mp hx⟩

theorem isEmpty_ofEdits_iff (h : Edit.BetweenChars edits) :
    (ofEdits edits).isEmpty ↔
      (∀ c, (ofEdits edits).contains c = false) ∧
        (ofEdits edits).ranges.toList ≠ [surrogates] := by
  have hform := normalForm_ofEdits edits
  rw [isEmpty, Array.isEmpty_iff, ← Array.toList_eq_nil_iff]
  constructor
  · intro hempty
    refine ⟨fun c => ?_, by simp [hempty]⟩
    rw [← Bool.not_eq_true, contains_iff_covers hform, hempty]
    exact covers_nil
  · rintro ⟨hnone, hgap⟩
    by_contra hheld
    obtain ⟨r, rs, hcons⟩ := List.exists_cons_of_ne_nil hheld
    have hfirst : Covers (ofEdits edits).ranges.toList r.first := by
      rw [hcons] at hform ⊢
      exact hform.covers_first
    refine hgap (hform.eq_of_covers (.singleton (by decide)) fun y => ?_)
    rw [covers_iff_mem_surrogates h hnone hfirst]
    simp

end CodePointSet

namespace Pattern

theorem Item.betweenChars (i : Item) : i.codePoints.BetweenChars := by
  cases i with
  | member c => exact ⟨c, c, rfl⟩
  | range a b => exact ⟨a, b, rfl⟩

theorem Leaf.betweenChars (l : Leaf) : Edit.BetweenChars l.edits := by
  cases l with
  | plain c =>
      refine ⟨fun r hr => ?_, fun r hr => ?_⟩
      · rw [show r = .single c by simpa [edits, Edit.included] using hr]
        exact ⟨c, c, rfl⟩
      · simp [edits, Edit.excluded] at hr
  | charClass negated items =>
      rw [edits_charClass]
      constructor
      · rw [CodePointSet.included_map_asking]
        cases negated <;> simp [Item.betweenChars]
      · rw [CodePointSet.excluded_map_asking]
        cases negated <;> simp [Item.betweenChars]

def everyChar : List Item := [.range '\x00' '\ud7ff', .range '\ue000' (Char.ofNat 0x10FFFF)]

theorem exists_holds_everyChar (c : Char) : ∃ i ∈ everyChar, i.Holds c := by
  rcases CodePointSet.val_valid c with hlow | ⟨hhigh, hend⟩
  · refine ⟨.range '\x00' '\ud7ff', by simp [everyChar], ?_, ?_⟩
    · exact UInt32.le_iff_toNat_le.mpr (Nat.zero_le _)
    · exact UInt32.le_iff_toNat_le.mpr (Nat.le_of_lt_succ hlow)
  · refine ⟨.range '\ue000' (Char.ofNat 0x10FFFF), by simp [everyChar], ?_, ?_⟩
    · exact UInt32.le_iff_toNat_le.mpr hhigh
    · exact UInt32.le_iff_toNat_le.mpr (Nat.le_of_lt_succ hend)

end Pattern

open Pattern

namespace Parser

variable {limit : Option Nat} {cs : List Char} {t : Regex CodePointSet}

theorem isEmpty_iff_of_read (h : ((Parser.mk CodePointSet.maker limit).read () cs).1 = .ok t) :
    ∀ s ∈ t.literals, s.isEmpty ↔
      (∀ c, s.contains c = false) ∧ s.ranges.toList ≠ [⟨0xD800, 0xDFFF⟩] := by
  intro s hs
  by_cases hword : cs = ['ε']
  · subst hword
    cases h
    contradiction
  by_cases hset : cs = ['∅']
  · subst hset
    cases h
    contradiction
  obtain ⟨l, -, rfl⟩ := exists_derives_of_read hword hset h
  rw [Regex.literals_map] at hs
  obtain ⟨leaf, -, rfl⟩ := List.mem_map.mp hs
  exact CodePointSet.isEmpty_ofEdits_iff leaf.betweenChars

theorem isEmpty_iff_of_read_reversed :
    ∃ s, ((Parser.mk CodePointSet.maker (some 0)).read () "[z-a]*".toList).1 =
        .ok (.star (.literal s)) ∧
      (s.isEmpty ↔ (∀ c, s.contains c = false) ∧ s.ranges.toList ≠ [⟨0xD800, 0xDFFF⟩]) := by
  have hread : ((Parser.mk CodePointSet.maker (some 0)).read () "[z-a]*".toList).1 =
      .ok (.star (.literal (CodePointSet.ofEdits [.including [.between 'z' 'a']]))) := rfl
  exact ⟨_, hread, isEmpty_iff_of_read hread _ (by simp)⟩

end Parser

theorem parse_surrogates :
    ∃ s, parse (String.ofList
        ['[', '^', '\x00', '-', '\ud7ff', '\ue000', '-', Char.ofNat 0x10FFFF, ']']) =
          .ok (.literal s) ∧
      s.isEmpty = false ∧ ∀ c, s.contains c = false := by
  have hread := parse_leaf (l := .charClass true everyChar) (by decide) (by decide) (by decide)
  refine ⟨_, hread, ?_, fun c => ?_⟩
  · have hbase : Covers (CodePointSet.Draft.base
        ((Leaf.charClass true everyChar).edits.foldl CodePointSet.Draft.edit {})) 0xD800 :=
      CodePointSet.Draft.covers_base.mpr (.inr (by decide))
    exact CodePointSet.isEmpty_eq_false (CodePointSet.Draft.covers_finish.mpr ⟨hbase, by decide⟩)
  · rw [← Bool.not_eq_true, Leaf.contains_charClass (by decide)]
    simpa using exists_holds_everyChar c

end RegexTree
