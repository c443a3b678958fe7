import RegexTree.CodePoint.Normal

namespace RegexTree.CodePointRange

theorem toNat_max (x y : UInt32) : (max x y).toNat = max x.toNat y.toNat := by
  rw [show max x y = if x ≤ y then y else x from rfl]
  split
  · next h => exact (Nat.max_eq_right (UInt32.le_iff_toNat_le.mp h)).symm
  · next h => exact (Nat.max_eq_left (Nat.le_of_not_le (mt UInt32.le_iff_toNat_le.mpr h))).symm

theorem toNat_predecessor {x y : UInt32} (h : x < y) : (y - 1).toNat = y.toNat - 1 := by
  have hpos : 1 ≤ y := by
    simp only [UInt32.lt_iff_toNat_lt, UInt32.le_iff_toNat_le, UInt32.toNat_one] at h ⊢
    omega
  rw [UInt32.toNat_sub_of_le _ _ hpos, UInt32.toNat_one]

theorem toNat_successor {x y : UInt32} (h : x < y) : (x + 1).toNat = x.toNat + 1 := by
  have hbound := y.toNat_lt
  rw [UInt32.lt_iff_toNat_lt] at h
  rw [UInt32.toNat_add, UInt32.toNat_one]
  omega

theorem apart_iff {r s : CodePointRange} : r.Apart s ↔ ¬ s.first ≤ saturatingSuccessor r.last := by
  have hlast := r.last.toNat_lt
  have hfirst := s.first.toNat_lt
  rw [UInt32.le_iff_toNat_le, toNat_saturatingSuccessor, Apart]
  omega

namespace NormalForm

variable {r s : CodePointRange} {rs ss : List CodePointRange} {x : UInt32}

theorem nil : NormalForm [] := ⟨nofun, .nil⟩

theorem cons (hr : r.first ≤ r.last) (h : NormalForm rs) (hapart : ∀ s ∈ rs, r.Apart s) :
    NormalForm (r :: rs) :=
  ⟨List.forall_mem_cons.mpr ⟨hr, h.nonempty⟩, .cons hapart h.apart⟩

theorem singleton (h : r.first ≤ r.last) : NormalForm [r] := .cons h .nil nofun

theorem head (h : NormalForm (r :: rs)) : r.first ≤ r.last := h.nonempty r List.mem_cons_self

theorem tail (h : NormalForm (r :: rs)) : NormalForm rs :=
  ⟨fun s hs => h.nonempty s (List.mem_cons_of_mem r hs), (List.pairwise_cons.mp h.apart).2⟩

theorem head_apart (h : NormalForm (r :: rs)) (hs : s ∈ rs) : r.Apart s :=
  (List.pairwise_cons.mp h.apart).1 s hs

theorem filter (h : NormalForm rs) (keep : CodePointRange → Bool) : NormalForm (rs.filter keep) :=
  ⟨fun r hr => h.nonempty r (List.mem_filter.mp hr).1, h.apart.filter keep⟩

theorem append (hr : NormalForm rs) (hs : NormalForm ss) (h : ∀ r ∈ rs, ∀ s ∈ ss, r.Apart s) :
    NormalForm (rs ++ ss) := by
  refine ⟨?_, List.pairwise_append.mpr ⟨hr.apart, hs.apart, h⟩⟩
  intro t ht
  rcases List.mem_append.mp ht with ht | ht
  · exact hr.nonempty t ht
  · exact hs.nonempty t ht

theorem lt_of_covers (h : NormalForm (r :: rs)) (hx : Covers rs x) : r.last < x := by
  obtain ⟨s, hs, hfirst, -⟩ := hx
  have hapart := h.head_apart hs
  simp only [Apart, UInt32.le_iff_toNat_le, UInt32.lt_iff_toNat_lt] at hapart hfirst ⊢
  omega

theorem first_le_of_covers (h : NormalForm (r :: rs)) (hx : Covers (r :: rs) x) : r.first ≤ x := by
  rcases covers_cons.mp hx with hx | hx
  · exact hx.1
  · exact UInt32.le_trans h.head (UInt32.le_of_lt (h.lt_of_covers hx))

theorem covers_first (h : NormalForm (r :: rs)) : Covers (r :: rs) r.first :=
  covers_cons.mpr (.inl ⟨UInt32.le_refl _, h.head⟩)

theorem covers_tail_iff (h : NormalForm (r :: rs)) :
    Covers rs x ↔ Covers (r :: rs) x ∧ r.last < x := by
  constructor
  · intro hx
    exact ⟨covers_cons.mpr (.inr hx), h.lt_of_covers hx⟩
  · rintro ⟨hx, hlast⟩
    exact (covers_cons.mp hx).resolve_left fun hmem => UInt32.not_lt.mpr hmem.2 hlast

theorem not_covers_successor {y : UInt32} (h : NormalForm (r :: rs)) (hy : r.last < y) :
    ¬ Covers (r :: rs) (r.last + 1) := by
  have hsucc := toNat_successor hy
  rw [covers_cons]
  rintro (⟨-, hlast⟩ | ⟨s, hs, hfirst, -⟩)
  · rw [UInt32.le_iff_toNat_le] at hlast
    omega
  · have hapart := h.head_apart hs
    rw [UInt32.le_iff_toNat_le] at hfirst
    rw [Apart] at hapart
    omega

theorem first_le (hr : NormalForm (r :: rs)) (hs : NormalForm (s :: ss))
    (h : ∀ x, Covers (s :: ss) x → Covers (r :: rs) x) : r.first ≤ s.first :=
  hr.first_le_of_covers (h _ hs.covers_first)

theorem last_le (hr : NormalForm (r :: rs)) (hfirst : s.first = r.first)
    (h : ∀ x, Covers (s :: ss) x → Covers (r :: rs) x) : s.last ≤ r.last := by
  refine UInt32.not_lt.mp fun hlonger => ?_
  have hheld := hr.head
  have hsucc := toNat_successor hlonger
  -- The longer range would reach into the gap behind the shorter one.
  have hgap : r.last + 1 ∈ s := by
    rw [mem_def, hfirst]
    simp only [UInt32.le_iff_toNat_le, UInt32.lt_iff_toNat_lt, hsucc] at hheld hlonger ⊢
    omega
  exact hr.not_covers_successor hlonger (h _ (covers_cons.mpr (.inl hgap)))

theorem eq_of_covers (hr : NormalForm rs) (hs : NormalForm ss)
    (h : ∀ x, Covers rs x ↔ Covers ss x) : rs = ss := by
  induction rs generalizing ss with
  | nil =>
      cases ss with
      | nil => rfl
      | cons s ss => exact absurd ((h s.first).mpr hs.covers_first) covers_nil
  | cons r rs ih =>
      cases ss with
      | nil => exact absurd ((h r.first).mp hr.covers_first) covers_nil
      | cons s ss =>
          have hfirst : r.first = s.first :=
            UInt32.le_antisymm (hr.first_le hs fun x => (h x).mpr) (hs.first_le hr fun x => (h x).mp)
          have hlast : r.last = s.last :=
            UInt32.le_antisymm (hs.last_le hfirst fun x => (h x).mp)
              (hr.last_le hfirst.symm fun x => (h x).mpr)
          obtain rfl : r = s := CodePointRange.ext hfirst hlast
          have htail : ∀ x, Covers rs x ↔ Covers ss x := fun x => by
            rw [hr.covers_tail_iff, hs.covers_tail_iff, h x]
          rw [ih hr.tail hs.tail htail]

end NormalForm

end RegexTree.CodePointRange
