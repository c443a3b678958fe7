import RegexTree.CodePoint.Range

namespace RegexTree

def Covers (rs : List CodePointRange) (x : UInt32) : Prop := ∃ r ∈ rs, x ∈ r

instance (rs : List CodePointRange) (x : UInt32) : Decidable (Covers rs x) :=
  inferInstanceAs (Decidable (∃ r ∈ rs, x ∈ r))

@[simp] theorem covers_nil {x : UInt32} : ¬ Covers [] x := by
  simp [Covers]

@[simp] theorem covers_cons {r : CodePointRange} {rs : List CodePointRange} {x : UInt32} :
    Covers (r :: rs) x ↔ x ∈ r ∨ Covers rs x := by
  simp [Covers]

@[simp] theorem covers_append {rs ss : List CodePointRange} {x : UInt32} :
    Covers (rs ++ ss) x ↔ Covers rs x ∨ Covers ss x := by
  simp [Covers, or_and_right, exists_or]

namespace CodePointRange

def Apart (r s : CodePointRange) : Prop := r.last.toNat + 1 < s.first.toNat

instance (r s : CodePointRange) : Decidable (r.Apart s) :=
  inferInstanceAs (Decidable (r.last.toNat + 1 < s.first.toNat))

structure NormalForm (rs : List CodePointRange) : Prop where
  nonempty : ∀ r ∈ rs, r.first ≤ r.last
  apart : rs.Pairwise Apart

theorem normalForm_iff {rs : List CodePointRange} :
    NormalForm rs ↔ (∀ r ∈ rs, r.first ≤ r.last) ∧ rs.Pairwise Apart :=
  ⟨fun h => ⟨h.nonempty, h.apart⟩, fun h => ⟨h.1, h.2⟩⟩

instance (rs : List CodePointRange) : Decidable (NormalForm rs) :=
  decidable_of_iff _ normalForm_iff.symm

def saturatingSuccessor (x : UInt32) : UInt32 := if x = 0xFFFFFFFF then x else x + 1

theorem toNat_saturatingSuccessor (x : UInt32) :
    (saturatingSuccessor x).toNat = min (x.toNat + 1) 0xFFFFFFFF := by
  have := x.toNat_lt
  unfold saturatingSuccessor
  split
  · next h => subst h; decide
  · next h =>
      have h : x.toNat ≠ 0xFFFFFFFF := fun e => h (UInt32.toNat_inj.mp e)
      rw [UInt32.toNat_add]
      simp only [UInt32.toNat_one]
      omega

def coalesceFrom (r : CodePointRange) : List CodePointRange → List CodePointRange
  | [] => [r]
  | s :: rest =>
      if s.first ≤ saturatingSuccessor r.last then coalesceFrom ⟨r.first, max r.last s.last⟩ rest
      else r :: coalesceFrom s rest

def coalesce : List CodePointRange → List CodePointRange
  | [] => []
  | r :: rest => coalesceFrom r rest

def normalize (rs : List CodePointRange) : List CodePointRange :=
  coalesce ((rs.filter fun r => !r.isEmpty).mergeSort fun r s => (compare r s).isLE)

end CodePointRange

end RegexTree
