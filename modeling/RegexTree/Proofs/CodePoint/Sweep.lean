import RegexTree.CodePoint.Sweep
import RegexTree.Proofs.CodePoint.Subtraction

namespace RegexTree.CodePointRange

variable {x y last : UInt32} {cut r : CodePointRange} {cuts base removed : List CodePointRange}

theorem checkedPredecessor_eq_some_iff : checkedPredecessor x = some y ↔ y.toNat + 1 = x.toNat := by
  unfold checkedPredecessor
  split
  · next h => simp [h]
  · next h =>
      have hpos : 0 < x := UInt32.pos_iff_ne_zero.mpr h
      rw [Option.some.injEq, ← UInt32.toNat_inj, toNat_predecessor hpos]
      rw [UInt32.lt_iff_toNat_lt, UInt32.toNat_zero] at hpos
      omega

theorem checkedSuccessor_eq_some_iff : checkedSuccessor x = some y ↔ y.toNat = x.toNat + 1 := by
  have hy := y.toNat_lt
  unfold checkedSuccessor
  split
  · next h =>
      subst h
      simp
      omega
  · next h =>
      have hx := x.toNat_lt
      have h : x.toNat ≠ 0xFFFFFFFF := fun e => h (UInt32.toNat_inj.mp e)
      rw [Option.some.injEq, ← UInt32.toNat_inj, UInt32.toNat_add, UInt32.toNat_one]
      omega

theorem checkedPredecessor_of_lt (h : x < y) : checkedPredecessor y = some (y - 1) := by
  rw [checkedPredecessor_eq_some_iff, toNat_predecessor h]
  rw [UInt32.lt_iff_toNat_lt] at h
  omega

theorem checkedSuccessor_of_lt (h : x < y) : checkedSuccessor x = some (x + 1) :=
  checkedSuccessor_eq_some_iff.mpr (toNat_successor h)

namespace Sweep

variable {s : Sweep} {first : UInt32}

def owed (last : UInt32) (s : Sweep) (cuts : List CodePointRange) : List CodePointRange :=
  match s.start with
  | none => []
  | some first => carve first last cuts

theorem keepBefore_eq : s.keepBefore first cut =
    some (if first < cut.first then s.left.push ⟨first, cut.first - 1⟩ else s.left) := by
  unfold keepBefore
  split
  · next h => simp [checkedPredecessor_of_lt h]
  · rfl

theorem startBehind_eq : startBehind first last cut =
    some (if cut.last < last then some (max first (cut.last + 1)) else none) := by
  unfold startBehind
  split
  · next h => simp [checkedSuccessor_of_lt h]
  · rfl

theorem step_keeps (last : UInt32) (s : Sweep) (cut : CodePointRange) (cuts : List CodePointRange) :
    ∃ s', s.step last cut = some s' ∧
      s'.left.toList ++ s'.owed last cuts = s.left.toList ++ s.owed last (cut :: cuts) := by
  obtain ⟨left, start⟩ := s
  cases start with
  | none => exact ⟨_, rfl, rfl⟩
  | some first =>
      simp only [step, keepBefore_eq, startBehind_eq]
      refine ⟨_, rfl, ?_⟩
      simp only [owed, carve]
      -- Something may stand before the cut, and something behind it.
      by_cases hbefore : first < cut.first <;> by_cases hbehind : cut.last < last <;>
        simp [hbefore, hbehind]

theorem leave_eq : (s.leave last).left.toList = s.left.toList ++ s.owed last [] := by
  obtain ⟨left, start⟩ := s
  cases start <;> simp [leave, owed, carve]

theorem steps_keep (last : UInt32) (s : Sweep) (cuts : List CodePointRange) :
    ∃ s', cuts.foldlM (step last) s = some s' ∧
      (s'.leave last).left.toList = s.left.toList ++ s.owed last cuts := by
  induction cuts generalizing s with
  | nil => exact ⟨s, rfl, leave_eq⟩
  | cons cut cuts ih =>
      obtain ⟨t, hstep, hkeeps⟩ := step_keeps last s cut cuts
      obtain ⟨s', hsteps, hleft⟩ := ih t
      refine ⟨s', ?_, hleft.trans hkeeps⟩
      simp [List.foldlM_cons, hstep, hsteps]

theorem pass_keeps (removed : List CodePointRange) (s : Sweep) (r : CodePointRange) :
    ∃ s', s.pass removed r = some s' ∧
      s'.left.toList = s.left.toList ++ carve r.first r.last (removed.filter r.overlaps) := by
  obtain ⟨t, hsteps, hleft⟩ := steps_keep r.last (s.enter r) (removed.filter r.overlaps)
  refine ⟨t.leave r.last, ?_, hleft⟩
  simp [pass, hsteps]

theorem passes_keep (removed : List CodePointRange) (s : Sweep) (base : List CodePointRange) :
    ∃ s', base.foldlM (pass removed) s = some s' ∧
      s'.left.toList = s.left.toList ++ subtract base removed := by
  induction base generalizing s with
  | nil => exact ⟨s, rfl, by simp [subtract]⟩
  | cons r base ih =>
      obtain ⟨t, hpass, hleft⟩ := pass_keeps removed s r
      obtain ⟨s', hpasses, hrest⟩ := ih t
      refine ⟨s', by simp [List.foldlM_cons, hpass, hpasses], ?_⟩
      rw [hrest, hleft, List.append_assoc, subtract_cons]

end Sweep

theorem sweep_eq (base removed : List CodePointRange) :
    sweep base removed = some (subtract base removed) := by
  obtain ⟨s, hpasses, hleft⟩ := Sweep.passes_keep removed {} base
  simp [sweep, hpasses, hleft]

theorem subtract_of_normalForm (hbase : NormalForm base) (h : NormalForm removed) :
    NormalForm (subtract base removed) ∧
      (∀ x, Covers (subtract base removed) x ↔ Covers base x ∧ ¬ Covers removed x) ∧
      sweep base removed = some (subtract base removed) :=
  ⟨normalForm_subtract hbase h, fun _ => covers_subtract h, sweep_eq base removed⟩

theorem subtract_of_normalForm_at_both_ends :
    NormalForm [⟨0, 0x10⟩, ⟨0x20, 0xFFFFFFFF⟩] ∧
      NormalForm [⟨0, 5⟩, ⟨8, 0x30⟩, ⟨0xFFFFFFFF, 0xFFFFFFFF⟩] ∧
      sweep [⟨0, 0x10⟩, ⟨0x20, 0xFFFFFFFF⟩] [⟨0, 5⟩, ⟨8, 0x30⟩, ⟨0xFFFFFFFF, 0xFFFFFFFF⟩] =
        some [⟨6, 7⟩, ⟨0x31, 0xFFFFFFFE⟩] ∧
      NormalForm [⟨6, 7⟩, ⟨0x31, 0xFFFFFFFE⟩] := by
  have hbase : NormalForm [⟨0, 0x10⟩, ⟨0x20, 0xFFFFFFFF⟩] := by decide
  have hremoved : NormalForm [⟨0, 5⟩, ⟨8, 0x30⟩, ⟨0xFFFFFFFF, 0xFFFFFFFF⟩] := by decide
  have hleft : subtract [⟨0, 0x10⟩, ⟨0x20, 0xFFFFFFFF⟩]
      [⟨0, 5⟩, ⟨8, 0x30⟩, ⟨0xFFFFFFFF, 0xFFFFFFFF⟩] = [⟨6, 7⟩, ⟨0x31, 0xFFFFFFFE⟩] := by decide
  obtain ⟨hform, -, hsweep⟩ := subtract_of_normalForm hbase hremoved
  rw [hleft] at hform hsweep
  exact ⟨hbase, hremoved, hsweep, hform⟩

end RegexTree.CodePointRange
