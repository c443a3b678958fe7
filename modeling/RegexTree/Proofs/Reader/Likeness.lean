import RegexTree.Proofs.Reader.Transcription

namespace RegexTree

namespace Pattern

variable {Shared Shared' Draft Draft' Symbol Symbol' α β : Type} {k : Nat}

inductive Phase.Alike : Phase Draft Symbol → Phase Draft' Symbol' → Prop
  | base : Alike .base .base
  | factor (t t' starred) : Alike (.factor t starred) (.factor t' starred)
  | inClass (negated negated' draft draft' place) :
      Alike (.inClass negated draft place) (.inClass negated' draft' place)

namespace Reader

structure Alike (k : Nat) (r : Reader Shared Draft Symbol) (q : Reader Shared' Draft' Symbol') :
    Prop where
  position : q.position = r.position + k
  depth : q.depth = r.depth
  outer : q.outer.length = r.outer.length
  phase : r.phase.Alike q.phase

variable {p : Parser Shared Draft Symbol} {p' : Parser Shared' Draft' Symbol'}
  {r : Reader Shared Draft Symbol} {q : Reader Shared' Draft' Symbol'} {c : Char}

namespace Alike

theorem unexpected {R : α → β → Prop} (h : r.Alike k q) (c : Char) :
    SameOutcome k R (r.unexpected c) (q.unexpected c) :=
  .error (by rw [h.position]; rfl)

theorem mayOpen (hlimit : p'.limit = p.limit) (h : r.Alike k q) : q.mayOpen p' = r.mayOpen p := by
  rw [Reader.mayOpen, Reader.mayOpen, hlimit, h.depth]

theorem onward (h : r.Alike k q) : r.onward.Alike k q.onward where
  position := by simp only [Reader.onward, h.position]; omega
  depth := h.depth
  outer := h.outer
  phase := h.phase

theorem openGroup (h : r.Alike k q) : r.openGroup.Alike k q.openGroup where
  position := h.position
  depth := congrArg (· + 1) h.depth
  outer := congrArg (· + 1) h.outer
  phase := .base

theorem at_phase {phase : Phase Draft Symbol} {phase' : Phase Draft' Symbol'} (h : r.Alike k q)
    (shared : Shared) (shared' : Shared') (inner : Expression Symbol) (inner' : Expression Symbol')
    (hphase : phase.Alike phase') :
    Alike k { r with shared, inner, phase }
      { q with shared := shared', inner := inner', phase := phase' } where
  position := h.position
  depth := h.depth
  outer := h.outer
  phase := hphase

theorem readBase (hlimit : p'.limit = p.limit) (h : r.Alike k q) :
    SameOutcome k (Alike k) (r.readBase p c) (q.readBase p' c) := by
  rw [Reader.readBase, Reader.readBase, h.mayOpen hlimit]
  split
  · split
    · exact .ok h.openGroup
    · exact .error (by rw [h.position]; rfl)
  · split
    · exact .ok (h.at_phase _ _ _ _ (.inClass _ _ _ _ _))
    · split
      · exact .ok (h.at_phase _ _ _ _ (.factor _ _ _))
      · exact h.unexpected c

theorem closeGroup (h : r.Alike k q) (t : Regex Symbol) (t' : Regex Symbol') :
    SameOutcome k (Alike k) (r.closeGroup t) (q.closeGroup t') := by
  have houter := h.outer
  rw [Reader.closeGroup, Reader.closeGroup]
  cases hr : r.outer with
  | nil =>
      rw [hr, List.length_nil, List.length_eq_zero_iff] at houter
      rw [houter]
      exact h.unexpected ')'
  | cons e outer =>
      rw [hr, List.length_cons] at houter
      obtain ⟨e', outer', hq⟩ := List.exists_cons_of_length_eq_add_one houter
      rw [hq, List.length_cons, Nat.add_right_cancel_iff] at houter
      rw [hq]
      exact .ok ⟨h.position, congrArg (· - 1) h.depth, houter, .factor _ _ false⟩

theorem readBehindFactor (hlimit : p'.limit = p.limit) (h : r.Alike k q) (t : Regex Symbol)
    (t' : Regex Symbol') (starred : Bool) :
    SameOutcome k (Alike k) (r.readBehindFactor p t starred c)
      (q.readBehindFactor p' t' starred c) := by
  rw [Reader.readBehindFactor, Reader.readBehindFactor]
  split
  · exact .ok (h.at_phase _ _ _ _ (.factor _ _ true))
  · split
    · exact .ok (h.at_phase _ _ _ _ .base)
    · split
      · exact h.closeGroup t t'
      · split
        · exact (h.at_phase _ _ _ _ h.phase).readBase hlimit
        · exact h.unexpected c

theorem readMember (h : r.Alike k q) (negated negated' : Bool) (draft : Draft) (draft' : Draft') :
    SameOutcome k (Alike k) (r.readMember negated draft c)
      (q.readMember negated' draft' c) := by
  rw [Reader.readMember, Reader.readMember]
  split
  · exact .ok (h.at_phase _ _ _ _ (.inClass _ _ _ _ _))
  · exact h.unexpected c

theorem readBehindItem (h : r.Alike k q) (negated negated' : Bool) (draft : Draft)
    (draft' : Draft') :
    SameOutcome k (Alike k) (r.readBehindItem p negated draft c)
      (q.readBehindItem p' negated' draft' c) := by
  rw [Reader.readBehindItem, Reader.readBehindItem]
  split
  · exact .ok (h.at_phase _ _ _ _ (.factor _ _ false))
  · exact h.readMember negated negated' draft draft'

theorem readInClass (h : r.Alike k q) (negated negated' : Bool) (draft : Draft) (draft' : Draft')
    (place : Place) :
    SameOutcome k (Alike k) (r.readInClass p negated draft place c)
      (q.readInClass p' negated' draft' place c) := by
  cases place with
  | bracket =>
      simp only [Reader.readInClass]
      split
      · exact .ok (h.at_phase _ _ _ _ (.inClass _ _ _ _ _))
      · exact h.readMember _ _ _ _
  | negation => exact h.readMember _ _ _ _
  | member first =>
      simp only [Reader.readInClass]
      split
      · exact .ok (h.at_phase _ _ _ _ (.inClass _ _ _ _ _))
      · exact (h.at_phase _ _ _ _ h.phase).readBehindItem _ _ _ _
  | hyphen first =>
      simp only [Reader.readInClass]
      split
      · exact .ok (h.at_phase _ _ _ _ (.inClass _ _ _ _ _))
      · exact .error (by rw [h.position]; rfl)
  | item => exact h.readBehindItem _ _ _ _

theorem step (hlimit : p'.limit = p.limit) (h : r.Alike k q) (c : Char) :
    SameOutcome k (Alike k) (r.step p c) (q.step p' c) := by
  have hphase := h.phase
  rw [Reader.step, Reader.step]
  generalize r.phase = phase at hphase
  generalize q.phase = phase' at hphase
  cases hphase with
  | base => exact h.readBase hlimit
  | factor t t' starred => exact h.readBehindFactor hlimit t t' starred
  | inClass negated negated' draft draft' place =>
      exact h.readInClass negated negated' draft draft' place

theorem advance (hlimit : p'.limit = p.limit) (h : r.Alike k q) (c : Char) :
    SameOutcome k (Alike k) (r.advance p c) (q.advance p' c) := by
  rw [Reader.advance, Reader.advance]
  exact (h.step hlimit c).map fun _ _ hnext => hnext.onward

theorem finish (h : r.Alike k q) :
    SameOutcome k (fun _ _ => True) (r.finish p) (q.finish p') := by
  have hphase := h.phase
  rw [Reader.finish, Reader.finish]
  generalize r.phase = phase at hphase
  generalize q.phase = phase' at hphase
  cases hphase with
  | base => exact h.unexpected endOfInput
  | factor t t' starred =>
      have hempty : q.outer.isEmpty = r.outer.isEmpty := by
        rw [Bool.eq_iff_iff]
        simp only [List.isEmpty_iff_length_eq_zero, h.outer]
      simp only [hempty]
      split
      · exact .ok trivial
      · exact .error (by rw [h.position]; rfl)
  | inClass negated negated' draft draft' place =>
      refine .error ?_
      cases place <;> simp [finishClass, ParseError.shift, h.position]

theorem bind_finish (hlimit : p'.limit = p.limit) (h : r.Alike k q) (cs : List Char) :
    SameOutcome k (fun _ _ => True) ((r.readAll p cs).bind (Reader.finish p))
      ((q.readAll p' cs).bind (Reader.finish p')) := by
  have hread := SameOutcome.readAll (fun _ _ c h => h.advance hlimit c) h cs
  exact hread.bind fun _ _ hend => hend.finish

end Alike

end Reader

end Pattern

namespace Parser

open Pattern

variable {Shared Draft Symbol : Type} {p : Parser Shared Draft Symbol} {s s' : Shared}
  {u v : List Char} {k : Nat}

theorem read_of_sameOutcome
    (h : SameOutcome k (fun _ _ => True) (p.alternatives s u) (p.alternatives s' v)) :
    (∃ t t', (p.read s u).1 = .ok t ∧ (p.read s' v).1 = .ok t') ∨
      ∃ e, (p.read s u).1 = .error e ∧ (p.read s' v).1 = .error (e.shift k) := by
  cases hu : p.alternatives s u with
  | ok a =>
      cases hv : p.alternatives s' v with
      | ok b =>
          obtain ⟨t, ht⟩ := read_eq_ok hu
          obtain ⟨t', ht'⟩ := read_eq_ok hv
          exact .inl ⟨t, t', ht, ht'⟩
      | error halt =>
          rw [hu, hv] at h
          contradiction
  | error halt =>
      cases hv : p.alternatives s' v with
      | ok b =>
          rw [hu, hv] at h
          contradiction
      | error halt' =>
          rw [hu, hv] at h
          cases h with
          | error herror =>
              refine .inr ⟨halt.error, read_eq_error_iff.mpr ⟨halt, hu, rfl⟩, ?_⟩
              exact read_eq_error_iff.mpr ⟨halt', hv, herror.symm⟩

end Parser

end RegexTree
