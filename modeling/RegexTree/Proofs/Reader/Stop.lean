import RegexTree.Proofs.Reader.Depth

namespace RegexTree

variable {Shared Draft Symbol : Type}

namespace Pattern.Reader

variable {p : Parser Shared Draft Symbol}

inductive Stops (p : Parser Shared Draft Symbol) (r : Reader Shared Draft Symbol)
    (halt : Halt Shared) : Prop
  | refused {c} : r.step p c = .error halt → Stops p r halt
  | ended : r.finish p = .error halt → Stops p r halt

variable {r : Reader Shared Draft Symbol} {halt : Halt Shared} {c : Char}

theorem shared_of_readBase (h : r.readBase p c = .error halt) : halt.shared = r.shared := by
  rw [readBase] at h
  split at h
  · split at h
    · contradiction
    · cases h
      rfl
  · split at h
    · contradiction
    · split at h
      · contradiction
      · cases h
        rfl

theorem shared_of_readBehindFactor {t : Regex Symbol} {starred : Bool}
    (h : r.readBehindFactor p t starred c = .error halt) : halt.shared = r.shared := by
  rw [readBehindFactor] at h
  split at h
  · contradiction
  · split at h
    · contradiction
    · split at h
      · rw [closeGroup] at h
        split at h
        · cases h
          rfl
        · contradiction
      · split at h
        · have hshared := shared_of_readBase h
          exact hshared
        · cases h
          rfl

theorem shared_of_readMember {negated : Bool} {draft : Draft}
    (h : r.readMember negated draft c = .error halt) : halt.shared = r.shared := by
  rw [readMember] at h
  split at h
  · contradiction
  · cases h
    rfl

theorem shared_of_readBehindItem {negated : Bool} {draft : Draft}
    (h : r.readBehindItem p negated draft c = .error halt) : halt.shared = r.shared := by
  rw [readBehindItem] at h
  split at h
  · contradiction
  · exact shared_of_readMember h

theorem Stops.shared_outside (h : r.Stops p halt) (hout : r.phase.isInClass = false) :
    halt.shared = r.shared := by
  cases hphase : r.phase with
  | base =>
      cases h with
      | refused h =>
          rw [step, hphase] at h
          exact shared_of_readBase h
      | ended h =>
          rw [finish, hphase] at h
          cases h
          rfl
  | factor t starred =>
      cases h with
      | refused h =>
          rw [step, hphase] at h
          exact shared_of_readBehindFactor h
      | ended h =>
          simp only [finish, hphase] at h
          split at h
          · contradiction
          · cases h
            rfl
  | inClass negated draft place =>
      rw [hphase] at hout
      contradiction

theorem Stops.shared_inClass {negated : Bool} {draft : Draft} {place : Place} (h : r.Stops p halt)
    (hphase : r.phase = .inClass negated draft place) :
    halt.shared = r.shared ∨ ∃ first, place = .member first ∧
      halt.shared = (addItem p negated draft (.single first) r.shared).2 := by
  cases h with
  | refused h =>
      rw [step, hphase] at h
      cases place with
      | bracket =>
          simp only [readInClass] at h
          split at h
          · contradiction
          · exact .inl (shared_of_readMember h)
      | negation => exact .inl (shared_of_readMember h)
      | member first =>
          simp only [readInClass] at h
          split at h
          · contradiction
          · exact .inr ⟨first, rfl, shared_of_readBehindItem h⟩
      | hyphen first =>
          simp only [readInClass] at h
          split at h
          · contradiction
          · cases h
            exact .inl rfl
      | item => exact .inl (shared_of_readBehindItem h)
  | ended h =>
      rw [finish, hphase] at h
      cases h
      cases place with
      | member first => exact .inr ⟨first, rfl, rfl⟩
      | bracket | negation | hyphen first | item => exact .inl rfl

end Pattern.Reader

theorem Parser.stops_of_alternatives {p : Parser Shared Draft Symbol} {s : Shared} {cs : List Char}
    {halt : Pattern.Halt Shared} (h : p.alternatives s cs = .error halt) :
    ∃ r, p.run s (cs.take (halt.error.position - 1)) = .ok r ∧ r.Stops p halt := by
  rcases alternatives_eq_error h with ⟨u, c, v, r, rfl, hrun, hstep⟩ | ⟨r, hrun, hfinish⟩
  · refine ⟨r, ?_, .refused hstep⟩
    rw [(Pattern.Reader.refusal_of_step hstep).position, position_of_run hrun, Nat.add_sub_cancel,
      List.take_left]
    exact hrun
  · refine ⟨r, ?_, .ended hfinish⟩
    rw [Pattern.Reader.position_of_finish hfinish, position_of_run hrun, Nat.add_sub_cancel,
      List.take_length]
    exact hrun

end RegexTree
