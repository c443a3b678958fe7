import RegexTree.Pattern.Reader

namespace RegexTree.Pattern

theorem ne_of_isLiteral {c d : Char} (h : isLiteral c) (hd : d ∈ specials) : c ≠ d := by
  rintro rfl
  rw [not_isLiteral_iff.mpr hd] at h
  contradiction

theorem ne_of_isMember {c d : Char} (h : isMember c) (hd : isMember d = false) : c ≠ d := by
  rintro rfl
  rw [hd] at h
  contradiction

theorem ne_of_startsFactor {c d : Char} (h : startsFactor c) (hd : startsFactor d = false) :
    c ≠ d := by
  rintro rfl
  rw [hd] at h
  contradiction

namespace Reader

variable {Shared Draft Symbol : Type} {p : Parser Shared Draft Symbol}
  {r r' : Reader Shared Draft Symbol} {c : Char}

inductive Ready (r : Reader Shared Draft Symbol) : Reader Shared Draft Symbol → Prop
  | base : r.phase = .base → Ready r r
  | factor {t starred} : r.phase = .factor t starred → Ready r { r with inner := r.inner.push t }

inductive Move (p : Parser Shared Draft Symbol) (r : Reader Shared Draft Symbol) :
    Char → Reader Shared Draft Symbol → Prop
  | openGroup {b} : r.Ready b → b.mayOpen p → Move p r '(' b.openGroup
  | openClass {b} : r.Ready b → Move p r '[' (b.openClass p)
  | literal {b c} : r.Ready b → isLiteral c → Move p r c (b.literal p c)
  | star {t} : r.phase = .factor t false → Move p r '*' { r with phase := .factor (.star t) true }
  | split {t starred} : r.phase = .factor t starred →
      Move p r '|' { r with inner := (r.inner.push t).split, phase := .base }
  | closeGroup {t starred e outer} : r.phase = .factor t starred → r.outer = e :: outer →
      Move p r ')' { r with
        depth := r.depth - 1
        outer
        inner := e
        phase := .factor (r.inner.push t).tree false }
  | negate {negated draft} : r.phase = .inClass negated draft .bracket →
      Move p r '^' { r with phase := .inClass true draft .negation }
  | member {negated draft place c} : r.phase = .inClass negated draft place →
      place ∈ [.bracket, .negation, .item] → isMember c →
      Move p r c { r with phase := .inClass negated draft (.member c) }
  | nextMember {negated draft first c} : r.phase = .inClass negated draft (.member first) →
      isMember c → c ≠ '-' →
      Move p r c { r with
        shared := (addItem p negated draft (.single first) r.shared).2
        phase := .inClass negated (addItem p negated draft (.single first) r.shared).1 (.member c) }
  | hyphen {negated draft first} : r.phase = .inClass negated draft (.member first) →
      Move p r '-' { r with phase := .inClass negated draft (.hyphen first) }
  | range {negated draft first c} : r.phase = .inClass negated draft (.hyphen first) →
      isLiteral c →
      Move p r c { r with
        shared := (addItem p negated draft (.between first c) r.shared).2
        phase := .inClass negated (addItem p negated draft (.between first c) r.shared).1 .item }
  | closeClass {negated draft} : r.phase = .inClass negated draft .item →
      Move p r ']' (r.complete p draft)
  | closeMember {negated draft first} : r.phase = .inClass negated draft (.member first) →
      Move p r ']' ({ r with
        shared := (addItem p negated draft (.single first) r.shared).2 }.complete p
          (addItem p negated draft (.single first) r.shared).1)

inductive Refusal (p : Parser Shared Draft Symbol) (r : Reader Shared Draft Symbol) (c : Char) :
    ParseError → Prop
  | unexpected : Refusal p r c (.unexpected c r.position)
  | openRange {negated draft first} : r.phase = .inClass negated draft (.hyphen first) →
      isLiteral c = false → Refusal p r c (.openRange r.position)
  | tooDeep {b} : r.Ready b → c = '(' → b.mayOpen p = false →
      Refusal p r c (.tooDeep r.position)

theorem Refusal.position {e : ParseError} (h : Refusal p r c e) : e.position = r.position := by
  cases h <;> rfl

theorem step_of_ready {b : Reader Shared Draft Symbol} (h : r.Ready b) (hc : startsFactor c) :
    r.step p c = b.readBase p c := by
  cases h with
  | base h => rw [step, h]
  | factor h =>
      have hstar : c ≠ '*' := ne_of_startsFactor hc (by decide)
      have hbar : c ≠ '|' := ne_of_startsFactor hc (by decide)
      have hclose : c ≠ ')' := ne_of_startsFactor hc (by decide)
      simp [step, h, readBehindFactor, hstar, hbar, hclose, hc]

theorem Move.step_eq (h : Move p r c r') : r.step p c = .ok r' := by
  cases h with
  | openGroup h hopen => simp [step_of_ready h (show startsFactor '(' by decide), readBase, hopen]
  | openClass h => simp [step_of_ready h (show startsFactor '[' by decide), readBase]
  | literal h hc =>
      have hopen : c ≠ '(' := ne_of_isLiteral hc (by decide)
      have hclass : c ≠ '[' := ne_of_isLiteral hc (by decide)
      simp [step_of_ready h (startsFactor_of_isLiteral hc), readBase, hopen, hclass, hc]
  | star h => simp [step, h, readBehindFactor]
  | split h => simp [step, h, readBehindFactor]
  | closeGroup h houter => simp [step, h, readBehindFactor, Reader.closeGroup, houter]
  | negate h => simp [step, h, readInClass]
  | member h hplace hc =>
      have hnegate : c ≠ '^' := ne_of_isMember hc (by decide)
      have hclose : c ≠ ']' := ne_of_isMember hc (by decide)
      simp only [List.mem_cons, List.not_mem_nil, or_false] at hplace
      rcases hplace with rfl | rfl | rfl
      · simp [step, h, readInClass, readMember, hnegate, hc]
      · simp [step, h, readInClass, readMember, hc]
      · simp [step, h, readInClass, readBehindItem, readMember, hclose, hc]
  | nextMember h hc hhyphen =>
      have hclose : c ≠ ']' := ne_of_isMember hc (by decide)
      simp [step, h, readInClass, readBehindItem, readMember, hclose, hc, hhyphen]
  | hyphen h => simp [step, h, readInClass]
  | range h hc => simp [step, h, readInClass, hc]
  | closeClass h => simp [step, h, readInClass, readBehindItem]
  | closeMember h => simp [step, h, readInClass, readBehindItem]

theorem readBase_outcome {b : Reader Shared Draft Symbol} (h : r.Ready b) :
    (∃ r', b.readBase p c = .ok r' ∧ Move p r c r') ∨
      ∃ halt, b.readBase p c = .error halt ∧ Refusal p r c halt.error := by
  have hposition : b.position = r.position := by cases h <;> rfl
  rw [readBase]
  split
  · next hc =>
      subst hc
      split
      · next hopen => exact .inl ⟨_, rfl, .openGroup h hopen⟩
      · next hfull =>
          refine .inr ⟨_, rfl, ?_⟩
          rw [hposition]
          exact .tooDeep h rfl (Bool.not_eq_true _ ▸ hfull)
  · split
    · next hc =>
        subst hc
        exact .inl ⟨_, rfl, .openClass h⟩
    · split
      · next hc => exact .inl ⟨_, rfl, .literal h hc⟩
      · refine .inr ⟨_, rfl, ?_⟩
        rw [hposition]
        exact .unexpected

theorem readBehindFactor_outcome {t : Regex Symbol} {starred : Bool}
    (h : r.phase = .factor t starred) :
    (∃ r', r.readBehindFactor p t starred c = .ok r' ∧ Move p r c r') ∨
      ∃ halt, r.readBehindFactor p t starred c = .error halt ∧ Refusal p r c halt.error := by
  rw [readBehindFactor]
  split
  · next hc =>
      simp only [Bool.and_eq_true, decide_eq_true_eq, Bool.not_eq_true'] at hc
      obtain ⟨rfl, rfl⟩ := hc
      exact .inl ⟨_, rfl, .star h⟩
  · split
    · next hc =>
        subst hc
        exact .inl ⟨_, rfl, .split h⟩
    · split
      · next hc =>
          subst hc
          rw [closeGroup]
          split
          · exact .inr ⟨_, rfl, .unexpected⟩
          · next houter => exact .inl ⟨_, rfl, .closeGroup h houter⟩
      · split
        · exact readBase_outcome (.factor h)
        · exact .inr ⟨_, rfl, .unexpected⟩

theorem readInClass_outcome {negated : Bool} {draft : Draft} {place : Place}
    (h : r.phase = .inClass negated draft place) :
    (∃ r', r.readInClass p negated draft place c = .ok r' ∧ Move p r c r') ∨
      ∃ halt, r.readInClass p negated draft place c = .error halt ∧ Refusal p r c halt.error := by
  cases place with
  | bracket =>
      simp only [readInClass, readMember]
      split
      · next hc =>
          subst hc
          exact .inl ⟨_, rfl, .negate h⟩
      · split
        · next hc => exact .inl ⟨_, rfl, .member h (by simp) hc⟩
        · exact .inr ⟨_, rfl, .unexpected⟩
  | negation =>
      simp only [readInClass, readMember]
      split
      · next hc => exact .inl ⟨_, rfl, .member h (by simp) hc⟩
      · exact .inr ⟨_, rfl, .unexpected⟩
  | member first =>
      simp only [readInClass, readBehindItem, readMember]
      split
      · next hc =>
          subst hc
          exact .inl ⟨_, rfl, .hyphen h⟩
      · next hhyphen =>
          split
          · next hc =>
              subst hc
              exact .inl ⟨_, rfl, .closeMember h⟩
          · split
            · next hc => exact .inl ⟨_, rfl, .nextMember h hc hhyphen⟩
            · exact .inr ⟨_, rfl, .unexpected⟩
  | hyphen first =>
      simp only [readInClass]
      split
      · next hc => exact .inl ⟨_, rfl, .range h hc⟩
      · next hc => exact .inr ⟨_, rfl, .openRange h (Bool.not_eq_true _ ▸ hc)⟩
  | item =>
      simp only [readInClass, readBehindItem, readMember]
      split
      · next hc =>
          subst hc
          exact .inl ⟨_, rfl, .closeClass h⟩
      · split
        · next hc => exact .inl ⟨_, rfl, .member h (by simp) hc⟩
        · exact .inr ⟨_, rfl, .unexpected⟩

theorem step_outcome (p : Parser Shared Draft Symbol) (r : Reader Shared Draft Symbol) (c : Char) :
    (∃ r', r.step p c = .ok r' ∧ Move p r c r') ∨
      ∃ halt, r.step p c = .error halt ∧ Refusal p r c halt.error := by
  rw [step]
  split
  · next h => exact readBase_outcome (.base h)
  · next h => exact readBehindFactor_outcome h
  · next h => exact readInClass_outcome h

theorem step_eq_ok_iff : r.step p c = .ok r' ↔ Move p r c r' := by
  refine ⟨?_, Move.step_eq⟩
  intro h
  rcases step_outcome p r c with ⟨s, hs, hmove⟩ | ⟨halt, hs, -⟩
  · rw [h] at hs
    cases hs
    exact hmove
  · rw [h] at hs
    contradiction

theorem refusal_of_step {halt : Halt Shared} (h : r.step p c = .error halt) :
    Refusal p r c halt.error := by
  rcases step_outcome p r c with ⟨s, hs, -⟩ | ⟨halt', hs, hrefusal⟩
  · rw [h] at hs
    contradiction
  · rw [h] at hs
    cases hs
    exact hrefusal

end Reader

end RegexTree.Pattern
