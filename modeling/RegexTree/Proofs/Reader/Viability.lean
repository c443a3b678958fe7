import RegexTree.Proofs.Reader.Run

namespace RegexTree

variable {Shared Draft Symbol : Type}

namespace Pattern.Reader

variable {p : Parser Shared Draft Symbol} {r s : Reader Shared Draft Symbol} {c : Char}

def Viable (p : Parser Shared Draft Symbol) (r : Reader Shared Draft Symbol) : Prop :=
  ∃ u s a, r.readAll p u = .ok s ∧ s.finish p = .ok a

theorem Viable.before (h : s.onward.Viable p) (hmove : Move p r c s) : r.Viable p := by
  obtain ⟨u, s', a, hrun, hfinish⟩ := h
  refine ⟨c :: u, s', a, ?_, hfinish⟩
  rw [readAll_cons_of_move hmove]
  exact hrun

theorem viable_of_factor {t : Regex Symbol} {starred : Bool} (h : r.phase = .factor t starred) :
    r.Viable p := by
  induction houter : r.outer generalizing r t starred with
  | nil =>
      refine ⟨[], r, ((r.inner.push t).toAlternatives, r.shared), rfl, ?_⟩
      simp [finish, h, houter]
  | cons e outer ih =>
      have hclose : Move p r ')' _ := .closeGroup h houter
      exact Viable.before (ih rfl rfl) hclose

theorem viable_of_base (h : r.phase = .base) : r.Viable p := by
  have hliteral : Move p r 'a' _ := .literal (.base h) (by decide)
  exact (viable_of_factor rfl).before hliteral

theorem viable_of_member {negated : Bool} {draft : Draft} {first : Char}
    (h : r.phase = .inClass negated draft (.member first)) : r.Viable p := by
  have hclose : Move p r ']' _ := .closeMember h
  exact (viable_of_factor rfl).before hclose

theorem viable_of_item {negated : Bool} {draft : Draft}
    (h : r.phase = .inClass negated draft .item) : r.Viable p := by
  have hclose : Move p r ']' _ := .closeClass h
  exact (viable_of_factor rfl).before hclose

theorem viable_of_inClass {negated : Bool} {draft : Draft} {place : Place}
    (h : r.phase = .inClass negated draft place) : r.Viable p := by
  cases place with
  | bracket | negation =>
      have hmember : Move p r 'a' _ := .member h (by simp) (by decide)
      exact (viable_of_member rfl).before hmember
  | member first => exact viable_of_member h
  | hyphen first =>
      have hrange : Move p r 'a' _ := .range h (by decide)
      exact (viable_of_item rfl).before hrange
  | item => exact viable_of_item h

theorem viable (p : Parser Shared Draft Symbol) (r : Reader Shared Draft Symbol) : r.Viable p := by
  cases h : r.phase with
  | base => exact viable_of_base h
  | factor t starred => exact viable_of_factor h
  | inClass negated draft place => exact viable_of_inClass h

end Pattern.Reader

namespace Parser

open Pattern

variable {p : Parser Shared Draft Symbol} {shared : Shared} {cs : List Char} {c : Char} {e : ParseError}

theorem exists_completion {u : List Char} {r : Reader Shared Draft Symbol}
    (h : p.run shared u = .ok r) : ∃ v t, (p.read shared (u ++ v)).1 = .ok t := by
  obtain ⟨v, s, a, hrun, hfinish⟩ := r.viable p
  have hall : p.alternatives shared (u ++ v) = .ok a := by
    rw [alternatives_append_of_run h, hrun]
    exact hfinish
  exact ⟨v, read_eq_ok hall⟩

theorem exists_refusal (h : (p.read shared cs).1 = .error e) :
    (∃ u c v r halt, cs = u ++ c :: v ∧ p.run shared u = .ok r ∧ e.position = u.length + 1 ∧
        p.run shared (u ++ [c]) = .error halt ∧ halt.error = e) ∨
      ∃ r, p.run shared cs = .ok r ∧ e.position = cs.length + 1 := by
  obtain ⟨halt, hhalt, rfl⟩ := read_eq_error_iff.mp h
  rcases alternatives_eq_error hhalt with ⟨u, c, v, r, rfl, hrun, hstep⟩ | ⟨r, hrun, hfinish⟩
  · refine .inl ⟨u, c, v, r, halt, rfl, hrun, ?_, run_refused hrun hstep [], rfl⟩
    rw [(Reader.refusal_of_step hstep).position, position_of_run hrun]
  · refine .inr ⟨r, hrun, ?_⟩
    rw [Reader.position_of_finish hfinish, position_of_run hrun]

theorem take_append_cons {u v : List Char} {k : Nat} (h : u.length < k) :
    (u ++ c :: v).take k = u ++ [c] ++ v.take (k - (u.length + 1)) := by
  have hlength : (u ++ [c]).length = u.length + 1 := by simp
  rw [List.append_cons, List.take_append, List.take_of_length_le (by omega), hlength]

theorem read_error_earliest (h : (p.read shared cs).1 = .error e) :
    (0 < e.position ∧ e.position ≤ cs.length + 1) ∧
      (∃ s t, (p.read shared (cs.take (e.position - 1) ++ s)).1 = .ok t) ∧
      (e.position ≤ cs.length →
        ∀ s, (p.read shared (cs.take e.position ++ s)).1 = .error e) ∧
      ∀ k s t, k ≤ cs.length → (p.read shared (cs.take k ++ s)).1 = .ok t → k < e.position := by
  rcases exists_refusal h with ⟨u, c, v, r, halt, rfl, hrun, hposition, hhalt, rfl⟩ |
    ⟨r, hrun, hposition⟩
  · have hread : (u ++ c :: v).take (u.length + 1) = u ++ [c] := by
      simp [take_append_cons (Nat.lt_succ_self u.length)]
    have hfinal (s : List Char) : (p.read shared (u ++ [c] ++ s)).1 = .error halt.error :=
      read_eq_error_of_run hhalt s
    rw [hposition, hread]
    refine ⟨by simp, ?_, fun _ => hfinal, ?_⟩
    · simpa using exists_completion hrun
    · intro k s t hk ht
      refine Nat.lt_of_not_le fun hlater => ?_
      rw [take_append_cons hlater, List.append_assoc, hfinal] at ht
      contradiction
  · rw [hposition]
    refine ⟨by omega, ?_, fun hwithin => by omega, fun k _ _ hk _ => by omega⟩
    simpa using exists_completion hrun

theorem read_error_earliest_of_open_range :
    ((transcribing (some 1)).read () "a(b|[c-])*".toList).1 = .error (.openRange 8) ∧
      (∃ s t, ((transcribing (some 1)).read () ("a(b|[c-".toList ++ s)).1 = .ok t) ∧
      ∀ s, ((transcribing (some 1)).read () ("a(b|[c-]".toList ++ s)).1 = .error (.openRange 8) := by
  have h : ((transcribing (some 1)).read () "a(b|[c-])*".toList).1 = .error (.openRange 8) := by
    decide
  obtain ⟨-, hcompleted, hfinal, -⟩ := read_error_earliest h
  exact ⟨h, hcompleted, hfinal (by decide)⟩

end Parser

end RegexTree
