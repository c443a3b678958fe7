import RegexTree.Proofs.Reader.Depth
import RegexTree.Proofs.Reader.Likeness
import RegexTree.Proofs.Symbol.Making

namespace RegexTree

variable {Shared Draft Symbol α β : Type}

namespace Parser

open Pattern

/-- What a pattern is read to, where a lone sign of the empty word or of the empty set is taken for
the literal it is beside other text. -/
inductive Yields (p : Parser Shared Draft Symbol) (s : Shared) :
    List Char → Regex Symbol → Shared → Prop
  | tree {cs t s'} : cs ≠ ['ε'] → cs ≠ ['∅'] → p.read s cs = (.ok t, s') → Yields p s cs t s'
  | sign {c} : c ∈ ['ε', '∅'] →
      Yields p s [c] (.literal (p.maker.make [.including [.single c]] s).1)
        (p.maker.make [.including [.single c]] s).2

variable {p : Parser Shared Draft Symbol} {s s' : Shared} {cs : List Char}

theorem yields_of_alternatives {as : List (List (Regex Symbol))}
    (h : p.alternatives s cs = .ok (as, s')) : p.Yields s cs (.ofAlternatives as) s' := by
  by_cases hword : cs = ['ε']
  · subst hword
    cases h
    exact .sign (by simp)
  · by_cases hset : cs = ['∅']
    · subst hset
      cases h
      exact .sign (by simp)
    · refine .tree hword hset ?_
      rw [read, if_neg hword, if_neg hset, h]

def raised (p : Parser Shared Draft Symbol) : Parser Shared Draft Symbol :=
  p.withLimit (p.limit.map (· + 1))

end Parser

namespace Pattern

def Halt.shift (k : Nat) (halt : Halt Shared) : Halt Shared :=
  { halt with error := halt.error.shift k }

def later (k : Nat) (x : Except (Halt Shared) α) : Except (Halt Shared) α :=
  x.mapError (Halt.shift k)

def Balanced : Except (Halt Shared) α → Prop
  | .ok _ => True
  | .error halt => ∀ q, halt.error ≠ .unexpected ')' q

namespace Reader

variable {p : Parser Shared Draft Symbol} {r s : Reader Shared Draft Symbol} {c : Char}
  {e : Expression Symbol}

def inside (e : Expression Symbol) (r : Reader Shared Draft Symbol) : Reader Shared Draft Symbol :=
  { r with position := r.position + 1, depth := r.depth + 1, outer := r.outer ++ [e] }

theorem phase_inside : (r.inside e).phase = r.phase := rfl

theorem mayOpen_inside : (r.inside e).mayOpen p.raised = r.mayOpen p := by
  obtain ⟨m, limit⟩ := p
  cases limit with
  | none => rfl
  | some n => simp [mayOpen, Parser.raised, Parser.withLimit, inside]

theorem readBase_inside (r : Reader Shared Draft Symbol) :
    (r.inside e).readBase p.raised c = later 1 ((r.readBase p c).map (inside e)) := by
  rw [readBase, readBase, mayOpen_inside]
  split
  · split <;> rfl
  · split
    · rfl
    · split <;> rfl

theorem closeGroup_inside {t : Regex Symbol} (hdepth : r.outer.length = r.depth)
    (houter : r.outer ≠ []) :
    (r.inside e).closeGroup t = later 1 ((r.closeGroup t).map (inside e)) := by
  obtain ⟨f, outer, hcons⟩ := List.exists_cons_of_ne_nil houter
  rw [hcons, List.length_cons] at hdepth
  simp only [closeGroup, inside, hcons, List.cons_append, ← hdepth]
  rfl

theorem readBehindFactor_inside {t : Regex Symbol} {starred : Bool}
    (hdepth : r.outer.length = r.depth) (hbalanced : Balanced (r.readBehindFactor p t starred c)) :
    (r.inside e).readBehindFactor p.raised t starred c =
      later 1 ((r.readBehindFactor p t starred c).map (inside e)) := by
  rw [readBehindFactor] at hbalanced
  rw [readBehindFactor, readBehindFactor]
  split
  · rfl
  · split
    · rfl
    · split
      · next hstar hbar hclose =>
          -- A parenthesis that closes no group of the pattern would close the one around it.
          refine closeGroup_inside hdepth fun houter => ?_
          rw [if_neg hstar, if_neg hbar, if_pos hclose, closeGroup, houter] at hbalanced
          exact hbalanced _ rfl
      · split
        · exact readBase_inside { r with inner := r.inner.push t }
        · rfl

theorem readMember_inside {negated : Bool} {draft : Draft} :
    (r.inside e).readMember negated draft c =
      later 1 ((r.readMember negated draft c).map (inside e)) := by
  rw [readMember, readMember]
  split <;> rfl

theorem readBehindItem_inside (r : Reader Shared Draft Symbol) {negated : Bool} {draft : Draft} :
    (r.inside e).readBehindItem p.raised negated draft c =
      later 1 ((r.readBehindItem p negated draft c).map (inside e)) := by
  rw [readBehindItem, readBehindItem]
  split
  · rfl
  · exact readMember_inside

theorem readInClass_inside {negated : Bool} {draft : Draft} {place : Place} :
    (r.inside e).readInClass p.raised negated draft place c =
      later 1 ((r.readInClass p negated draft place c).map (inside e)) := by
  cases place with
  | bracket =>
      simp only [readInClass]
      split
      · rfl
      · exact readMember_inside
  | negation => exact readMember_inside
  | member first =>
      simp only [readInClass]
      split
      · rfl
      · exact readBehindItem_inside { r with
          shared := (addItem p negated draft (.single first) r.shared).2 }
  | hyphen first =>
      simp only [readInClass]
      split <;> rfl
  | item => exact readBehindItem_inside r

theorem step_inside (hdepth : r.outer.length = r.depth) (hbalanced : Balanced (r.step p c)) :
    (r.inside e).step p.raised c = later 1 ((r.step p c).map (inside e)) := by
  rw [step] at hbalanced
  rw [step, step, phase_inside]
  cases hphase : r.phase with
  | base => exact readBase_inside r
  | factor t starred =>
      rw [hphase] at hbalanced
      exact readBehindFactor_inside hdepth hbalanced
  | inClass negated draft place => exact readInClass_inside

theorem advance_inside (hdepth : r.outer.length = r.depth) (hbalanced : Balanced (r.advance p c)) :
    (r.inside e).advance p.raised c = later 1 ((r.advance p c).map (inside e)) := by
  have hstep : Balanced (r.step p c) := by
    rw [advance] at hbalanced
    cases h : r.step p c <;> rw [h] at hbalanced <;> exact hbalanced
  rw [advance, advance, step_inside hdepth hstep]
  cases r.step p c <;> rfl

theorem readAll_inside {n : Nesting} {cs : List Char} (htracks : r.Tracks n)
    (hbalanced : Balanced (r.readAll p cs)) :
    (r.inside e).readAll p.raised cs = later 1 ((r.readAll p cs).map (inside e)) := by
  induction cs generalizing r n with
  | nil => rfl
  | cons c cs ih =>
      rw [readAll_cons] at hbalanced ⊢
      rw [readAll_cons]
      cases hadvance : r.advance p c with
      | error halt =>
          rw [hadvance] at hbalanced
          have hfirst : Balanced (r.advance p c) := by rw [hadvance]; exact hbalanced
          rw [advance_inside htracks.outer hfirst, hadvance]
          rfl
      | ok s =>
          rw [hadvance] at hbalanced
          have hfirst : Balanced (r.advance p c) := by rw [hadvance]; trivial
          obtain ⟨t, hmove, rfl⟩ := advance_eq_ok_iff.mp hadvance
          rw [advance_inside htracks.outer hfirst, hadvance]
          exact ih (htracks.move hmove) hbalanced

theorem finish_inside_of_error {halt : Halt Shared} (h : r.finish p = .error halt) :
    (r.inside e).finish p.raised = .error (halt.shift 1) := by
  rw [finish] at h
  rw [finish, phase_inside]
  cases hphase : r.phase with
  | base =>
      rw [hphase] at h
      cases h
      rfl
  | factor t starred =>
      simp only [hphase] at h
      split at h
      · contradiction
      · cases h
        simp [inside, halt, Halt.shift, ParseError.shift]
  | inClass negated draft place =>
      rw [hphase] at h
      cases h
      cases place <;> rfl

theorem finish_inside_of_ok {a : List (List (Regex Symbol)) × Shared} (h : r.finish p = .ok a) :
    (r.inside e).finish p.raised = .error ⟨.unclosed ')' (r.position + 1), r.shared⟩ := by
  obtain ⟨t, starred, hphase, -, -⟩ := of_finish_eq_ok h
  rw [finish, phase_inside, hphase]
  simp [inside, halt]

end Reader

end Pattern

namespace Parser

open Pattern

variable {p : Parser Shared Draft Symbol} {s : Shared} {u : List Char}

theorem run_raised_open (p : Parser Shared Draft Symbol) (s : Shared) (u : List Char) :
    p.raised.run s ('(' :: u) =
      (Reader.inside {} ({ shared := s } : Reader Shared Draft Symbol)).readAll p.raised u := by
  have hroom : ({ shared := s } : Reader Shared Draft Symbol).mayOpen p.raised := by
    obtain ⟨m, limit⟩ := p
    cases limit with
    | none => rfl
    | some n => simp [Reader.mayOpen, raised, withLimit]
  have hmove : Reader.Move p.raised { shared := s } '(' _ := .openGroup (.base rfl) hroom
  exact Reader.readAll_cons_of_move hmove u

theorem run_open_of_balanced (h : Balanced (p.run s u)) :
    p.raised.run s ('(' :: u) = later 1 ((p.run s u).map (Reader.inside {})) := by
  rw [run_raised_open]
  exact Reader.readAll_inside (n := {}) ⟨rfl, rfl, rfl⟩ h

theorem run_group {as : List (List (Regex Symbol))} {s' : Shared}
    (h : p.alternatives s u = .ok (as, s')) :
    ∃ r : Reader Shared Draft Symbol,
      p.raised.run s ('(' :: u ++ [')']) = .ok r ∧ r.shared = s' ∧ r.outer = [] ∧ r.inner = {} ∧
        r.phase = .factor (.ofAlternatives as) false := by
  obtain ⟨r, t, starred, hrun, hphase, houter, ha⟩ := alternatives_eq_ok h
  cases ha
  have hopen := run_open_of_balanced (p := p) (s := s) (u := u) (by rw [hrun]; trivial)
  rw [hrun] at hopen
  have hframe : (r.inside {}).outer = [{}] := by rw [Reader.inside, houter]; rfl
  have hclose : Reader.Move p.raised (r.inside {}) ')' _ := .closeGroup hphase hframe
  exact ⟨_, run_concat hopen hclose, rfl, rfl, rfl, rfl⟩

theorem read_of_finish {r : Reader Shared Draft Symbol} {cs : List Char} {t : Regex Symbol}
    {starred : Bool} (hword : cs ≠ ['ε']) (hset : cs ≠ ['∅']) (hrun : p.run s cs = .ok r)
    (hphase : r.phase = .factor t starred) (houter : r.outer = []) :
    p.read s cs = (.ok (r.inner.push t).tree, r.shared) := by
  have hfinish : r.finish p = .ok ((r.inner.push t).toAlternatives, r.shared) := by
    simp [Reader.finish, hphase, houter]
  rw [read, if_neg hword, if_neg hset, alternatives_eq_bind, hrun]
  simp [Except.bind, hfinish, Expression.tree]

theorem read_closed_group {as : List (List (Regex Symbol))} {s' : Shared}
    (h : p.alternatives s u = .ok (as, s')) :
    p.raised.read s ('(' :: u ++ [')']) = (.ok (.ofAlternatives as), s') ∧
      p.raised.read s ('(' :: u ++ [')', '*']) = (.ok (.star (.ofAlternatives as)), s') := by
  obtain ⟨r, hrun, rfl, houter, hinner, hphase⟩ := run_group h
  constructor
  · rw [read_of_finish (by simp) (by simp) hrun hphase houter, hinner]
    rfl
  · have hstar : Reader.Move p.raised r '*' _ := .star hphase
    have hread := read_of_finish (by simp) (by simp) (run_concat hrun hstar) rfl houter
    rw [List.append_assoc] at hread
    refine hread.trans ?_
    simp only [Reader.onward, hinner]
    rfl

theorem read_open_group {a : List (List (Regex Symbol)) × Shared}
    (h : p.alternatives s u = .ok a) :
    (p.raised.read s ('(' :: u)).1 = .error (.unclosed ')' (u.length + 2)) := by
  rw [alternatives_eq_bind] at h
  cases hrun : p.run s u with
  | error halt =>
      rw [hrun] at h
      contradiction
  | ok r =>
      rw [hrun] at h
      have hopen := run_open_of_balanced (p := p) (s := s) (u := u) (by rw [hrun]; trivial)
      refine read_eq_error_iff.mpr ⟨⟨.unclosed ')' (r.position + 1), r.shared⟩, ?_, ?_⟩
      · rw [alternatives_eq_bind, hopen, hrun]
        exact Reader.finish_inside_of_ok h
      · rw [position_of_run hrun]

theorem read_open_of_error {e : ParseError} (h : (p.read s u).1 = .error e)
    (hbalanced : ∀ q, e ≠ .unexpected ')' q) :
    (p.raised.read s ('(' :: u)).1 = .error (e.shift 1) := by
  obtain ⟨halt, hhalt, rfl⟩ := read_eq_error_iff.mp h
  refine read_eq_error_iff.mpr ⟨halt.shift 1, ?_, rfl⟩
  rw [alternatives_eq_bind] at hhalt ⊢
  cases hrun : p.run s u with
  | error halt' =>
      rw [hrun] at hhalt
      cases hhalt
      rw [run_open_of_balanced (by rw [hrun]; exact hbalanced), hrun]
      rfl
  | ok r =>
      rw [hrun] at hhalt
      rw [run_open_of_balanced (by rw [hrun]; trivial), hrun]
      exact Reader.finish_inside_of_error hhalt

theorem read_group (p : Parser Shared Draft Symbol) (s : Shared) (u : List Char) :
    (∀ t, (p.read s u).1 = .ok t → ∃ t' s', p.Yields s u t' s' ∧
        p.raised.read s ('(' :: u ++ [')']) = (.ok t', s') ∧
        p.raised.read s ('(' :: u ++ [')', '*']) = (.ok (.star t'), s') ∧
        (p.raised.read s ('(' :: u)).1 = .error (.unclosed ')' (u.length + 2))) ∧
      ∀ e, (p.read s u).1 = .error e → (∀ q, e ≠ .unexpected ')' q) →
        (p.raised.read s ('(' :: u)).1 = .error (e.shift 1) := by
  refine ⟨fun t h => ?_, fun e => read_open_of_error⟩
  obtain ⟨⟨as, s'⟩, ha⟩ := alternatives_of_read h
  obtain ⟨hgroup, hstar⟩ := read_closed_group ha
  exact ⟨_, _, yields_of_alternatives ha, hgroup, hstar, read_open_group ha⟩

theorem read_group_of_lone_sign :
    (∃ t s', (transcribing (some 0)).Yields () ['∅'] t s' ∧
      (transcribing (some 1)).read () "(∅)*".toList = (.ok (.star t), s')) ∧
      ((transcribing (some 1)).read () "(a(".toList).1 = .error (.tooDeep 3) ∧
      ((transcribing (some 2)).read () "((a(".toList).1 = .error (.tooDeep 4) := by
  obtain ⟨t, s', hyields, -, hstar, -⟩ := (read_group (transcribing (some 0)) () ['∅']).1 .emptySet rfl
  have hdeep : ((transcribing (some 1)).read () "(a(".toList).1 = .error (.tooDeep 3) := by decide
  exact ⟨⟨t, s', hyields, hstar⟩, hdeep,
    (read_group (transcribing (some 1)) () "(a(".toList).2 (.tooDeep 3) hdeep nofun⟩

end Parser

end RegexTree
