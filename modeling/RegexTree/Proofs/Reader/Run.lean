import RegexTree.Pattern.Parser
import RegexTree.Proofs.Reader.Move

namespace RegexTree

variable {Shared Draft Symbol : Type}

def Parser.run (p : Parser Shared Draft Symbol) (shared : Shared) (cs : List Char) :
    Except (Pattern.Halt Shared) (Pattern.Reader Shared Draft Symbol) :=
  ({ shared } : Pattern.Reader Shared Draft Symbol).readAll p cs

def Parser.withLimit (p : Parser Shared Draft Symbol) (limit : Option Nat) :
    Parser Shared Draft Symbol :=
  { p with limit }

def Parser.transcribing (limit : Option Nat) : Parser Unit (List Edit) (List Edit) where
  maker := .transcript
  limit

namespace Pattern.Reader

variable {p : Parser Shared Draft Symbol} {r r' : Reader Shared Draft Symbol} {c : Char}
  {halt : Halt Shared}

def onward (r : Reader Shared Draft Symbol) : Reader Shared Draft Symbol :=
  { r with position := r.position + 1 }

theorem advance_eq_ok_iff : r.advance p c = .ok r' ↔ ∃ s, Move p r c s ∧ r' = s.onward := by
  rw [advance]
  cases hstep : r.step p c with
  | ok s =>
      have hmove : ∀ t, Move p r c t ↔ t = s := by
        intro t
        rw [← step_eq_ok_iff, hstep, Except.ok.injEq, eq_comm]
      simp [Except.map, hmove, onward, eq_comm]
  | error halt =>
      have hmove : ∀ t, ¬ Move p r c t := by
        intro t ht
        rw [ht.step_eq] at hstep
        contradiction
      simp [Except.map, hmove]

theorem advance_eq_error_iff : r.advance p c = .error halt ↔ r.step p c = .error halt := by
  rw [advance]
  cases r.step p c <;> simp [Except.map]

theorem readAll_cons_of_move {s : Reader Shared Draft Symbol} (h : Move p r c s) (cs : List Char) :
    r.readAll p (c :: cs) = s.onward.readAll p cs := by
  rw [readAll_cons, advance_eq_ok_iff.mpr ⟨s, h, rfl⟩]
  rfl

theorem readAll_append_of_ok {u : List Char} (h : r.readAll p u = .ok r') (v : List Char) :
    r.readAll p (u ++ v) = r'.readAll p v := by
  rw [readAll_append, h]
  rfl

theorem readAll_append_of_error {u : List Char} (h : r.readAll p u = .error halt) (v : List Char) :
    r.readAll p (u ++ v) = .error halt := by
  rw [readAll_append, h]
  rfl

theorem readAll_invariant {P : Reader Shared Draft Symbol → List Char → Prop}
    (hmove : ∀ r w c s, P r w → Move p r c s → P s.onward (w ++ [c]))
    {u w : List Char} (h : P r w) (hrun : r.readAll p u = .ok r') : P r' (w ++ u) := by
  induction u generalizing r w with
  | nil =>
      rw [readAll_nil] at hrun
      cases hrun
      simpa using h
  | cons c u ih =>
      rw [readAll_cons] at hrun
      cases hadvance : r.advance p c with
      | error halt =>
          rw [hadvance] at hrun
          contradiction
      | ok s =>
          rw [hadvance] at hrun
          obtain ⟨t, ht, rfl⟩ := advance_eq_ok_iff.mp hadvance
          simpa using ih (hmove r w c t h ht) hrun

theorem readAll_eq_error {cs : List Char} (h : r.readAll p cs = .error halt) :
    ∃ u c v s, cs = u ++ c :: v ∧ r.readAll p u = .ok s ∧ s.step p c = .error halt := by
  induction cs generalizing r with
  | nil => contradiction
  | cons c cs ih =>
      rw [readAll_cons] at h
      cases hadvance : r.advance p c with
      | error halt' =>
          rw [hadvance] at h
          cases h
          exact ⟨[], c, cs, r, rfl, rfl, advance_eq_error_iff.mp hadvance⟩
      | ok s =>
          rw [hadvance] at h
          obtain ⟨u, d, v, t, rfl, hu, ht⟩ := ih h
          refine ⟨c :: u, d, v, t, rfl, ?_, ht⟩
          rw [readAll_cons, hadvance]
          exact hu

theorem Ready.position {b : Reader Shared Draft Symbol} (h : r.Ready b) :
    b.position = r.position := by
  cases h <;> rfl

theorem Move.position (h : Move p r c r') : r'.position = r.position := by
  cases h with
  | openGroup h | openClass h | literal h => exact h.position
  | _ => rfl

theorem position_of_readAll {u : List Char} (h : r.readAll p u = .ok r') :
    r'.position = r.position + u.length := by
  have hrun := readAll_invariant (P := fun s w => s.position = r.position + w.length) (w := [])
    ?_ rfl h
  · simpa using hrun
  · intro s w d t hs ht
    rw [onward, ht.position, hs, List.length_append]
    rfl

theorem of_finish_eq_ok {a : List (List (Regex Symbol)) × Shared} (h : r.finish p = .ok a) :
    ∃ t starred, r.phase = .factor t starred ∧ r.outer = [] ∧
      a = ((r.inner.push t).toAlternatives, r.shared) := by
  rw [finish] at h
  split at h
  · contradiction
  · next t starred hphase =>
      split at h
      · next houter =>
          cases h
          exact ⟨t, starred, hphase, List.isEmpty_iff.mp houter, rfl⟩
      · contradiction
  · contradiction

theorem position_of_finish (h : r.finish p = .error halt) : halt.error.position = r.position := by
  rw [finish] at h
  split at h
  · cases h
    rfl
  · split at h
    · contradiction
    · cases h
      rfl
  · next negated draft place _ =>
      cases h
      cases place <;> rfl

end Pattern.Reader

namespace Parser

open Pattern

variable {p : Parser Shared Draft Symbol} {shared : Shared} {cs : List Char}

theorem alternatives_eq_bind :
    p.alternatives shared cs = (p.run shared cs).bind (Reader.finish p) := rfl

theorem run_eq_error {halt : Halt Shared} (h : p.run shared cs = .error halt) :
    ∃ u c v r, cs = u ++ c :: v ∧ p.run shared u = .ok r ∧ r.step p c = .error halt :=
  Reader.readAll_eq_error h

theorem run_refused {halt : Halt Shared} {u : List Char} {c : Char}
    {r : Reader Shared Draft Symbol} (hrun : p.run shared u = .ok r)
    (hstep : r.step p c = .error halt) (v : List Char) :
    p.run shared (u ++ c :: v) = .error halt := by
  rw [run, Reader.readAll_append_of_ok hrun, Reader.readAll_cons,
    Reader.advance_eq_error_iff.mpr hstep]
  rfl

theorem run_concat {c : Char} {r r' : Reader Shared Draft Symbol} (hrun : p.run shared cs = .ok r)
    (hmove : Reader.Move p r c r') : p.run shared (cs ++ [c]) = .ok r'.onward := by
  rw [run, Reader.readAll_append_of_ok hrun, Reader.readAll_cons_of_move hmove]
  rfl

theorem alternatives_eq_error {halt : Halt Shared} (h : p.alternatives shared cs = .error halt) :
    (∃ u c v r, cs = u ++ c :: v ∧ p.run shared u = .ok r ∧ r.step p c = .error halt) ∨
      ∃ r, p.run shared cs = .ok r ∧ r.finish p = .error halt := by
  rw [alternatives_eq_bind] at h
  cases hrun : p.run shared cs with
  | ok r =>
      rw [hrun] at h
      exact .inr ⟨r, rfl, h⟩
  | error halt' =>
      rw [hrun] at h
      cases h
      exact .inl (run_eq_error hrun)

theorem alternatives_eq_ok {a : List (List (Regex Symbol)) × Shared}
    (h : p.alternatives shared cs = .ok a) :
    ∃ r t starred, p.run shared cs = .ok r ∧ r.phase = .factor t starred ∧ r.outer = [] ∧
      a = ((r.inner.push t).toAlternatives, r.shared) := by
  rw [alternatives_eq_bind] at h
  cases hrun : p.run shared cs with
  | ok r =>
      rw [hrun] at h
      obtain ⟨t, starred, hr⟩ := Reader.of_finish_eq_ok h
      exact ⟨r, t, starred, rfl, hr⟩
  | error halt =>
      rw [hrun] at h
      contradiction

theorem position_of_run {r : Reader Shared Draft Symbol} (h : p.run shared cs = .ok r) :
    r.position = cs.length + 1 := by
  rw [Reader.position_of_readAll h, Nat.add_comm]

theorem position_le_of_run {halt : Halt Shared} (h : p.run shared cs = .error halt) :
    halt.error.position ≤ cs.length := by
  obtain ⟨u, c, v, r, rfl, hrun, hstep⟩ := run_eq_error h
  rw [(Reader.refusal_of_step hstep).position, position_of_run hrun, List.length_append,
    List.length_cons]
  omega

theorem alternatives_append_of_run {u : List Char} {r : Reader Shared Draft Symbol}
    (h : p.run shared u = .ok r) (v : List Char) :
    p.alternatives shared (u ++ v) = (r.readAll p v).bind (Reader.finish p) := by
  rw [alternatives_eq_bind, run, Reader.readAll_append_of_ok h]

theorem alternatives_eq_of_run {halt : Halt Shared} {u : List Char}
    (h : p.run shared u = .error halt) (v : List Char) :
    p.alternatives shared (u ++ v) = .error halt := by
  rw [alternatives_eq_bind, run, Reader.readAll_append_of_error h]
  rfl

theorem alternatives_literal (p : Parser Shared Draft Symbol) (shared : Shared) {c : Char}
    (h : isLiteral c) : ∃ a, p.alternatives shared [c] = .ok a := by
  have hmove : Reader.Move p { shared } c _ := .literal (.base rfl) h
  rw [alternatives, Reader.readAll_cons_of_move hmove]
  exact ⟨_, rfl⟩

theorem read_eq_ok {a : List (List (Regex Symbol)) × Shared} (h : p.alternatives shared cs = .ok a) :
    ∃ t, (p.read shared cs).1 = .ok t := by
  rw [read]
  split
  · exact ⟨_, rfl⟩
  · split
    · exact ⟨_, rfl⟩
    · rw [h]
      exact ⟨_, rfl⟩

theorem read_eq_of_error {halt : Halt Shared} (h : p.alternatives shared cs = .error halt) :
    p.read shared cs = (.error halt.error, halt.shared) := by
  have hplain : ∀ c, isLiteral c → cs ≠ [c] := by
    rintro c hc rfl
    obtain ⟨a, ha⟩ := alternatives_literal p shared hc
    rw [ha] at h
    contradiction
  have hword : cs ≠ ['ε'] := hplain 'ε' (by decide)
  have hset : cs ≠ ['∅'] := hplain '∅' (by decide)
  rw [read, if_neg hword, if_neg hset, h]

theorem alternatives_of_read {t : Regex Symbol} (h : (p.read shared cs).1 = .ok t) :
    ∃ a, p.alternatives shared cs = .ok a := by
  cases ha : p.alternatives shared cs with
  | ok a => exact ⟨a, rfl⟩
  | error halt =>
      rw [read_eq_of_error ha] at h
      contradiction

theorem read_eq_error_iff {e : ParseError} :
    (p.read shared cs).1 = .error e ↔ ∃ halt, p.alternatives shared cs = .error halt ∧ halt.error = e := by
  cases h : p.alternatives shared cs with
  | ok a =>
      obtain ⟨t, ht⟩ := read_eq_ok h
      simp [ht]
  | error halt => simp [read_eq_of_error h]

theorem read_eq_error_of_run {u : List Char} {halt : Halt Shared}
    (h : p.run shared u = .error halt) (v : List Char) :
    (p.read shared (u ++ v)).1 = .error halt.error :=
  read_eq_error_iff.mpr ⟨halt, alternatives_eq_of_run h v, rfl⟩

theorem read_congr {p' : Parser Shared Draft Symbol}
    (h : p.alternatives shared cs = p'.alternatives shared cs) :
    p.read shared cs = p'.read shared cs := by
  rw [read, read, h]

end Parser

end RegexTree
