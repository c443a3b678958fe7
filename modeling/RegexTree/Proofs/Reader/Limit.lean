import Mathlib.Data.Nat.Find
import RegexTree.Proofs.Reader.Depth

namespace RegexTree

namespace Pattern.Nesting

variable {limit : Nat} {cs : List Char} {q : Nat}

def Overrun (limit : Nat) (cs : List Char) (q : Nat) : Prop :=
  ∃ u v, cs = u ++ '(' :: v ∧ OpensAt limit u ∧ q = u.length + 1

def FirstOverrun (limit : Nat) (cs : List Char) (q : Nat) : Prop :=
  Overrun limit cs q ∧ ∀ q', Overrun limit cs q' → q ≤ q'

theorem Overrun.exists_first (h : Overrun limit cs q) : ∃ q, FirstOverrun limit cs q := by
  classical
  have hsome : ∃ q, Overrun limit cs q := ⟨q, h⟩
  exact ⟨Nat.find hsome, Nat.find_spec hsome, fun _ hq' => Nat.find_min' hsome hq'⟩

theorem FirstOverrun.before (h : FirstOverrun limit cs q) :
    ∃ u v, cs = u ++ '(' :: v ∧ OpensAt limit u ∧ q = u.length + 1 ∧ ∀ q', ¬ Overrun limit u q' := by
  obtain ⟨⟨u, v, rfl, hopens, rfl⟩, hfirst⟩ := h
  refine ⟨u, v, rfl, hopens, rfl, ?_⟩
  rintro q' ⟨w, x, rfl, hw, rfl⟩
  have hle := hfirst (w.length + 1) ⟨w, x ++ '(' :: v, by simp, hw, rfl⟩
  simp only [List.length_append, List.length_cons] at hle
  omega

end Pattern.Nesting

variable {Shared Draft Symbol : Type} {p : Parser Shared Draft Symbol} {n : Nat} {shared : Shared}
  {cs : List Char}

namespace Pattern.Reader

variable {r s : Reader Shared Draft Symbol} {c : Char} {limit : Option Nat}

theorem readBase_limited : r.readBase (p.withLimit (some n)) c =
    if c = '(' ∧ n ≤ r.depth then r.halt (.tooDeep r.position)
    else r.readBase (p.withLimit none) c := by
  by_cases hc : c = '('
  · by_cases hdepth : n ≤ r.depth
    · simp [readBase, mayOpen, Parser.withLimit, hc, hdepth, Nat.not_lt_of_le hdepth]
    · simp [readBase, mayOpen, Parser.withLimit, hc, hdepth, Nat.lt_of_not_le hdepth]
  · simp only [readBase, hc, false_and, if_false]
    rfl

theorem step_limited : r.step (p.withLimit (some n)) c =
    if c = '(' ∧ r.phase.isInClass = false ∧ n ≤ r.depth then r.halt (.tooDeep r.position)
    else r.step (p.withLimit none) c := by
  cases hphase : r.phase with
  | base => simp [step, hphase, readBase_limited, Phase.isInClass]
  | factor t starred =>
      simp only [step, hphase, Phase.isInClass, true_and]
      by_cases hc : c = '('
      · subst hc
        simp [readBehindFactor, readBase_limited, halt, show startsFactor '(' from by decide]
      · simp only [hc, false_and, if_false, readBehindFactor, readBase_limited]
  | inClass negated draft place =>
      simp only [step, hphase, Phase.isInClass, Bool.true_eq_false, false_and, and_false, if_false]
      rfl

theorem step_raised {raised : Option Nat} (hraised : ∀ m ∈ raised, n ≤ m) :
    r.step (p.withLimit (some n)) c = r.step (p.withLimit raised) c ∨
      r.step (p.withLimit (some n)) c = r.halt (.tooDeep r.position) := by
  rw [step_limited]
  split
  · exact .inr rfl
  · next hwithin =>
      cases raised with
      | none => exact .inl rfl
      | some m =>
          have hm : n ≤ m := hraised m rfl
          rw [step_limited, if_neg]
          · exact .inl rfl
          · rintro ⟨hc, houtside, hdepth⟩
            exact hwithin ⟨hc, houtside, Nat.le_trans hm hdepth⟩

theorem readAll_raised {raised : Option Nat} (hraised : ∀ m ∈ raised, n ≤ m) :
    r.readAll (p.withLimit (some n)) cs = r.readAll (p.withLimit raised) cs ∨
      ∃ q shared, r.readAll (p.withLimit (some n)) cs = .error ⟨.tooDeep q, shared⟩ := by
  induction cs generalizing r with
  | nil => exact .inl rfl
  | cons c cs ih =>
      simp only [readAll_cons, advance]
      rcases step_raised hraised with hstep | hstep
      · rw [hstep]
        cases r.step (p.withLimit raised) c with
        | ok s => exact ih
        | error halt => exact .inl rfl
      · rw [hstep]
        exact .inr ⟨_, _, rfl⟩

theorem Move.depth_le (h : Move (p.withLimit (some n)) r c s) (hdepth : r.depth ≤ n) :
    s.depth ≤ n := by
  cases h with
  | openGroup hready hopen =>
      have hroom : _ < n := of_decide_eq_true hopen
      exact hroom
  | openClass hready | literal hready => exact Nat.le_trans (Nat.le_of_eq hready.depth) hdepth
  | closeGroup => exact Nat.le_trans (Nat.sub_le _ _) hdepth
  | _ => exact hdepth

end Pattern.Reader

namespace Parser

open Pattern

theorem depth_le_of_run {r : Reader Shared Draft Symbol}
    (h : (p.withLimit (some n)).run shared cs = .ok r) : r.depth ≤ n := by
  refine Reader.readAll_invariant (P := fun r _ => r.depth ≤ n) (w := []) ?_ (Nat.zero_le n) h
  intro r w c s hdepth hmove
  exact hmove.depth_le hdepth

theorem run_raised (raised : Option Nat) (hraised : ∀ m ∈ raised, n ≤ m) :
    (p.withLimit (some n)).run shared cs = (p.withLimit raised).run shared cs ∨
      ∃ q shared', (p.withLimit (some n)).run shared cs = .error ⟨.tooDeep q, shared'⟩ :=
  Reader.readAll_raised hraised

theorem run_limited (h : ∀ q, ¬ Nesting.Overrun n cs q) :
    (p.withLimit (some n)).run shared cs = (p.withLimit none).run shared cs := by
  rcases run_raised none nofun with heq | ⟨q, shared', hdeep⟩
  · exact heq
  · obtain ⟨u, c, v, r, rfl, hrun, hstep⟩ := run_eq_error hdeep
    have hsame : (p.withLimit none).run shared u = .ok r := by
      rcases run_raised none nofun with heq | ⟨q', shared'', hdeep'⟩
      · rw [← heq, hrun]
      · rw [hrun] at hdeep'
        contradiction
    rw [Reader.step_limited] at hstep
    split at hstep
    · next hover =>
        obtain ⟨rfl, houtside, hdepth⟩ := hover
        have htracks := tracks_of_run hrun
        have hfull : r.depth = n := Nat.le_antisymm (depth_le_of_run hrun) hdepth
        refine absurd ⟨u, v, rfl, ⟨?_, ?_⟩, rfl⟩ (h (u.length + 1))
        · rw [htracks.inClass, houtside]
        · rw [htracks.opened, hfull]
    · next hwithin =>
        rw [hdeep, run_refused hsame hstep]

theorem run_overrun {u : List Char} {r : Reader Shared Draft Symbol} {q : Nat}
    (hopens : Nesting.OpensAt n u) (hlimited : ∀ q', ¬ Nesting.Overrun n u q')
    (hrun : (p.withLimit none).run shared u = .ok r) (hq : q = u.length + 1) :
    (p.withLimit (some n)).run shared (u ++ ['(']) = .error ⟨.tooDeep q, r.shared⟩ := by
  have hsame : (p.withLimit (some n)).run shared u = .ok r := by rw [run_limited hlimited, hrun]
  have htracks := tracks_of_run hrun
  have houtside : r.phase.isInClass = false := by rw [← htracks.inClass, hopens.1]
  have hdepth : n = r.depth := by
    have hopened := htracks.opened
    have hlevel := hopens.2
    omega
  have hstep : r.step (p.withLimit (some n)) '(' = .error ⟨.tooDeep q, r.shared⟩ := by
    rw [Reader.step_limited, if_pos ⟨rfl, houtside, Nat.le_of_eq hdepth⟩, position_of_run hrun, hq]
    rfl
  exact run_refused hsame hstep []

theorem run_open {u : List Char} {r : Reader Shared Draft Symbol}
    (hopens : Nesting.OpensAt n u) (hrun : (p.withLimit none).run shared u = .ok r) :
    ∃ s, (p.withLimit none).run shared (u ++ ['(']) = .ok s := by
  have houtside : r.phase.isInClass = false := by rw [← (tracks_of_run hrun).inClass, hopens.1]
  have hready : ∃ b, r.Ready b := by
    cases hphase : r.phase with
    | base => exact ⟨_, .base hphase⟩
    | factor t starred => exact ⟨_, .factor hphase⟩
    | inClass negated draft place =>
        rw [hphase] at houtside
        contradiction
  obtain ⟨b, hready⟩ := hready
  have hmove : Reader.Move (p.withLimit none) r '(' _ := .openGroup hready rfl
  exact ⟨_, run_concat hrun hmove⟩

theorem lt_position_of_run {u v : List Char} {r : Reader Shared Draft Symbol} {e : ParseError}
    (hrun : p.run shared u = .ok r) (h : (p.read shared (u ++ v)).1 = .error e) :
    u.length < e.position := by
  obtain ⟨halt, hhalt, rfl⟩ := read_eq_error_iff.mp h
  rcases alternatives_eq_error hhalt with ⟨w, c, x, s, heq, hw, hstep⟩ | ⟨s, hs, hfinish⟩
  · rw [(Reader.refusal_of_step hstep).position, position_of_run hw, Nat.lt_succ_iff]
    refine Nat.le_of_not_lt fun hshort => ?_
    -- The refused character would be one of those that were read.
    have hall : w ++ [c] <+: u ++ v := ⟨x, by simp [heq]⟩
    have hlength : (w ++ [c]).length ≤ u.length := by simpa using Nat.succ_le_of_lt hshort
    obtain ⟨y, rfl⟩ := List.prefix_of_prefix_length_le hall (List.prefix_append u v) hlength
    rw [List.append_assoc, List.singleton_append, run_refused hw hstep] at hrun
    contradiction
  · rw [Reader.position_of_finish hfinish, position_of_run hs, List.length_append]
    omega

theorem read_too_deep {q : Nat} (hq : Nesting.FirstOverrun n cs q)
    (hlate : ∀ e, ((p.withLimit none).read shared cs).1 = .error e → q < e.position) :
    ((p.withLimit (some n)).read shared cs).1 = .error (.tooDeep q) := by
  obtain ⟨u, v, rfl, hopens, hposition, hbefore⟩ := hq.before
  cases hrun : (p.withLimit none).run shared u with
  | ok r =>
      have hdeep := run_overrun hopens hbefore hrun hposition
      simpa using read_eq_error_of_run hdeep v
  | error halt =>
      have hearly := position_le_of_run hrun
      have hafter := hlate _ (read_eq_error_of_run hrun ('(' :: v))
      omega

theorem read_within_limit
    (hearly : ∀ q, Nesting.FirstOverrun n cs q →
      ∃ e, ((p.withLimit none).read shared cs).1 = .error e ∧ e.position ≤ q) :
    (p.withLimit (some n)).read shared cs = (p.withLimit none).read shared cs := by
  refine read_congr ?_
  by_cases hover : ∃ q, Nesting.Overrun n cs q
  · obtain ⟨q, hq⟩ := hover
    obtain ⟨q, hq⟩ := hq.exists_first
    obtain ⟨e, he, hposition⟩ := hearly q hq
    obtain ⟨u, v, rfl, hopens, rfl, hbefore⟩ := hq.before
    cases hrun : (p.withLimit none).run shared u with
    | ok r =>
        obtain ⟨s, hs⟩ := run_open hopens hrun
        have hafter := lt_position_of_run (v := v) hs (by simpa using he)
        simp only [List.length_append, List.length_singleton] at hafter
        omega
    | error halt =>
        have hsame : (p.withLimit (some n)).run shared u = .error halt := by
          rw [run_limited hbefore, hrun]
        rw [alternatives_eq_of_run hrun, alternatives_eq_of_run hsame]
  · have hsame : (p.withLimit (some n)).run shared cs = (p.withLimit none).run shared cs :=
      run_limited fun q hq => hover ⟨q, hq⟩
    rw [alternatives_eq_bind, alternatives_eq_bind, hsame]
    rfl

theorem read_raised {raised : Option Nat} (hraised : ∀ m ∈ raised, n ≤ m)
    (hshallow : ∀ q, ((p.withLimit (some n)).read shared cs).1 ≠ .error (.tooDeep q)) :
    (p.withLimit raised).read shared cs = (p.withLimit (some n)).read shared cs := by
  refine read_congr ?_
  have hraise : (p.withLimit (some n)).run shared cs = (p.withLimit raised).run shared cs ∨
      ∃ q shared', (p.withLimit (some n)).run shared cs = .error ⟨.tooDeep q, shared'⟩ :=
    run_raised raised hraised
  rcases hraise with hsame | ⟨q, shared', hdeep⟩
  · rw [alternatives_eq_bind, alternatives_eq_bind, hsame]
    rfl
  · have herror := read_eq_error_of_run hdeep []
    rw [List.append_nil] at herror
    exact absurd herror (hshallow q)

theorem read_limited (p : Parser Shared Draft Symbol) (n : Nat) (shared : Shared) (cs : List Char) :
    (∀ q, Nesting.FirstOverrun n cs q →
        (∀ e, ((p.withLimit none).read shared cs).1 = .error e → q < e.position) →
        ((p.withLimit (some n)).read shared cs).1 = .error (.tooDeep q)) ∧
      ((∀ q, Nesting.FirstOverrun n cs q →
          ∃ e, ((p.withLimit none).read shared cs).1 = .error e ∧ e.position ≤ q) →
        (p.withLimit (some n)).read shared cs = (p.withLimit none).read shared cs) ∧
      ∀ raised : Option Nat, (∀ m ∈ raised, n ≤ m) →
        (∀ q, ((p.withLimit (some n)).read shared cs).1 ≠ .error (.tooDeep q)) →
        (p.withLimit raised).read shared cs = (p.withLimit (some n)).read shared cs :=
  ⟨fun _ => read_too_deep, read_within_limit, fun _ => read_raised⟩

theorem read_limited_of_nested :
    Nesting.FirstOverrun 1 "[(](a(b))".toList 6 ∧
      ((transcribing (some 1)).read () "[(](a(b))".toList).1 = .error (.tooDeep 6) := by
  have hfirst : Nesting.FirstOverrun 1 "[(](a(b))".toList 6 := by
    refine ⟨⟨"[(](a".toList, "b))".toList, by decide, ⟨by decide, by decide⟩, by decide⟩, ?_⟩
    rintro q ⟨u, v, heq, hopens, rfl⟩
    have hshallow : ∀ k < 5, "[(](a(b))".toList[k]? = some '(' →
        (Nesting.behind ("[(](a(b))".toList.take k)).opened ≠
          (Nesting.behind ("[(](a(b))".toList.take k)).closed + 1 := by decide
    have hnext : "[(](a(b))".toList[u.length]? = some '(' := by simp [heq]
    have htaken : "[(](a(b))".toList.take u.length = u := by rw [heq, List.take_left]
    have hlength : 5 ≤ u.length := by
      refine Nat.le_of_not_lt fun hshort => hshallow u.length hshort hnext ?_
      rw [htaken]
      exact hopens.2
    omega
  have hread : ∀ e, (((transcribing none).withLimit none).read () "[(](a(b))".toList).1 =
      .error e → 6 < e.position := by
    intro e he
    contradiction
  exact ⟨hfirst, (read_limited (transcribing none) 1 () _).1 6 hfirst hread⟩

end Parser

end RegexTree
