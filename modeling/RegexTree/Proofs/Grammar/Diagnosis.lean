import RegexTree.Proofs.Grammar.Spelling
import RegexTree.Proofs.Reader.Limit
import RegexTree.Proofs.Reader.Viability

namespace RegexTree

variable {Shared Draft Symbol : Type} {p : Parser Shared Draft Symbol} {s : Shared}
  {u v cs : List Char} {c : Char} {e : ParseError}

namespace Pattern

/-- The text ends inside a class, in a hyphen behind the first member of an item. -/
def AwaitsLast (u : List Char) : Prop :=
  ∃ (w : List Char) (negated : Bool) (items : List Item) (first : Char),
    u = w ++ '[' :: (if negated then ['^'] else []) ++ items.flatMap Item.chars ++ [first, '-'] ∧
      (Nesting.behind w).inClass = false ∧ (∀ i ∈ items, i.Valid) ∧ isMember first ∧
      Item.separate (items ++ [.member first])

def ParseError.TrueOf (limit : Option Nat) (cs : List Char) : ParseError → Prop
  | .unexpected found q => cs[q - 1]? = some found ∨ q = cs.length + 1 ∧ found = endOfInput
  | .unclosed expected q =>
      q = cs.length + 1 ∧
        if (Nesting.behind cs).inClass then expected = ']'
        else expected = ')' ∧ (Nesting.behind cs).closed < (Nesting.behind cs).opened
  | .openRange q =>
      (Nesting.behind (cs.take (q - 1))).inClass ∧ AwaitsLast (cs.take (q - 1)) ∧
        ∀ c ∈ cs[q - 1]?, isLiteral c = false
  | .tooDeep q =>
      ∃ n, limit = some n ∧ cs[q - 1]? = some '(' ∧ Nesting.OpensAt n (cs.take (q - 1))

namespace Reader

variable {r r' : Reader Shared Draft Symbol} {halt : Halt Shared}

inductive Unfinished (r : Reader Shared Draft Symbol) : ParseError → Prop
  | base : r.phase = .base → Unfinished r (.unexpected endOfInput r.position)
  | group {t starred} : r.phase = .factor t starred → r.outer ≠ [] →
      Unfinished r (.unclosed ')' r.position)
  | emptyClass {negated draft place} : r.phase = .inClass negated draft place →
      Unfinished r (.unexpected endOfInput r.position)
  | range {negated draft first} : r.phase = .inClass negated draft (.hyphen first) →
      Unfinished r (.openRange r.position)
  | items {negated draft place} : r.phase = .inClass negated draft place →
      Unfinished r (.unclosed ']' r.position)

theorem unfinished_of_finish (h : r.finish p = .error halt) : r.Unfinished halt.error := by
  cases hphase : r.phase with
  | base =>
      rw [finish, hphase] at h
      cases h
      exact .base hphase
  | factor t starred =>
      simp only [finish, hphase] at h
      split at h
      · contradiction
      · next houter =>
          cases h
          exact .group hphase (mt List.isEmpty_iff.mpr houter)
  | inClass negated draft place =>
      rw [finish, hphase] at h
      cases h
      cases place with
      | bracket | negation => exact .emptyClass hphase
      | member first | item => exact .items hphase
      | hyphen first => exact .range hphase

theorem Move.ne_endOfInput (h : Move p r c r') : c ≠ endOfInput := by
  cases h with
  | literal _ hc | range _ hc => exact ne_of_isLiteral hc (by decide)
  | member _ _ hc | nextMember _ hc _ => exact ne_of_isMember hc (by decide)
  | openGroup | openClass | star | split | closeGroup | negate | hyphen | closeClass
  | closeMember => decide

def ClassBegun (m : SymbolMaker Shared Draft Symbol) (r : Reader Shared Draft Symbol)
    (u : List Char) : Prop :=
  ∃ w v s, u = w ++ v ∧ (Nesting.behind w).inClass = false ∧ Begun m s v r.phase r.shared

theorem ClassBegun.go_on (h : r.ClassBegun p.maker u)
    (hbegun : ∀ {s v}, Begun p.maker s v r.phase r.shared →
      Begun p.maker s (v ++ [c]) r'.phase r'.shared) :
    r'.ClassBegun p.maker (u ++ [c]) := by
  obtain ⟨w, v, s, rfl, hout, h⟩ := h
  exact ⟨w, v ++ [c], s, List.append_assoc _ _ _, hout, hbegun h⟩

structure Locates (m : SymbolMaker Shared Draft Symbol) (r : Reader Shared Draft Symbol)
    (u : List Char) : Prop where
  tracks : r.Tracks (Nesting.behind u)
  begun : r.phase.isInClass → r.ClassBegun m u

theorem Locates.begun_move (h : r.Locates p.maker u) (hmove : Move p r c r')
    (hin : r'.phase.isInClass) : r'.onward.ClassBegun p.maker (u ++ [c]) := by
  have hbegun := h.begun
  cases hmove with
  | openGroup | literal | star | split | closeGroup | closeClass | closeMember => contradiction
  | openClass hready => exact ⟨u, ['['], _, rfl, h.tracks.ready hready, .bracket _ _⟩
  | negate hphase => exact (hbegun (by rw [hphase]; rfl)).go_on fun hb => (hphase ▸ hb).negate
  | member hphase hplace hc =>
      exact (hbegun (by rw [hphase]; rfl)).go_on fun hb => (hphase ▸ hb).member hplace hc
  | nextMember hphase hc hhyphen =>
      exact (hbegun (by rw [hphase]; rfl)).go_on fun hb => (hphase ▸ hb).next_member hc hhyphen
  | hyphen hphase => exact (hbegun (by rw [hphase]; rfl)).go_on fun hb => (hphase ▸ hb).hyphen
  | range hphase hc => exact (hbegun (by rw [hphase]; rfl)).go_on fun hb => (hphase ▸ hb).range hc

theorem Locates.move (h : r.Locates p.maker u) (hmove : Move p r c r') :
    r'.onward.Locates p.maker (u ++ [c]) := by
  refine ⟨?_, fun hin => h.begun_move hmove hin⟩
  rw [Nesting.behind_concat]
  exact h.tracks.move hmove

theorem ClassBegun.awaitsLast {negated : Bool} {draft : Draft} {first : Char}
    (h : r.ClassBegun p.maker u) (hphase : r.phase = .inClass negated draft (.hyphen first)) :
    AwaitsLast u := by
  obtain ⟨w, v, s, rfl, hout, hbegun⟩ := h
  rw [hphase] at hbegun
  cases hbegun with
  | inClass _ items _ hitems hplace =>
      refine ⟨w, negated, items, first, by simp [Place.pending], hout, hitems.valid, hplace.1, ?_⟩
      exact Item.separate_concat.mpr ⟨hitems.separate, hplace.2⟩

end Reader

end Pattern

namespace Parser

open Pattern

variable {r : Reader Shared Draft Symbol}

theorem locates_of_run (h : p.run s cs = .ok r) : r.Locates p.maker cs := by
  have hstart : ({ shared := s } : Reader Shared Draft Symbol).Locates p.maker [] :=
    ⟨⟨rfl, rfl, rfl⟩, by simp [Phase.isInClass]⟩
  exact Reader.readAll_invariant (w := []) (fun _ _ _ _ hr hmove => hr.move hmove) hstart h

theorem awaitsLast_of_run {negated : Bool} {draft : Draft} {first : Char} (h : p.run s cs = .ok r)
    (hphase : r.phase = .inClass negated draft (.hyphen first)) :
    (Nesting.behind cs).inClass ∧ AwaitsLast cs := by
  have hlocates := locates_of_run h
  have hbegun := hlocates.begun (by rw [hphase]; rfl)
  exact ⟨hlocates.tracks.in_class hphase, hbegun.awaitsLast hphase⟩

theorem opensAt_of_refusal {b : Reader Shared Draft Symbol} (h : p.run s u = .ok r)
    (hready : r.Ready b) (hfull : b.mayOpen p = false) :
    ∃ n, p.limit = some n ∧ Nesting.OpensAt n u := by
  obtain ⟨m, limit⟩ := p
  have htracks := tracks_of_run h
  cases limit with
  | none => contradiction
  | some n =>
      have hdepth : r.depth ≤ n := depth_le_of_run (p := ⟨m, none⟩) h
      have hover : n ≤ b.depth := by simpa [Reader.mayOpen] using hfull
      rw [hready.depth] at hover
      refine ⟨n, rfl, htracks.ready hready, ?_⟩
      rw [htracks.opened, Nat.le_antisymm hdepth hover]

theorem trueOf_of_refusal (h : p.run s u = .ok r) (hrefusal : Reader.Refusal p r c e)
    (v : List Char) : e.TrueOf p.limit (u ++ c :: v) := by
  have hposition := position_of_run h
  cases hrefusal with
  | unexpected => exact .inl (by simp [hposition])
  | openRange hphase hc =>
      obtain ⟨hin, hawaits⟩ := awaitsLast_of_run h hphase
      simpa [ParseError.TrueOf, hposition] using ⟨hin, hawaits, hc⟩
  | tooDeep hready hc hfull =>
      obtain ⟨n, hlimit, hopens⟩ := opensAt_of_refusal h hready hfull
      exact ⟨n, hlimit, by simp [hposition, hc], by simpa [hposition] using hopens⟩

theorem trueOf_of_unfinished (h : p.run s cs = .ok r) (hunfinished : r.Unfinished e) :
    e.TrueOf p.limit cs := by
  have hposition := position_of_run h
  have htracks := tracks_of_run h
  cases hunfinished with
  | base | emptyClass => exact .inr ⟨hposition, rfl⟩
  | group hphase houter =>
      refine ⟨hposition, ?_⟩
      have hdepth : 0 < r.depth := by
        rw [← htracks.outer]
        exact List.length_pos_of_ne_nil houter
      rw [htracks.behind_factor hphase, htracks.opened]
      simp only [Bool.false_eq_true, if_false, true_and]
      omega
  | range hphase =>
      obtain ⟨hin, hawaits⟩ := awaitsLast_of_run h hphase
      simpa [ParseError.TrueOf, hposition] using ⟨hin, hawaits⟩
  | items hphase =>
      refine ⟨hposition, ?_⟩
      rw [if_pos (htracks.in_class hphase)]

theorem trueOf_of_read (h : (p.read s cs).1 = .error e) : e.TrueOf p.limit cs := by
  obtain ⟨halt, hhalt, rfl⟩ := read_eq_error_iff.mp h
  rcases alternatives_eq_error hhalt with ⟨u, c, v, r, rfl, hrun, hstep⟩ | ⟨r, hrun, hfinish⟩
  · exact trueOf_of_refusal hrun (Reader.refusal_of_step hstep) v
  · exact trueOf_of_unfinished hrun (Reader.unfinished_of_finish hfinish)

theorem position_of_read (h : (p.read s cs).1 = .error e) :
    0 < e.position ∧ e.position ≤ cs.length + 1 := by
  rcases exists_refusal h with ⟨u, c, v, r, halt, rfl, -, hposition, -⟩ | ⟨r, -, hposition⟩
  · simp [hposition]
  · simp [hposition]

theorem read_endOfInput (p : Parser Shared Draft Symbol) (s : Shared) (u v : List Char) :
    ∃ e, (p.read s (u ++ endOfInput :: v)).1 = .error e ∧ e.position ≤ u.length + 1 ∧
      (e.position = u.length + 1 →
        e = .unexpected endOfInput e.position ∨ e = .openRange e.position) := by
  cases hrun : p.run s u with
  | error halt =>
      have hearly := position_le_of_run hrun
      exact ⟨halt.error, read_eq_error_of_run hrun _, by omega, by omega⟩
  | ok r =>
      rcases Reader.step_outcome p r endOfInput with ⟨r', -, hmove⟩ | ⟨⟨e, s'⟩, hstep, hrefusal⟩
      · exact absurd rfl hmove.ne_endOfInput
      · refine ⟨e, ?_, ?_, fun _ => ?_⟩
        · simpa using read_eq_error_of_run (run_refused hrun hstep v) []
        · rw [hrefusal.position, position_of_run hrun]
        · cases hrefusal with
          | unexpected => exact .inl rfl
          | openRange => exact .inr rfl
          | tooDeep _ hc _ => contradiction

theorem read_error_truthful (p : Parser Shared Draft Symbol) (s : Shared) (cs : List Char) :
    (∀ e, (p.read s cs).1 = .error e →
      (0 < e.position ∧ e.position ≤ cs.length + 1) ∧ e.TrueOf p.limit cs) ∧
      ∀ u v, cs = u ++ endOfInput :: v →
        ∃ e, (p.read s cs).1 = .error e ∧ e.position ≤ u.length + 1 ∧
          (e.position = u.length + 1 →
            e = .unexpected endOfInput e.position ∨ e = .openRange e.position) := by
  refine ⟨fun e h => ⟨position_of_read h, trueOf_of_read h⟩, ?_⟩
  rintro u v rfl
  exact read_endOfInput p s u v

example : ((transcribing (some 1)).read () "(a[^b--".toList).1 = .error (.unclosed ']' 8) ∧
    ((transcribing (some 1)).read () "(a[^b-\x03".toList).1 = .error (.openRange 7) := by decide

end Parser

end RegexTree
