import RegexTree.Pattern.Nesting
import RegexTree.Proofs.Reader.Run

namespace RegexTree.Pattern

variable {Shared Draft Symbol : Type}

def Phase.isInClass : Phase Draft Symbol → Bool
  | .inClass _ _ _ => true
  | _ => false

namespace Nesting

variable {n : Nesting} {c : Char}

theorem next_of_inClass (h : n.inClass = true) (hc : c ≠ ']') : n.next c = n := by
  cases n
  simp_all [next]

theorem next_of_outside (h : n.inClass = false) (hclass : c ≠ '[') (hopen : c ≠ '(')
    (hclose : c ≠ ')') : n.next c = n := by
  simp [next, h, hclass, hopen, hclose]

theorem next_bracket (h : n.inClass = false) : n.next '[' = { n with inClass := true } := by
  simp [next, h]

theorem next_close_bracket (h : n.inClass = true) : n.next ']' = { n with inClass := false } := by
  simp [next, h]

theorem next_open (h : n.inClass = false) : n.next '(' = { n with opened := n.opened + 1 } := by
  simp [next, h]

theorem next_close (h : n.inClass = false) : n.next ')' = { n with closed := n.closed + 1 } := by
  simp [next, h]

theorem opened_next_le (n : Nesting) (c : Char) : (n.next c).opened ≤ n.opened + 1 := by
  rw [next]
  split
  · exact Nat.le_succ _
  · split
    · exact Nat.le_succ _
    · split
      · exact Nat.le_refl _
      · split <;> exact Nat.le_succ _

theorem opened_foldl_le (cs : List Char) (n : Nesting) :
    (cs.foldl next n).opened ≤ n.opened + cs.length := by
  induction cs generalizing n with
  | nil => exact Nat.le_refl _
  | cons c cs ih =>
      have hnext := n.opened_next_le c
      have hrest := ih (n.next c)
      simp only [List.foldl_cons, List.length_cons]
      omega

theorem opened_behind_le (cs : List Char) : (behind cs).opened ≤ cs.length := by
  simpa [behind] using opened_foldl_le cs {}

end Nesting

namespace Reader

variable {p : Parser Shared Draft Symbol} {r s b : Reader Shared Draft Symbol} {n : Nesting}
  {c : Char}

structure Tracks (r : Reader Shared Draft Symbol) (n : Nesting) : Prop where
  inClass : n.inClass = r.phase.isInClass
  opened : n.opened = n.closed + r.depth
  outer : r.outer.length = r.depth

theorem Ready.outside (h : r.Ready b) : r.phase.isInClass = false := by
  cases h with
  | base h | factor h => rw [h]; rfl

theorem Ready.depth (h : r.Ready b) : b.depth = r.depth := by
  cases h <;> rfl

theorem Ready.outer (h : r.Ready b) : b.outer = r.outer := by
  cases h <;> rfl

theorem Tracks.in_class (h : r.Tracks n) {negated : Bool} {draft : Draft} {place : Place}
    (hphase : r.phase = .inClass negated draft place) : n.inClass = true := by
  rw [h.inClass, hphase]
  rfl

theorem Tracks.behind_factor (h : r.Tracks n) {t : Regex Symbol} {starred : Bool}
    (hphase : r.phase = .factor t starred) : n.inClass = false := by
  rw [h.inClass, hphase]
  rfl

theorem Tracks.ready (h : r.Tracks n) (hready : r.Ready b) : n.inClass = false := by
  rw [h.inClass, hready.outside]

theorem Tracks.move (h : r.Tracks n) (hmove : Move p r c s) : s.onward.Tracks (n.next c) := by
  have hopened := h.opened
  have houter := h.outer
  cases hmove with
  | openGroup hready =>
      rw [Nesting.next_open (h.ready hready)]
      refine ⟨h.ready hready, ?_, ?_⟩
      · simp only [onward, openGroup, hready.depth]
        omega
      · simp [onward, openGroup, hready.depth, hready.outer, houter]
  | openClass hready =>
      rw [Nesting.next_bracket (h.ready hready)]
      refine ⟨rfl, ?_, ?_⟩
      · simpa [onward, openClass, hready.depth] using hopened
      · simpa [onward, openClass, hready.depth, hready.outer] using houter
  | literal hready hc =>
      rw [Nesting.next_of_outside (h.ready hready) (ne_of_isLiteral hc (by decide))
        (ne_of_isLiteral hc (by decide)) (ne_of_isLiteral hc (by decide))]
      refine ⟨h.ready hready, ?_, ?_⟩
      · simpa [onward, literal, complete, hready.depth] using hopened
      · simpa [onward, literal, complete, hready.depth, hready.outer] using houter
  | star hphase | split hphase =>
      rw [Nesting.next_of_outside (h.behind_factor hphase) (by decide) (by decide) (by decide)]
      exact ⟨h.behind_factor hphase, hopened, houter⟩
  | closeGroup hphase hgroup =>
      rw [Nesting.next_close (h.behind_factor hphase)]
      rw [hgroup, List.length_cons] at houter
      refine ⟨h.behind_factor hphase, ?_, ?_⟩
      · simp only [onward]
        omega
      · simp only [onward]
        omega
  | closeClass hphase | closeMember hphase =>
      rw [Nesting.next_close_bracket (h.in_class hphase)]
      exact ⟨rfl, hopened, houter⟩
  | negate hphase | hyphen hphase =>
      rw [Nesting.next_of_inClass (h.in_class hphase) (by decide)]
      exact ⟨h.in_class hphase, hopened, houter⟩
  | member hphase _ hc | nextMember hphase hc _ =>
      rw [Nesting.next_of_inClass (h.in_class hphase) (ne_of_isMember hc (by decide))]
      exact ⟨h.in_class hphase, hopened, houter⟩
  | range hphase hc =>
      rw [Nesting.next_of_inClass (h.in_class hphase) (ne_of_isLiteral hc (by decide))]
      exact ⟨h.in_class hphase, hopened, houter⟩

end Reader

end Pattern

theorem Parser.tracks_of_run {Shared Draft Symbol : Type} {p : Parser Shared Draft Symbol}
    {shared : Shared} {cs : List Char} {r : Pattern.Reader Shared Draft Symbol}
    (h : p.run shared cs = .ok r) : r.Tracks (Pattern.Nesting.behind cs) := by
  have hstart : ({ shared } : Pattern.Reader Shared Draft Symbol).Tracks (Pattern.Nesting.behind []) :=
    ⟨rfl, rfl, rfl⟩
  refine Pattern.Reader.readAll_invariant (P := fun r w => r.Tracks (Pattern.Nesting.behind w))
    (w := []) ?_ hstart h
  intro r w c s htracks hmove
  rw [Pattern.Nesting.behind_concat]
  exact htracks.move hmove

end RegexTree
