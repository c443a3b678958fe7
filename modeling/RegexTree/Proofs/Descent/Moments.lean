import RegexTree.Proofs.Descent.Progress
import RegexTree.Proofs.Reader.Depth

namespace RegexTree.Pattern

variable {Shared Draft Symbol : Type}

theorem toNat_saturatingPredecessor {x : UInt32} (h : x ≠ 0) :
    (saturatingPredecessor x).toNat + 1 = x.toNat := by
  have hpos : x.toNat ≠ 0 := fun h0 => h (UInt32.toNat_inj.mp h0)
  have hone : 1 ≤ x := by
    rw [UInt32.le_iff_toNat_le, UInt32.toNat_one]
    omega
  rw [saturatingPredecessor, if_neg h, UInt32.toNat_sub_of_le _ _ hone, UInt32.toNat_one]
  omega

def Event.text : Event → List Char
  | .reads c => [c]
  | _ => []

/-- Where nothing is read between two of them, the routine or loop of lower rank comes later. A character
read counts for more than all the ranks. -/
def Event.rank : Event → Option Nat
  | .turns .factors => some 10
  | .turns .alternatives => some 9
  | .begins .expression => some 8
  | .begins .concatenation => some 7
  | .begins .factor => some 6
  | .begins .base => some 5
  | .begins .group => some 4
  | .begins .charClass => some 4
  | .turns .items => some 2
  | .begins .item => some 1
  | .reads _ => none
  | .opens => none
  | .closes => none

theorem Event.text_of_rank {event : Event} {n : Nat} (h : event.rank = some n) : event.text = [] := by
  cases event with
  | reads c => contradiction
  | begins | turns | opens | closes => rfl

theorem Event.rank_le {event : Event} {n : Nat} (h : event.rank = some n) : n ≤ 10 := by
  cases event with
  | begins routine => cases routine <;> simp_all [rank] <;> omega
  | turns loop => cases loop <;> simp_all [rank] <;> omega
  | reads | opens | closes => contradiction

def openings (past : List (Moment Shared)) : Nat := past.countP fun m => m.event = .opens

def closings (past : List (Moment Shared)) : Nat := past.countP fun m => m.event = .closes

theorem openings_cons (m : Moment Shared) (past : List (Moment Shared)) :
    openings (m :: past) = openings past + if m.event = .opens then 1 else 0 := by
  simp [openings, List.countP_cons]

theorem closings_cons (m : Moment Shared) (past : List (Moment Shared)) :
    closings (m :: past) = closings past + if m.event = .closes then 1 else 0 := by
  simp [closings, List.countP_cons]

def charsRead (past : List (Moment Shared)) : List Char := past.reverse.flatMap fun m => m.event.text

theorem charsRead_cons (m : Moment Shared) (past : List (Moment Shared)) :
    charsRead (m :: past) = charsRead past ++ m.event.text := by
  simp [charsRead]

structure Placed (cs : List Char) (k : Cursor Shared) (past : List (Moment Shared)) : Prop where
  text : cs = charsRead past ++ k.rest
  position : k.position = (charsRead past).length + 1

theorem Placed.cons {cs : List Char} {k k' : Cursor Shared} {past : List (Moment Shared)}
    {event : Event} (h : Placed cs k past) (hevent : event.text = []) (hrest : k'.rest = k.rest)
    (hposition : k'.position = k.position) : Placed cs k' (⟨event, k'⟩ :: past) := by
  have hread : charsRead (⟨event, k'⟩ :: past) = charsRead past := by
    rw [charsRead_cons, hevent, List.append_nil]
  exact ⟨by rw [hread, hrest, ← h.text], by rw [hread, hposition, h.position]⟩

theorem Placed.depth_add_length_le {cs : List Char} {k : Cursor Shared} {past : List (Moment Shared)}
    (h : Placed cs k past) (hnesting : (Nesting.behind (charsRead past)).opened =
      (Nesting.behind (charsRead past)).closed + k.depth.toNat) :
    k.depth.toNat + k.rest.length ≤ cs.length := by
  have hmost := Nesting.opened_behind_le (charsRead past)
  have hlength := congrArg List.length h.text
  rw [List.length_append] at hlength
  omega

structure Kept (limit : Option Nat) (cs : List Char) (k : Cursor Shared)
    (past : List (Moment Shared)) : Prop extends Placed cs k past where
  depth : k.depth.toNat + closings past = openings past
  within : ∀ n ∈ limit, k.depth.toNat ≤ n

structure Moment.Sound (limit : Option Nat) (cs : List Char) (m : Moment Shared)
    (before : List (Moment Shared)) : Prop extends Kept limit cs m.cursor (m :: before) where
  nesting : m.event.rank.isSome → ∀ u, cs = u ++ m.cursor.rest →
    (Nesting.behind u).opened = (Nesting.behind u).closed + m.cursor.depth.toNat
  falls : ∀ n ∈ m.event.rank, ∀ e ∈ before, ∀ j ∈ e.event.rank,
    11 * m.cursor.rest.length + n < 11 * e.cursor.rest.length + j

namespace Course

variable {s : Course Shared} {limit : Option Nat} {cs rest : List Char} {event : Event}
  {k : Cursor Shared} {start : Shared} {c : Char} {n m : Nat}

structure Sound (limit : Option Nat) (start : Shared) (cs : List Char) (s : Course Shared) : Prop
    extends Kept limit cs s.cursor s.moments where
  earliest : s.moments.getLast? = some ⟨.begins .expression, { shared := start, rest := cs }⟩
  moments : ∀ m before, m :: before <:+ s.moments → m.Sound limit cs before

def Below (s : Course Shared) (n : Nat) : Prop :=
  ∀ e ∈ s.moments, ∀ j ∈ e.event.rank, 11 * s.cursor.rest.length + n < 11 * e.cursor.rest.length + j

namespace Sound

theorem beginning (limit : Option Nat) (start : Shared) (cs : List Char) :
    Course.Sound limit start cs
      (Course.mark { cursor := { shared := start, rest := cs } } (.begins .expression)) := by
  have hkept : Kept limit cs { shared := start, rest := cs }
      [⟨.begins .expression, { shared := start, rest := cs }⟩] :=
    ⟨⟨rfl, rfl⟩, rfl, fun _ _ => Nat.zero_le _⟩
  refine ⟨hkept, rfl, fun m before hsuffix => ?_⟩
  rcases List.suffix_cons_iff.mp hsuffix with heq | hsuffix
  · cases heq
    refine ⟨hkept, fun _ u hu => ?_, fun _ _ _ he => absurd he List.not_mem_nil⟩
    obtain rfl : u = [] := List.self_eq_append_left.mp hu
    rfl
  · exact absurd (List.suffix_nil.mp hsuffix) (List.cons_ne_nil _ _)

theorem pass (h : s.Sound limit start cs) (hnow : Moment.Sound limit cs ⟨event, k⟩ s.moments) :
    (s.pass event k).Sound limit start cs where
  toKept := hnow.toKept
  earliest := by
    change List.getLast? (_ :: s.moments) = _
    rw [List.getLast?_cons, h.earliest]
    rfl
  moments := by
    intro m before hsuffix
    rcases List.suffix_cons_iff.mp hsuffix with heq | hsuffix
    · cases heq
      exact hnow
    · exact h.moments m before hsuffix

theorem pass_unranked (h : s.Sound limit start cs) (hrank : event.rank = none)
    (hkept : Kept limit cs k (⟨event, k⟩ :: s.moments)) : (s.pass event k).Sound limit start cs :=
  h.pass ⟨hkept, by simp [hrank], by simp [hrank]⟩

theorem mark (h : s.Sound limit start cs) (hrank : event.rank = some n) (hbelow : s.Below n)
    (hnesting : ∀ u, cs = u ++ s.cursor.rest →
      (Nesting.behind u).opened = (Nesting.behind u).closed + s.cursor.depth.toNat) :
    (s.mark event).Sound limit start cs := by
  have hopens : event ≠ .opens := by
    rintro rfl
    contradiction
  have hcloses : event ≠ .closes := by
    rintro rfl
    contradiction
  have hplaced := h.toPlaced.cons (Event.text_of_rank hrank) rfl rfl
  refine h.pass ⟨⟨hplaced, ?_, h.within⟩, fun _ => hnesting, ?_⟩
  · rw [closings_cons, openings_cons, if_neg hopens, if_neg hcloses]
    exact h.depth
  · intro j hj e he i hi
    rw [hrank] at hj
    cases hj
    exact hbelow e he i hi

theorem advance (h : s.Sound limit start cs) (hrest : s.cursor.rest = c :: rest) :
    s.advance.Sound limit start cs := by
  rw [Course.advance, hrest]
  refine h.pass_unranked rfl ⟨⟨?_, ?_⟩, ?_, h.within⟩
  · rw [charsRead_cons, List.append_assoc]
    exact h.text.trans (congrArg _ hrest)
  · rw [charsRead_cons, List.length_append]
    exact congrArg (· + 1) h.position
  · rw [closings_cons, openings_cons, if_neg (by simp), if_neg (by simp)]
    exact h.depth

theorem openGroup (h : s.Sound limit start cs) (hcount : s.cursor.depth.toNat + 1 < UInt32.size)
    (hlimit : ∀ n ∈ limit, s.cursor.depth.toNat < n) : s.openGroup.Sound limit start cs := by
  have hsucc := toNat_add_one hcount
  have hdepth := h.depth
  refine h.pass_unranked rfl ⟨h.toPlaced.cons rfl rfl rfl, ?_, ?_⟩
  · rw [closings_cons, openings_cons, if_neg (by simp), if_pos rfl, hsucc]
    omega
  · intro n hn
    rw [hsucc]
    exact hlimit n hn

theorem closeGroup (h : s.Sound limit start cs) (hopen : s.cursor.depth ≠ 0) :
    s.closeGroup.Sound limit start cs := by
  have hpred := toNat_saturatingPredecessor hopen
  have hdepth := h.depth
  refine h.pass_unranked rfl ⟨h.toPlaced.cons rfl rfl rfl, ?_, ?_⟩
  · rw [closings_cons, openings_cons, if_pos rfl, if_neg (by simp)]
    change (saturatingPredecessor s.cursor.depth).toNat + (closings s.moments + 1) = _
    omega
  · intro n hn
    have hle := h.within n hn
    simp only
    omega

theorem withShared (h : s.Sound limit start cs) (shared : Shared) :
    (s.withShared shared).Sound limit start cs :=
  ⟨⟨⟨h.text, h.position⟩, h.depth, h.within⟩, h.earliest, h.moments⟩

end Sound

structure Concludes (limit : Option Nat) (cs : List Char) (result : Except ParseError (Regex Symbol))
    (s : Course Shared) : Prop extends Kept limit cs s.cursor s.moments where
  accepted : ∀ t, result = .ok t → s.cursor.rest = [] ∧ s.cursor.depth = 0
  refused : ∀ e, result = .error e → s.cursor.position = e.position

theorem Sound.concludes_ok {t : Regex Symbol} (h : s.Sound limit start cs)
    (hrest : s.cursor.rest = []) (hdepth : s.cursor.depth = 0) : s.Concludes limit cs (.ok t) where
  toKept := h.toKept
  accepted _ _ := ⟨hrest, hdepth⟩
  refused := nofun

theorem Sound.concludes_error {e : ParseError} (h : s.Sound limit start cs)
    (hposition : s.cursor.position = e.position) :
    s.Concludes limit cs (.error e : Except ParseError (Regex Symbol)) where
  toKept := h.toKept
  accepted := nofun
  refused _ he := Except.error.inj he ▸ hposition

namespace Below

theorem mono (h : s.Below n) (hle : m ≤ n) : s.Below m := by
  intro e he j hj
  have := h e he j hj
  omega

theorem mark (h : s.Below n) (hrank : event.rank = some n) (hlt : m < n) : (s.mark event).Below m := by
  intro e he j hj
  rcases List.mem_cons.mp he with rfl | he
  · rw [hrank] at hj
    cases hj
    exact Nat.add_lt_add_left hlt _
  · exact h.mono (Nat.le_of_lt hlt) e he j hj

theorem advance (h : s.Below n) (hrest : s.cursor.rest = c :: rest) : s.advance.Below 10 := by
  rw [Course.advance, hrest]
  intro e he j hj
  rcases List.mem_cons.mp he with rfl | he
  · contradiction
  · have hle := Event.rank_le hj
    have hbelow := h e he j hj
    simp only [hrest, List.length_cons] at hbelow
    simp only [Course.pass]
    omega

theorem openGroup (h : s.Below n) : s.openGroup.Below n := by
  intro e he j hj
  rcases List.mem_cons.mp he with rfl | he
  · contradiction
  · exact h e he j hj

theorem closeGroup (h : s.Below n) : s.closeGroup.Below n := by
  intro e he j hj
  rcases List.mem_cons.mp he with rfl | he
  · contradiction
  · exact h e he j hj

theorem withShared (h : s.Below n) (shared : Shared) : (s.withShared shared).Below n := h

end Below

end Course

end RegexTree.Pattern
