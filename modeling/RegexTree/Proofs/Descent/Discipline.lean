import RegexTree.Proofs.Descent.Fuel
import RegexTree.Proofs.Descent.Routines

namespace RegexTree

namespace Pattern

variable {Shared Draft Symbol : Type} {p : Parser Shared Draft Symbol} {limit : Option Nat}
  {cs : List Char} {m : Moment Shared} {before : List (Moment Shared)}

def Event.Starts (event : Event) : Prop :=
  (∃ routine, event = .begins routine) ∨ ∃ loop, event = .turns loop

def depthBehind : List (Moment Shared) → UInt32
  | [] => 0
  | m :: _ => m.cursor.depth

structure Moment.Disciplined (p : Parser Shared Draft Symbol) (cs : List Char) (m : Moment Shared)
    (before : List (Moment Shared)) : Prop extends Kept p.limit cs m.cursor (m :: before) where
  returns : ∀ routine, m.event = .begins routine → ∀ n s,
    (Descent.call p n routine).run.run ⟨m.cursor, before⟩ = some (.ok (), s) → m.cursor.Gains s.cursor
  ends : ∀ routine, m.event = .begins routine → ∀ n, m.cursor.fuel ≤ n →
    ∃ result s, (Descent.call p n routine).run.run ⟨m.cursor, before⟩ = some (result, s)
  falls : m.event.Starts → ∀ e ∈ before, e.event = m.event →
    m.cursor.rest.length < e.cursor.rest.length
  nesting : m.event.Starts → ∀ u, cs = u ++ m.cursor.rest →
    m.cursor.depth.toNat + (Nesting.behind u).closed = (Nesting.behind u).opened
  opens : m.event = .opens → m.cursor.depth.toNat = (depthBehind before).toNat + 1
  closes : m.event = .closes → m.cursor.depth.toNat + 1 = (depthBehind before).toNat

theorem Event.Starts.exists_rank {event : Event} (h : event.Starts) : ∃ n, event.rank = some n := by
  rcases h with ⟨routine, rfl⟩ | ⟨loop, rfl⟩
  · cases routine <;> exact ⟨_, rfl⟩
  · cases loop <;> exact ⟨_, rfl⟩

namespace Moment.Sound

theorem roomy (h : m.Sound limit cs before) (hshort : cs.length < UInt32.size) (hstarts : m.event.Starts) :
    m.cursor.Roomy := by
  obtain ⟨n, hn⟩ := hstarts.exists_rank
  have hmost := h.toPlaced.depth_add_length_le (h.nesting (hn ▸ rfl) _ h.text)
  exact Nat.le_of_lt (Nat.lt_of_le_of_lt hmost hshort)

theorem disciplined (h : m.Sound p.limit cs before) (hshort : cs.length < UInt32.size)
    (hbehind : (depthBehind before).toNat + closings before = openings before) :
    m.Disciplined p cs before where
  toKept := h.toKept
  returns routine hbegins _ _ hrun :=
    Descent.gains_of_call (s := ⟨m.cursor, before⟩) (h.roomy hshort (.inl ⟨routine, hbegins⟩)) hrun
  ends routine hbegins _ hn :=
    Descent.exists_outcome_of_call p routine (s := ⟨m.cursor, before⟩)
      (h.roomy hshort (.inl ⟨routine, hbegins⟩)) hn
  falls hstarts e he hsame := by
    obtain ⟨n, hn⟩ := hstarts.exists_rank
    have hfall := h.falls n hn e he n (hsame ▸ hn)
    omega
  nesting hstarts u hu := by
    obtain ⟨n, hn⟩ := hstarts.exists_rank
    rw [h.nesting (hn ▸ rfl) u hu, Nat.add_comm]
  opens hevent := by
    have hdepth := h.depth
    rw [closings_cons, openings_cons, hevent, if_neg (by simp), if_pos rfl] at hdepth
    omega
  closes hevent := by
    have hdepth := h.depth
    rw [closings_cons, openings_cons, hevent, if_pos rfl, if_neg (by simp)] at hdepth
    omega

end Moment.Sound

namespace Course.Sound

variable {s : Course Shared} {start : Shared}

theorem depthBehind_add (h : s.Sound limit start cs) (hsuffix : before <:+ s.moments) :
    (depthBehind before).toNat + closings before = openings before := by
  cases before with
  | nil => rfl
  | cons e older => exact (h.moments e older hsuffix).depth

theorem disciplined (h : s.Sound p.limit start cs) (hshort : cs.length < UInt32.size)
    (hsuffix : m :: before <:+ s.moments) : m.Disciplined p cs before :=
  (h.moments m before hsuffix).disciplined hshort
    (h.depthBehind_add ((List.suffix_cons m before).trans hsuffix))

end Course.Sound

end Pattern

open Pattern

variable {Shared Draft Symbol : Type}

theorem Parser.descend_disciplined (p : Parser Shared Draft Symbol) (shared : Shared) (cs : List Char)
    (hshort : cs.length < UInt32.size) :
    ∃ result s, p.descend shared cs = some (result, s) ∧ (result, s.cursor.shared) = p.read shared cs ∧
      (∀ m before, m :: before <:+ s.moments → m.Disciplined p cs before) ∧
      (cs ≠ ['ε'] → cs ≠ ['∅'] →
        s.moments.getLast? = some ⟨.begins .expression, { shared, rest := cs }⟩ ∧
          s.Concludes p.limit cs result) := by
  obtain ⟨result, s, hrun, hread, ⟨hsign, hnone⟩ | ⟨hsound, hend⟩⟩ := p.descend_reads shared hshort
  · refine ⟨result, s, hrun, hread, fun m before hsuffix => ?_, fun hword hset => ?_⟩
    · rw [hnone] at hsuffix
      exact absurd (List.suffix_nil.mp hsuffix) (List.cons_ne_nil _ _)
    · exact absurd hsign (not_or.mpr ⟨hword, hset⟩)
  · exact ⟨result, s, hrun, hread, fun m before => hsound.disciplined hshort,
      fun _ _ => ⟨hsound.earliest, hend⟩⟩

theorem Parser.descend_disciplined_starred_group :
    ∃ s, (Parser.transcribing (some 1)).descend () "(a|b)*".toList =
        some (.ok (.star (.alternation (.literal [.including [.single 'a']])
          (.literal [.including [.single 'b']]))), s) ∧
      (s.moments.reverse.map fun m => m.event) =
        [.begins .expression, .begins .concatenation, .begins .factor, .begins .base, .begins .group,
          .opens, .reads '(',
          .begins .expression, .begins .concatenation, .begins .factor, .begins .base, .reads 'a',
          .turns .factors, .turns .alternatives, .reads '|',
          .begins .concatenation, .begins .factor, .begins .base, .reads 'b',
          .turns .factors, .turns .alternatives, .reads ')', .closes, .reads '*',
          .turns .factors, .turns .alternatives] ∧
      (∀ m before, m :: before <:+ s.moments →
        m.Disciplined (Parser.transcribing (some 1)) "(a|b)*".toList before) ∧
      s.moments.getLast? = some ⟨.begins .expression, { shared := (), rest := "(a|b)*".toList }⟩ ∧
      s.cursor.rest = [] ∧ s.cursor.depth = 0 := by
  obtain ⟨result, s, hrun, hread, hall, hends⟩ :=
    Parser.descend_disciplined (Parser.transcribing (some 1)) () "(a|b)*".toList (by decide)
  have hresult : result = (Parser.read (Parser.transcribing (some 1)) () "(a|b)*".toList).1 :=
    congrArg Prod.fst hread
  subst hresult
  have hevents := congrArg (Option.map fun o => o.2.moments.reverse.map fun m => m.event) hrun
  obtain ⟨hearliest, hend⟩ := hends (by decide) (by decide)
  exact ⟨s, hrun, Option.some.inj hevents.symm, hall, hearliest, hend.accepted _ rfl⟩

end RegexTree
