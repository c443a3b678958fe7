import RegexTree.Proofs.Descent.Moments
import RegexTree.Proofs.Grammar.Acceptance

namespace RegexTree.Pattern

variable {Shared Draft Symbol : Type} {p : Parser Shared Draft Symbol} {start : Shared}
  {cs rest : List Char} {s s' : Course Shared} {r r' b : Reader Shared Draft Symbol} {c : Char}
  {n m : Nat}

namespace Reader

theorem Ready.shared (h : r.Ready b) : b.shared = r.shared := by
  cases h <;> rfl

def Startable (r : Reader Shared Draft Symbol) (rest : List Char) : Prop :=
  r.phase = .base ∨ ∃ c, rest.head? = some c ∧ startsFactor c

theorem Startable.base_of_nil (h : r.Startable []) : r.phase = .base := by
  rcases h with h | ⟨c, hc, -⟩
  · exact h
  · contradiction

theorem Startable.base_of_cons (h : r.Startable (c :: rest)) (hc : startsFactor c = false) :
    r.phase = .base := by
  rcases h with h | ⟨d, hd, hstarts⟩
  · exact h
  · obtain rfl : c = d := Option.some.inj hd
    rw [hc] at hstarts
    contradiction

theorem step_eq_unexpected_of_base (h : r.phase = .base) (hc : startsFactor c = false) :
    r.step p c = r.unexpected c := by
  simp only [startsFactor, Bool.or_eq_false_iff, decide_eq_false_iff_not] at hc
  simp [step, h, readBase, hc]

theorem step_eq_unexpected_of_factor {t : Regex Symbol} {starred : Bool}
    (h : r.phase = .factor t starred) (hc : startsFactor c = false) (hbar : c ≠ '|') (hclose : c ≠ ')')
    (hstar : c = '*' → starred = true) : r.step p c = r.unexpected c := by
  have hplain : (c = '*' && !starred) = false := by
    cases starred <;> simp_all
  simp [step, h, readBehindFactor, hc, hbar, hclose, hplain]

theorem bind_finish_settle {negated : Bool} {draft : Draft} {first : Char}
    (h : r.phase = .inClass negated draft (.member first)) (hrest : rest.head? ≠ some '-') :
    (r.readAll p rest).bind (finish p) =
      ((r.settle p negated draft first).readAll p rest).bind (finish p) := by
  cases rest with
  | nil =>
      change r.finish p = (r.settle p negated draft first).finish p
      simp [finish, h, settle, finishClass]
  | cons c rest =>
      have hc : c ≠ '-' := by simpa using hrest
      rw [readAll_cons, readAll_cons, advance_settle h hc]

end Reader

structure At (p : Parser Shared Draft Symbol) (start : Shared) (cs : List Char) (s : Course Shared)
    (n : Nat) (r : Reader Shared Draft Symbol) : Prop where
  sound : s.Sound p.limit start cs
  below : s.Below n
  depth : s.cursor.depth.toNat = r.depth
  position : s.cursor.position = r.position
  tracks : ∀ u, cs = u ++ s.cursor.rest → r.Tracks (Nesting.behind u)
  reading : p.alternatives start cs = (r.readAll p s.cursor.rest).bind (Reader.finish p)

structure Fails (p : Parser Shared Draft Symbol) (start : Shared) (cs : List Char) (e : ParseError)
    (s : Course Shared) : Prop where
  sound : s.Sound p.limit start cs
  position : s.cursor.position = e.position
  reading : p.alternatives start cs = .error ⟨e, s.cursor.shared⟩

namespace At

theorem beginning (p : Parser Shared Draft Symbol) (start : Shared) (cs : List Char) :
    At p start cs (Course.mark { cursor := { shared := start, rest := cs } } (.begins .expression)) 7
      { shared := start } where
  sound := .beginning p.limit start cs
  below := Course.Below.mark (n := 8) nofun rfl (by decide)
  depth := rfl
  position := rfl
  tracks u hu := by
    obtain rfl : u = [] := List.self_eq_append_left.mp hu
    exact ⟨rfl, rfl, rfl⟩
  reading := rfl

theorem nesting (h : At p start cs s n r) (u : List Char) (hu : cs = u ++ s.cursor.rest) :
    (Nesting.behind u).opened = (Nesting.behind u).closed + s.cursor.depth.toNat := by
  rw [h.depth]
  exact (h.tracks u hu).opened

theorem mono (h : At p start cs s n r) (hle : m ≤ n) : At p start cs s m r :=
  { h with below := h.below.mono hle }

theorem mark {event : Event} (h : At p start cs s n r) (hrank : event.rank = some n) (hlt : m < n) :
    At p start cs (s.mark event) m r where
  sound := h.sound.mark hrank h.below h.nesting
  below := h.below.mark hrank hlt
  depth := h.depth
  position := h.position
  tracks := h.tracks
  reading := h.reading

theorem withShared (h : At p start cs s n r) (shared : Shared) :
    At p start cs (s.withShared shared) n r where
  sound := h.sound.withShared shared
  below := h.below.withShared shared
  depth := h.depth
  position := h.position
  tracks := h.tracks
  reading := h.reading

theorem tracks_next (h : At p start cs s n r) (hrest : s.cursor.rest = c :: rest)
    (hmove : Reader.Move p r c r') (u : List Char) (hu : cs = u ++ rest) :
    r'.onward.Tracks (Nesting.behind u) := by
  have hv := h.sound.text
  have htext : u ++ rest = (charsRead s.moments ++ [c]) ++ rest := by
    rw [← hu, List.append_assoc]
    exact hv.trans (congrArg _ hrest)
  rw [List.append_cancel_right htext, Nesting.behind_concat]
  exact (h.tracks _ hv).move hmove

theorem reading_next (h : At p start cs s n r) (hrest : s.cursor.rest = c :: rest)
    (hmove : Reader.Move p r c r') :
    p.alternatives start cs = (r'.onward.readAll p rest).bind (Reader.finish p) := by
  rw [h.reading, hrest, Reader.readAll_cons_of_move hmove]

theorem advance (h : At p start cs s n r) (hrest : s.cursor.rest = c :: rest)
    (hmove : Reader.Move p r c r') (hdepth : r'.depth = r.depth) :
    At p start cs s.advance 10 r'.onward where
  sound := h.sound.advance hrest
  below := h.below.advance hrest
  depth := by
    rw [Course.cursor_advance hrest]
    exact h.depth.trans hdepth.symm
  position := by
    rw [Course.cursor_advance hrest, Reader.onward, hmove.position, h.position]
  tracks := by
    rw [Course.cursor_advance hrest]
    exact h.tracks_next hrest hmove
  reading := by
    rw [Course.cursor_advance hrest]
    exact h.reading_next hrest hmove

theorem depth_add_length_le (h : At p start cs s n r) :
    s.cursor.depth.toNat + s.cursor.rest.length ≤ cs.length :=
  h.sound.toPlaced.depth_add_length_le (h.nesting _ h.sound.text)

theorem mayOpen_eq (h : At p start cs s n r) (hready : r.Ready b) :
    s.cursor.mayOpen p = b.mayOpen p := by
  cases hlimit : p.limit with
  | none => simp [Cursor.mayOpen, Reader.mayOpen, hlimit]
  | some limit => simp [Cursor.mayOpen, Reader.mayOpen, hlimit, h.depth, hready.depth]

theorem roomy (h : At p start cs s n r) (hshort : cs.length < UInt32.size) : s.cursor.Roomy :=
  Nat.le_of_lt (Nat.lt_of_le_of_lt h.depth_add_length_le hshort)

theorem openGroup (h : At p start cs s n r) (hshort : cs.length < UInt32.size)
    (hrest : s.cursor.rest = '(' :: rest) (hready : r.Ready b) (hopen : b.mayOpen p) :
    At p start cs s.openGroup.advance 10 b.openGroup.onward := by
  have hcount : s.cursor.depth.toNat + 1 < UInt32.size := by
    have hmost := h.depth_add_length_le
    rw [hrest, List.length_cons] at hmost
    omega
  have hlimit : ∀ limit ∈ p.limit, s.cursor.depth.toNat < limit := by
    intro limit hl
    rw [Option.mem_def] at hl
    rw [← h.mayOpen_eq hready, Cursor.mayOpen, hl] at hopen
    exact of_decide_eq_true hopen
  have hopened : s.openGroup.cursor.rest = '(' :: rest := hrest
  have hmove : Reader.Move p r '(' b.openGroup := .openGroup hready hopen
  refine ⟨(h.sound.openGroup hcount hlimit).advance hopened, h.below.openGroup.advance hopened,
    ?_, ?_, ?_, ?_⟩ <;> rw [Course.cursor_advance hopened]
  · change (s.cursor.depth + 1).toNat = b.depth + 1
    rw [toNat_add_one hcount, hready.depth, h.depth]
  · change s.cursor.position + 1 = b.position + 1
    rw [hready.position, h.position]
  · exact h.tracks_next hrest hmove
  · exact h.reading_next hrest hmove

theorem closeGroup (h : At p start cs s n r) (hrest : s.cursor.rest = ')' :: rest)
    {t : Regex Symbol} {starred : Bool} {e : Expression Symbol} {outer : List (Expression Symbol)}
    (hphase : r.phase = .factor t starred) (houter : r.outer = e :: outer) :
    At p start cs s.advance.closeGroup 10 ({ r with
      depth := r.depth - 1
      outer
      inner := e
      phase := .factor (r.inner.push t).tree false } : Reader Shared Draft Symbol).onward := by
  have hmove : Reader.Move p r ')' _ := .closeGroup hphase houter
  have hpos : r.depth ≠ 0 := by
    rw [← (h.tracks _ h.sound.text).outer, houter]
    exact Nat.succ_ne_zero _
  have hdepth : s.cursor.depth ≠ 0 := by
    intro h0
    apply hpos
    rw [← h.depth, h0]
    rfl
  have hadvanced := Course.cursor_advance hrest
  have hpred := toNat_saturatingPredecessor hdepth
  have heq := h.depth
  refine ⟨(h.sound.advance hrest).closeGroup ?_, (h.below.advance hrest).closeGroup, ?_, ?_, ?_, ?_⟩ <;>
    simp only [Course.cursor_closeGroup, hadvanced]
  · exact hdepth
  · change (saturatingPredecessor s.cursor.depth).toNat = r.depth - 1
    omega
  · change s.cursor.position + 1 = r.position + 1
    rw [h.position]
  · exact h.tracks_next hrest hmove
  · exact h.reading_next hrest hmove

theorem settle (h : At p start cs s n r) {negated : Bool} {draft : Draft} {first : Char}
    (hphase : r.phase = .inClass negated draft (.member first))
    (hrest : s.cursor.rest.head? ≠ some '-') :
    At p start cs s n (r.settle p negated draft first) where
  sound := h.sound
  below := h.below
  depth := h.depth
  position := h.position
  tracks u hu := by
    have htracks := h.tracks u hu
    refine ⟨?_, htracks.opened, htracks.outer⟩
    rw [htracks.inClass, hphase]
    rfl
  reading := by rw [h.reading, Reader.bind_finish_settle hphase hrest]

theorem refused (h : At p start cs s n r) {e : ParseError} (hrest : s.cursor.rest = c :: rest)
    (hstep : r.step p c = .error ⟨e, s.cursor.shared⟩) : Fails p start cs e s where
  sound := h.sound
  position := h.position.trans (Reader.refusal_of_step hstep).position.symm
  reading := by
    rw [h.reading, hrest, Reader.readAll_cons, Reader.advance_eq_error_iff.mpr hstep]
    rfl

theorem ended (h : At p start cs s n r) {e : ParseError} (hrest : s.cursor.rest = [])
    (hfinish : r.finish p = .error ⟨e, s.cursor.shared⟩) : Fails p start cs e s where
  sound := h.sound
  position := h.position.trans (Reader.position_of_finish hfinish).symm
  reading := by
    rw [h.reading, hrest]
    exact hfinish

theorem unexpected (h : At p start cs s n r) (hshared : s.cursor.shared = r.shared)
    (hrest : s.cursor.rest = c :: rest) (hstep : r.step p c = r.unexpected c) :
    Fails p start cs (.unexpected (s.cursor.rest.head?.getD endOfInput) s.cursor.position) s := by
  refine h.refused hrest ?_
  rw [hstep, hrest, h.position, hshared]
  rfl

theorem unexpected_end (h : At p start cs s n r) (hshared : s.cursor.shared = r.shared)
    (hrest : s.cursor.rest = []) (hfinish : r.finish p = r.unexpected endOfInput) :
    Fails p start cs (.unexpected (s.cursor.rest.head?.getD endOfInput) s.cursor.position) s := by
  refine h.ended hrest ?_
  rw [hfinish, hrest, h.position, hshared]
  rfl

end At

end RegexTree.Pattern
