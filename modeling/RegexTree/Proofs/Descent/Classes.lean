import RegexTree.Proofs.Descent.Agreement

namespace RegexTree.Pattern

variable {Shared Draft Symbol : Type} {p : Parser Shared Draft Symbol} {start : Shared}
  {cs : List Char} {s s' : Course Shared} {r r' b : Reader Shared Draft Symbol} {n : Nat}
  {negated : Bool} {draft : Draft} {place : Place}

open Reader

inductive Place.Awaits (rest : List Char) : Place → Prop
  | bracket : rest.head? ≠ some '^' → Place.Awaits rest .bracket
  | negation : Place.Awaits rest .negation
  | item {c} : rest.head? = some c → isMember c → Place.Awaits rest .item

theorem Place.Awaits.mem {rest : List Char} (h : place.Awaits rest) :
    place ∈ [.bracket, .negation, .item] := by
  cases h <;> simp

theorem Place.Awaits.step_eq {rest : List Char} {c : Char} (h : place.Awaits (c :: rest))
    (hphase : r.phase = .inClass negated draft place) (hc : isMember c = false) :
    r.step p c = r.unexpected c := by
  cases h with
  | bracket hcaret =>
      have hne : c ≠ '^' := by simpa using hcaret
      simp [step, hphase, readInClass, readMember, hne, hc]
  | negation => simp [step, hphase, readInClass, readMember, hc]
  | item hhead hmember =>
      obtain rfl : c = _ := Option.some.inj hhead
      simp [hc] at hmember

theorem Place.Awaits.finish_eq (h : place.Awaits [])
    (hphase : r.phase = .inClass negated draft place) : r.finish p = r.unexpected endOfInput := by
  cases h with
  | bracket => simp [finish, hphase, finishClass, Reader.unexpected, halt]
  | negation => simp [finish, hphase, finishClass, Reader.unexpected, halt]
  | item hhead => simp at hhead

def ItemRead (p : Parser Shared Draft Symbol) (start : Shared) (cs : List Char)
    (b : Reader Shared Draft Symbol) (negated : Bool) (draft : Draft) (range : CodePointRange)
    (s : Course Shared) : Prop :=
  ∃ r, At p start cs s 10 r ∧ r.outer = b.outer ∧ r.inner = b.inner ∧
    r.phase = .inClass negated (addItem p negated draft range s.cursor.shared).1 .item ∧
    r.shared = (addItem p negated draft range s.cursor.shared).2

def ItemsRead (p : Parser Shared Draft Symbol) (start : Shared) (cs : List Char)
    (b : Reader Shared Draft Symbol) (negated : Bool) (draft : Draft) (s : Course Shared) : Prop :=
  ∃ r, At p start cs s 10 r ∧ s.cursor.shared = r.shared ∧ r.outer = b.outer ∧ r.inner = b.inner ∧
    r.phase = .inClass negated draft .item ∧ ∀ c, s.cursor.rest.head? = some c → isMember c = false

def BaseRead (p : Parser Shared Draft Symbol) (start : Shared) (cs : List Char)
    (b : Reader Shared Draft Symbol) (t : Regex Symbol) (s : Course Shared) : Prop :=
  ∃ r, At p start cs s 10 r ∧ s.cursor.shared = r.shared ∧ r.outer = b.outer ∧ r.inner = b.inner ∧
    r.phase = .factor t false

namespace Descent

theorem rangeEnd_reads {first : Char} (h : At p start cs s 10 r) (hshared : s.cursor.shared = r.shared)
    (hphase : r.phase = .inClass negated draft (.hyphen first)) :
    Ends rangeEnd s (fun last => ItemRead p start cs r negated draft (.between first last))
      (Fails p start cs) := by
  simp only [rangeEnd, ends_bind, ends_peek]
  cases hrest : s.cursor.rest with
  | nil =>
      refine h.ended hrest ?_
      rw [finish, hphase, h.position, hshared]
      rfl
  | cons c rest =>
      simp only [List.head?_cons]
      split
      · next hc =>
          have hmove : Move p r c _ := .range hphase hc
          refine ⟨_, h.advance hrest hmove rfl, rfl, rfl, ?_, ?_⟩ <;>
            rw [Course.cursor_advance hrest, hshared] <;> rfl
      · next hc =>
          refine h.refused hrest ?_
          simp [step, hphase, readInClass, hc, halt, h.position, hshared]

theorem item_reads (h : At p start cs s 1 r) (hshared : s.cursor.shared = r.shared)
    (hphase : r.phase = .inClass negated draft place) (hplace : place.Awaits s.cursor.rest) :
    Ends item s (ItemRead p start cs r negated draft) (Fails p start cs) := by
  have hbegun : At p start cs (s.mark (.begins .item)) 0 r := h.mark rfl Nat.zero_lt_one
  simp only [item, ends_bind, ends_mark, ends_peek, Course.cursor_mark]
  cases hrest : s.cursor.rest with
  | nil =>
      exact hbegun.unexpected_end hshared hrest (Place.Awaits.finish_eq (hrest ▸ hplace) hphase)
  | cons c rest =>
      simp only [List.head?_cons]
      split
      · next hc =>
          have hmove : Move p r c _ := .member hphase hplace.mem hc
          have hmember := hbegun.advance hrest hmove rfl
          have hsame : (s.mark (.begins .item)).advance.cursor.shared = r.shared := by
            rw [Course.cursor_advance (s := s.mark (.begins .item)) hrest]
            exact hshared
          simp only [ends_bind, ends_advance, ends_advanceIf, Course.advanceIf]
          split
          · next hhyphen =>
              obtain ⟨rest', hrest'⟩ := List.head?_eq_some_iff.mp (of_decide_eq_true hhyphen)
              rw [if_pos (of_decide_eq_true hhyphen), ends_bind]
              have hopened := hmember.advance hrest' (.hyphen rfl) rfl
              have hrange := rangeEnd_reads hopened (by rw [Course.cursor_advance hrest']; exact hsame) rfl
              exact hrange
          · next hhyphen =>
              have hlone : (s.mark (.begins .item)).advance.cursor.rest.head? ≠ some '-' := by
                simpa using hhyphen
              rw [if_neg hlone]
              refine ⟨_, hmember.settle rfl hlone, rfl, rfl, ?_, ?_⟩ <;> rw [hsame] <;> rfl
      · next hc =>
          exact hbegun.unexpected hshared hrest
            (Place.Awaits.step_eq (hrest ▸ hplace) hphase (Bool.not_eq_true _ ▸ hc))

theorem items_reads (draft : Draft) (hn : 11 * s.cursor.rest.length + 2 < n) (h : At p start cs s 10 r)
    (hshared : s.cursor.shared = r.shared) (hphase : r.phase = .inClass negated draft place)
    (hplace : place.Awaits s.cursor.rest) :
    Ends (items p negated n draft) s (ItemsRead p start cs r negated) (Fails p start cs) := by
  induction n generalizing s r place draft with
  | zero => contradiction
  | succ n ih =>
      have hturned : At p start cs (s.mark (.turns .items)) 1 r :=
        (h.mono (by decide)).mark (n := 2) rfl (by decide)
      rw [items]
      simp only [ends_bind, ends_mark, ends_ask, ends_peek]
      refine ((item_reads hturned hshared hphase hplace).and ends_item).imp
        (fun range s' hitem => ?_) fun _ _ hfails => hfails.1
      obtain ⟨⟨r', hat, houter, hinner, hphase', hshared'⟩, hless⟩ := hitem
      have hadded : At p start cs (s'.withShared (addItem p negated draft range s'.cursor.shared).2) 10 r' :=
        hat.withShared _
      split
      · next hend =>
          refine ⟨r', hadded, hshared'.symm, houter, hinner, hphase', fun c hc => ?_⟩
          have := hend.symm.trans hc
          contradiction
      · next c hhead =>
          split
          · next hc =>
              have hless : s'.cursor.rest.length < s.cursor.rest.length := hless.length_lt
              refine (ih _ ?_ hadded hshared'.symm hphase' (.item hhead hc)).imp
                (fun _ s'' hread => ?_) fun _ _ => id
              · rw [Course.rest_withShared]
                omega
              · obtain ⟨r'', hat', hsame, houter', hinner', hend⟩ := hread
                exact ⟨r'', hat', hsame, houter'.trans houter, hinner'.trans hinner, hend⟩
          · next hc =>
              refine ⟨r', hadded, hshared'.symm, houter, hinner, hphase', fun d hd => ?_⟩
              obtain rfl : c = d := Option.some.inj (hhead.symm.trans hd)
              exact Bool.not_eq_true _ ▸ hc

theorem sign_reads (h : At p start cs s 10 r) (hphase : r.phase = .inClass false draft .bracket) :
    ∃ place r', At p start cs (s.advanceIf '^') 10 r' ∧ r'.shared = r.shared ∧ r'.outer = r.outer ∧
      r'.inner = r.inner ∧ (s.advanceIf '^').cursor.shared = s.cursor.shared ∧
      r'.phase = .inClass (s.cursor.rest.head? = some '^') draft place ∧
      place.Awaits (s.advanceIf '^').cursor.rest := by
  rw [Course.advanceIf]
  split
  · next hcaret =>
      obtain ⟨rest, hrest⟩ := List.head?_eq_some_iff.mp hcaret
      refine ⟨.negation, _, h.advance hrest (.negate hphase) rfl, rfl, rfl, rfl, ?_, ?_, .negation⟩
      · rw [Course.cursor_advance hrest]
      · rw [decide_eq_true hcaret]
        rfl
  · next hcaret =>
      refine ⟨.bracket, r, h, rfl, rfl, rfl, rfl, ?_, .bracket hcaret⟩
      rw [decide_eq_false hcaret, hphase]

theorem closeClass_reads {draft : Draft} (h : ItemsRead p start cs b negated draft s) :
    Ends (expect ']' >>= fun _ => ask (p.maker.finish draft) >>= fun symbol =>
      pure (Regex.literal symbol)) s (BaseRead p start cs b) (Fails p start cs) := by
  obtain ⟨r, hat, hshared, houter, hinner, hphase, hend⟩ := h
  simp only [ends_bind, ends_expect, ends_ask, ends_pure]
  cases hrest : s.cursor.rest with
  | nil =>
      refine hat.ended hrest ?_
      rw [finish, hphase, hat.position, hshared]
      rfl
  | cons c rest =>
      simp only
      split
      · next hc =>
          subst hc
          have hmove : Move p r ']' (r.complete p draft) := .closeClass hphase
          refine ⟨_, (hat.advance hrest hmove rfl).withShared _, ?_, houter, hinner, ?_⟩ <;>
            rw [Course.cursor_advance hrest, hshared] <;> rfl
      · next hc =>
          have hmember : isMember c = false := hend c (by rw [hrest]; rfl)
          refine hat.refused hrest ?_
          simp [step, hphase, readInClass, readBehindItem, readMember, hc, hmember, Reader.unexpected,
            halt, hat.position, hshared]

theorem charClass_reads (hn : 11 * s.cursor.rest.length + 4 < n) (h : At p start cs s 4 r)
    (hshared : s.cursor.shared = r.shared) (hready : r.Ready b) {rest : List Char}
    (hrest : s.cursor.rest = '[' :: rest) :
    Ends (charClass p n) s (BaseRead p start cs b) (Fails p start cs) := by
  cases n with
  | zero => contradiction
  | succ n =>
      have hbegun : At p start cs (s.mark (.begins .charClass)) 0 r := h.mark rfl (by decide)
      have hmove : Move p r '[' (b.openClass p) := .openClass hready
      have hopened := hbegun.advance hrest hmove hready.depth
      have hsame : (s.mark (.begins .charClass)).advance.cursor.shared = b.shared := by
        rw [Course.cursor_advance (s := s.mark (.begins .charClass)) hrest, hready.shared]
        exact hshared
      have hread : s.cursor.Keeps ((s.mark (.begins .charClass)).advance.advanceIf '^').cursor :=
        (Course.keeps_advance (s.mark (.begins .charClass))).trans (Course.keeps_advanceIf _ '^')
      have hle := hread.length_le
      obtain ⟨place, r', hat, hshared', houter, hinner, hstill, hphase, hplace⟩ :=
        sign_reads hopened rfl
      have hdraft : p.maker.start ((s.mark (.begins .charClass)).advance.advanceIf '^').cursor.shared =
          p.maker.start b.shared := by rw [hstill, hsame]
      rw [charClass, ends_bind, ends_mark, ends_bind, ends_advance, ends_bind, ends_advanceIf, ends_bind,
        ends_ask, ends_bind, hdraft]
      refine (items_reads _ ?_ (hat.withShared _) hshared'.symm hphase hplace).imp
        (fun draft s' hitems => ?_) fun _ _ => id
      · rw [Course.rest_withShared]
        omega
      · obtain ⟨r'', hat', hsame', houter', hinner', hend⟩ := hitems
        have hclosing : ItemsRead p start cs b (decide _) draft s' :=
          ⟨r'', hat', hsame', houter'.trans houter, hinner'.trans hinner, hend⟩
        exact closeClass_reads hclosing

end Descent

end RegexTree.Pattern
