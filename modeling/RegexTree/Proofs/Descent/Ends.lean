import RegexTree.Pattern.Descent

namespace RegexTree.Pattern.Descent

variable {Shared Draft Symbol α β : Type} {p : Parser Shared Draft Symbol} {s s' : Course Shared}
  {d : Descent Shared α} {a : α} {e : ParseError} {c : Char}

def Ends (d : Descent Shared α) (s : Course Shared) (Q : α → Course Shared → Prop)
    (E : ParseError → Course Shared → Prop) : Prop :=
  match d.run.run s with
  | none => False
  | some (.ok a, s') => Q a s'
  | some (.error e, s') => E e s'

section

variable {Q Q' : α → Course Shared → Prop} {E E' : ParseError → Course Shared → Prop}

theorem ends_of_ok (h : d.run.run s = some (.ok a, s')) : Ends d s Q E ↔ Q a s' := by
  rw [Ends, h]

theorem ends_of_error (h : d.run.run s = some (.error e, s')) : Ends d s Q E ↔ E e s' := by
  rw [Ends, h]

theorem Ends.exists_outcome (h : Ends d s Q E) :
    (∃ a s', d.run.run s = some (.ok a, s') ∧ Q a s') ∨
      ∃ e s', d.run.run s = some (.error e, s') ∧ E e s' := by
  rw [Ends] at h
  split at h
  · contradiction
  · next a s' hrun => exact .inl ⟨a, s', hrun, h⟩
  · next e s' hrun => exact .inr ⟨e, s', hrun, h⟩

theorem Ends.imp (h : Ends d s Q E) (hq : ∀ a s', Q a s' → Q' a s')
    (he : ∀ e s', E e s' → E' e s') : Ends d s Q' E' := by
  rcases h.exists_outcome with ⟨a, s', hrun, hend⟩ | ⟨e, s', hrun, hend⟩
  · exact (ends_of_ok hrun).mpr (hq a s' hend)
  · exact (ends_of_error hrun).mpr (he e s' hend)

theorem Ends.and (h : Ends d s Q E) (h' : Ends d s Q' E') :
    Ends d s (fun a s' => Q a s' ∧ Q' a s') (fun e s' => E e s' ∧ E' e s') := by
  rcases h.exists_outcome with ⟨a, s', hrun, hend⟩ | ⟨e, s', hrun, hend⟩
  · exact (ends_of_ok hrun).mpr ⟨hend, (ends_of_ok hrun).mp h'⟩
  · exact (ends_of_error hrun).mpr ⟨hend, (ends_of_error hrun).mp h'⟩

@[simp] theorem ends_pure : Ends (pure a) s Q E ↔ Q a s := Iff.rfl

theorem ends_of_none (h : d.run.run s = none) : ¬ Ends d s Q E := by
  rw [Ends, h]
  exact id

theorem run_bind_of_ok {d : Descent Shared β} {f : β → Descent Shared α} {b : β}
    (h : d.run.run s = some (.ok b, s')) : (d >>= f).run.run s = (f b).run.run s' := by
  simp only [ExceptT.run_bind, StateT.run_bind, h, Option.bind_eq_bind, Option.bind_some]

theorem run_bind_of_error {d : Descent Shared β} {f : β → Descent Shared α}
    (h : d.run.run s = some (.error e, s')) : (d >>= f).run.run s = some (.error e, s') := by
  simp only [ExceptT.run_bind, StateT.run_bind, h, Option.bind_eq_bind, Option.bind_some]
  rfl

theorem run_bind_of_none {d : Descent Shared β} {f : β → Descent Shared α}
    (h : d.run.run s = none) : (d >>= f).run.run s = none := by
  simp only [ExceptT.run_bind, StateT.run_bind, h, Option.bind_eq_bind, Option.bind_none]

@[simp] theorem ends_bind {d : Descent Shared β} {f : β → Descent Shared α} :
    Ends (d >>= f) s Q E ↔ Ends d s (fun b s' => Ends (f b) s' Q E) E := by
  rcases hrun : d.run.run s with _ | ⟨e | b, s'⟩
  · exact iff_of_false (ends_of_none (run_bind_of_none hrun)) (ends_of_none hrun)
  · rw [ends_of_error hrun, ends_of_error (run_bind_of_error hrun)]
  · rw [ends_of_ok hrun, Ends, run_bind_of_ok hrun, Ends]

theorem ends_discard {Q : Unit → Course Shared → Prop} (h : Ends d s (fun _ s' => Q () s') E) :
    Ends (discard d) s Q E :=
  ends_bind.mpr h

@[simp] theorem ends_unexpected :
    Ends unexpected s Q E ↔
      E (.unexpected (s.cursor.rest.head?.getD endOfInput) s.cursor.position) s :=
  Iff.rfl

@[simp] theorem ends_ask {call : Shared → α × Shared} :
    Ends (ask call) s Q E ↔
      Q (call s.cursor.shared).1 (s.withShared (call s.cursor.shared).2) :=
  Iff.rfl

end

section

variable {E : ParseError → Course Shared → Prop}

@[simp] theorem ends_see {Q : Cursor Shared → Course Shared → Prop} :
    Ends see s Q E ↔ Q s.cursor s := Iff.rfl

@[simp] theorem ends_peek {Q : Option Char → Course Shared → Prop} :
    Ends peek s Q E ↔ Q s.cursor.rest.head? s := Iff.rfl

variable {Q : Unit → Course Shared → Prop}

@[simp] theorem ends_mark {event : Event} : Ends (mark event) s Q E ↔ Q () (s.mark event) := Iff.rfl

@[simp] theorem ends_advance : Ends advance s Q E ↔ Q () s.advance := Iff.rfl

@[simp] theorem ends_closeGroup : Ends closeGroup s Q E ↔ Q () s.closeGroup := Iff.rfl

@[simp] theorem ends_openGroup :
    Ends (openGroup p) s Q E ↔
      if s.cursor.mayOpen p then Q () s.openGroup else E (.tooDeep s.cursor.position) s := by
  rw [openGroup, ends_bind, ends_see]
  split <;> rfl

@[simp] theorem ends_expect :
    Ends (expect c) s Q E ↔
      match s.cursor.rest with
      | [] => E (.unclosed c s.cursor.position) s
      | d :: _ => if d = c then Q () s.advance else E (.unexpected d s.cursor.position) s := by
  rw [expect, ends_bind, ends_peek]
  cases hrest : s.cursor.rest with
  | nil => rfl
  | cons d rest =>
      simp only [List.head?_cons]
      split
      · rfl
      · rw [ends_unexpected, hrest]
        rfl

@[simp] theorem ends_advanceIf {Q : Bool → Course Shared → Prop} :
    Ends (advanceIf c) s Q E ↔ Q (s.cursor.rest.head? = some c) (s.advanceIf c) := Iff.rfl

end

end RegexTree.Pattern.Descent
