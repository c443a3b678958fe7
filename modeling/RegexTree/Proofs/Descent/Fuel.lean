import RegexTree.Proofs.Descent.Progress

namespace RegexTree.Pattern.Descent

variable {Shared Draft Symbol α β : Type} {p : Parser Shared Draft Symbol} {n m : Nat}
  {d d' : Descent Shared α} {s s' : Course Shared}

def Extends (d d' : Descent Shared α) : Prop :=
  ∀ s outcome, d.run.run s = some outcome → d'.run.run s = some outcome

theorem Extends.refl (d : Descent Shared α) : Extends d d := fun _ _ h => h

theorem Extends.trans {d'' : Descent Shared α} (h : Extends d d') (h' : Extends d' d'') :
    Extends d d'' :=
  fun s outcome hrun => h' s outcome (h s outcome hrun)

theorem starve_extends (d : Descent Shared α) : Extends starve d := by
  intro s outcome hrun
  contradiction

theorem Extends.bind {f f' : α → Descent Shared β} (h : Extends d d')
    (hf : ∀ a, Extends (f a) (f' a)) : Extends (d >>= f) (d' >>= f') := by
  intro s outcome hrun
  rcases hd : d.run.run s with _ | ⟨e | a, s'⟩
  · rw [run_bind_of_none hd] at hrun
    contradiction
  · rw [run_bind_of_error hd] at hrun
    rw [run_bind_of_error (h s _ hd), hrun]
  · rw [run_bind_of_ok hd] at hrun
    rw [run_bind_of_ok (h s _ hd)]
    exact hf a s' outcome hrun

theorem Extends.bind_right {d : Descent Shared α} {f f' : α → Descent Shared β}
    (hf : ∀ a, Extends (f a) (f' a)) : Extends (d >>= f) (d >>= f') :=
  (Extends.refl d).bind hf

theorem items_extends (p : Parser Shared Draft Symbol) (negated : Bool) (n : Nat) (draft : Draft) :
    Extends (items p negated n draft) (items p negated (n + 1) draft) := by
  induction n generalizing draft with
  | zero => exact starve_extends _
  | succ n ih =>
      rw [items, items]
      refine .bind_right fun _ => .bind_right fun _ => .bind_right fun draft => .bind_right fun next => ?_
      split
      · exact .refl _
      · split
        · exact ih draft
        · exact .refl _

theorem charClass_extends (p : Parser Shared Draft Symbol) (n : Nat) :
    Extends (charClass p n) (charClass p (n + 1)) := by
  cases n with
  | zero => exact starve_extends _
  | succ n =>
      rw [charClass, charClass]
      refine .bind_right fun _ => .bind_right fun _ => .bind_right fun negated => .bind_right fun draft => ?_
      exact (items_extends p negated n draft).bind fun _ => .refl _

structure AllExtend (p : Parser Shared Draft Symbol) (n : Nat) : Prop where
  expression : Extends (expression p n) (expression p (n + 1))
  alternatives : ∀ t, Extends (alternatives p n t) (alternatives p (n + 1) t)
  concatenation : Extends (concatenation p n) (concatenation p (n + 1))
  factors : ∀ t, Extends (factors p n t) (factors p (n + 1) t)
  factor : Extends (factor p n) (factor p (n + 1))
  base : Extends (base p n) (base p (n + 1))
  group : Extends (group p n) (group p (n + 1))

theorem AllExtend.expression_succ (h : AllExtend p n) :
    Extends (Descent.expression p (n + 1)) (Descent.expression p (n + 2)) := by
  rw [Descent.expression, Descent.expression]
  exact .bind_right fun _ => h.concatenation.bind h.alternatives

theorem AllExtend.alternatives_succ (h : AllExtend p n) (t : Regex Symbol) :
    Extends (Descent.alternatives p (n + 1) t) (Descent.alternatives p (n + 2) t) := by
  rw [Descent.alternatives, Descent.alternatives]
  refine .bind_right fun _ => .bind_right fun next => ?_
  split
  · exact .refl _
  · split
    · exact .bind_right fun _ => h.concatenation.bind fun _ => h.alternatives _
    · exact .refl _

theorem AllExtend.concatenation_succ (h : AllExtend p n) :
    Extends (Descent.concatenation p (n + 1)) (Descent.concatenation p (n + 2)) := by
  rw [Descent.concatenation, Descent.concatenation]
  exact .bind_right fun _ => h.factor.bind h.factors

theorem AllExtend.factors_succ (h : AllExtend p n) (t : Regex Symbol) :
    Extends (Descent.factors p (n + 1) t) (Descent.factors p (n + 2) t) := by
  rw [Descent.factors, Descent.factors]
  refine .bind_right fun _ => .bind_right fun next => ?_
  split
  · exact .refl _
  · split
    · exact h.factor.bind fun _ => h.factors _
    · exact .refl _

theorem AllExtend.factor_succ (h : AllExtend p n) :
    Extends (Descent.factor p (n + 1)) (Descent.factor p (n + 2)) := by
  rw [Descent.factor, Descent.factor]
  exact .bind_right fun _ => h.base.bind fun _ => .refl _

theorem AllExtend.base_succ (h : AllExtend p n) :
    Extends (Descent.base p (n + 1)) (Descent.base p (n + 2)) := by
  rw [Descent.base, Descent.base]
  refine .bind_right fun _ => .bind_right fun next => ?_
  split
  · exact .refl _
  · split
    · exact h.group
    · split
      · exact charClass_extends p n
      · exact .refl _

theorem AllExtend.group_succ (h : AllExtend p n) :
    Extends (Descent.group p (n + 1)) (Descent.group p (n + 2)) := by
  rw [Descent.group, Descent.group]
  exact .bind_right fun _ => .bind_right fun _ => .bind_right fun _ =>
    h.expression.bind fun _ => .refl _

theorem allExtend (p : Parser Shared Draft Symbol) (n : Nat) : AllExtend p n := by
  induction n with
  | zero => constructor <;> intros <;> exact starve_extends _
  | succ n ih =>
      exact {
        expression := ih.expression_succ
        alternatives := ih.alternatives_succ
        concatenation := ih.concatenation_succ
        factors := ih.factors_succ
        factor := ih.factor_succ
        base := ih.base_succ
        group := ih.group_succ }

theorem call_extends (p : Parser Shared Draft Symbol) (routine : Routine) (n : Nat) :
    Extends (call p n routine) (call p (n + 1) routine) := by
  have hextend := allExtend p n
  cases routine with
  | expression => exact hextend.expression.bind fun _ => .refl _
  | concatenation => exact hextend.concatenation.bind fun _ => .refl _
  | factor => exact hextend.factor.bind fun _ => .refl _
  | base => exact hextend.base.bind fun _ => .refl _
  | group => exact hextend.group.bind fun _ => .refl _
  | charClass => exact (charClass_extends p n).bind fun _ => .refl _
  | item => exact .refl _

theorem call_extends_of_le (p : Parser Shared Draft Symbol) (routine : Routine) (h : n ≤ m) :
    Extends (call p n routine) (call p m routine) := by
  induction h with
  | refl => exact .refl _
  | step _ ih => exact ih.trans (call_extends p routine _)

theorem gains_of_call {routine : Routine} (hroom : s.cursor.Roomy)
    (h : (call p n routine).run.run s = some (.ok (), s')) : s.cursor.Gains s'.cursor := by
  have hmore := call_extends_of_le p routine (Nat.le_max_left n s.cursor.fuel) s _ h
  exact (ends_of_ok hmore).mp (ends_call p routine s (Nat.le_max_right _ _) hroom)

theorem exists_outcome_of_call (p : Parser Shared Draft Symbol) (routine : Routine)
    (hroom : s.cursor.Roomy) (hn : s.cursor.fuel ≤ n) :
    ∃ result s', (call p n routine).run.run s = some (result, s') := by
  rcases (ends_call p routine s hn hroom).exists_outcome with ⟨_, s', hrun, -⟩ | ⟨_, s', hrun, -⟩ <;>
    exact ⟨_, s', hrun⟩

end RegexTree.Pattern.Descent
