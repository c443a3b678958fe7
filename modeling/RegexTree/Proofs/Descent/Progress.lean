import RegexTree.Proofs.Descent.Ends

namespace RegexTree.Pattern

variable {Shared Draft Symbol α : Type}

theorem toNat_add_one {x : UInt32} (h : x.toNat + 1 < UInt32.size) : (x + 1).toNat = x.toNat + 1 := by
  rw [UInt32.toNat_add, UInt32.toNat_one]
  exact Nat.mod_eq_of_lt h

theorem saturatingPredecessor_successor {x : UInt32} (h : x.toNat + 1 < UInt32.size) :
    saturatingPredecessor (x + 1) = x := by
  have hsucc := toNat_add_one h
  have hzero : x + 1 ≠ 0 := fun h0 => by simp [h0] at hsucc
  rw [saturatingPredecessor, if_neg hzero]
  exact UInt32.add_sub_cancel x 1

namespace Cursor

variable {k k' k'' : Cursor Shared} {u v : List Char}

structure Onward (k : Cursor Shared) (u : List Char) (k' : Cursor Shared) : Prop where
  rest : k.rest = u ++ k'.rest
  position : k'.position = k.position + u.length
  depth : k'.depth = k.depth

theorem Onward.trans (h : k.Onward u k') (h' : k'.Onward v k'') : k.Onward (u ++ v) k'' where
  rest := by rw [h.rest, h'.rest, List.append_assoc]
  position := by rw [h'.position, h.position, List.length_append, Nat.add_assoc]
  depth := h'.depth.trans h.depth

def Keeps (k k' : Cursor Shared) : Prop := ∃ u, k.Onward u k'

def Gains (k k' : Cursor Shared) : Prop := ∃ u, u ≠ [] ∧ k.Onward u k'

def Roomy (k : Cursor Shared) : Prop := k.depth.toNat + k.rest.length ≤ UInt32.size

theorem Keeps.refl (k : Cursor Shared) : k.Keeps k := ⟨[], rfl, rfl, rfl⟩

theorem Gains.keeps (h : k.Gains k') : k.Keeps k' :=
  let ⟨u, _, hu⟩ := h
  ⟨u, hu⟩

theorem Keeps.trans (h : k.Keeps k') (h' : k'.Keeps k'') : k.Keeps k'' :=
  let ⟨_, hu⟩ := h
  let ⟨_, hv⟩ := h'
  ⟨_, hu.trans hv⟩

theorem Gains.trans_keeps (h : k.Gains k') (h' : k'.Keeps k'') : k.Gains k'' := by
  obtain ⟨u, hne, hu⟩ := h
  obtain ⟨v, hv⟩ := h'
  exact ⟨u ++ v, by simp [hne], hu.trans hv⟩

theorem Keeps.trans_gains (h : k.Keeps k') (h' : k'.Gains k'') : k.Gains k'' := by
  obtain ⟨u, hu⟩ := h
  obtain ⟨v, hne, hv⟩ := h'
  exact ⟨u ++ v, by simp [hne], hu.trans hv⟩

theorem Keeps.length_le (h : k.Keeps k') : k'.rest.length ≤ k.rest.length := by
  obtain ⟨u, hu⟩ := h
  rw [hu.rest, List.length_append]
  omega

theorem Gains.length_lt (h : k.Gains k') : k'.rest.length < k.rest.length := by
  obtain ⟨u, hne, hu⟩ := h
  have hpos := List.length_pos_iff.mpr hne
  rw [hu.rest, List.length_append]
  omega

theorem Roomy.keeps (h : k.Roomy) (hk : k.Keeps k') : k'.Roomy := by
  have hle := hk.length_le
  obtain ⟨u, hu⟩ := hk
  rw [Roomy] at h ⊢
  rw [hu.depth]
  omega

end Cursor

namespace Course

variable {s : Course Shared} {c : Char} {rest : List Char} {event : Event}

@[simp] theorem cursor_mark : (s.mark event).cursor = s.cursor := rfl

@[simp] theorem cursor_closeGroup :
    s.closeGroup.cursor = { s.cursor with depth := saturatingPredecessor s.cursor.depth } := rfl

@[simp] theorem rest_withShared {shared : Shared} :
    (s.withShared shared).cursor.rest = s.cursor.rest := rfl

theorem cursor_advance (h : s.cursor.rest = c :: rest) :
    s.advance.cursor = { s.cursor with rest, position := s.cursor.position + 1 } := by
  rw [advance, h]
  rfl

@[simp] theorem gains_withShared {k : Cursor Shared} {shared : Shared} :
    k.Gains (s.withShared shared).cursor ↔ k.Gains s.cursor :=
  ⟨fun ⟨u, hne, h⟩ => ⟨u, hne, h.rest, h.position, h.depth⟩,
    fun ⟨u, hne, h⟩ => ⟨u, hne, h.rest, h.position, h.depth⟩⟩

@[simp] theorem withShared_gains {k : Cursor Shared} {shared : Shared} :
    (s.withShared shared).cursor.Gains k ↔ s.cursor.Gains k :=
  ⟨fun ⟨u, hne, h⟩ => ⟨u, hne, h.rest, h.position, h.depth⟩,
    fun ⟨u, hne, h⟩ => ⟨u, hne, h.rest, h.position, h.depth⟩⟩

theorem advance_nil (h : s.cursor.rest = []) : s.advance = s := by
  rw [advance, h]

theorem gains_advance (h : s.cursor.rest = c :: rest) : s.cursor.Gains s.advance.cursor := by
  rw [cursor_advance h]
  exact ⟨[c], List.cons_ne_nil _ _, h, rfl, rfl⟩

theorem keeps_advance (s : Course Shared) : s.cursor.Keeps s.advance.cursor := by
  cases h : s.cursor.rest with
  | nil => exact (advance_nil h).symm ▸ .refl _
  | cons c rest => exact (gains_advance h).keeps

theorem keeps_advanceIf (s : Course Shared) (c : Char) : s.cursor.Keeps (s.advanceIf c).cursor := by
  rw [advanceIf]
  split
  · exact keeps_advance s
  · exact .refl _

theorem gains_closed {s₁ s₂ : Course Shared} {c d : Char} {rest rest' : List Char}
    (hroom : s.cursor.Roomy) (hrest : s.cursor.rest = c :: rest)
    (hopened : s₁.cursor = { s.cursor with
      rest, position := s.cursor.position + 1, depth := s.cursor.depth + 1 })
    (h : s₁.cursor.Gains s₂.cursor) (hclose : s₂.cursor.rest = d :: rest') :
    s.cursor.Gains s₂.advance.closeGroup.cursor := by
  obtain ⟨u, hne, hu⟩ := h
  rw [hopened] at hu
  have htext : rest = u ++ d :: rest' := hu.rest.trans (congrArg (u ++ ·) hclose)
  have hcount : s.cursor.depth.toNat + 1 < UInt32.size := by
    have hlength : s.cursor.rest.length = u.length + rest'.length + 2 := by
      rw [hrest, htext]
      simp
      omega
    rw [Cursor.Roomy] at hroom
    omega
  refine ⟨c :: u ++ [d], by simp, ?_, ?_, ?_⟩
  · simp [cursor_advance hclose, hrest, htext]
  · simp only [cursor_closeGroup, cursor_advance hclose, hu.position, List.length_append,
      List.length_cons, List.length_nil]
    omega
  · simp only [cursor_closeGroup, cursor_advance hclose, hu.depth,
      saturatingPredecessor_successor hcount]

end Course

namespace Descent

open Course Cursor

variable {p : Parser Shared Draft Symbol} {s : Course Shared} {n : Nat}

def Runs (more : Nat) (d : Nat → Descent Shared α) (R : Cursor Shared → Cursor Shared → Prop)
    (n : Nat) : Prop :=
  ∀ s : Course Shared, 11 * s.cursor.rest.length + more < n → s.cursor.Roomy →
    Ends (d n) s (fun _ s' => R s.cursor s'.cursor) (fun _ _ => True)

theorem ends_rangeEnd :
    Ends rangeEnd s (fun _ s' => s.cursor.Gains s'.cursor) (fun _ _ => True) := by
  simp only [rangeEnd, ends_bind, ends_peek]
  cases hrest : s.cursor.rest with
  | nil => trivial
  | cons c rest =>
      simp only [List.head?_cons]
      split
      · exact gains_advance hrest
      · trivial

theorem ends_item : Ends item s (fun _ s' => s.cursor.Gains s'.cursor) (fun _ _ => True) := by
  simp only [item, ends_bind, ends_mark, ends_peek, cursor_mark]
  cases hrest : s.cursor.rest with
  | nil => trivial
  | cons c rest =>
      have hfirst := gains_advance (s := s.mark (.begins .item)) hrest
      have hbehind := hfirst.trans_keeps (keeps_advanceIf _ '-')
      simp only [List.head?_cons]
      split
      · simp only [ends_bind, ends_advance, ends_advanceIf]
        split
        · rw [ends_bind]
          exact ends_rangeEnd.imp (fun _ _ hend => hbehind.trans_keeps hend.keeps) fun _ _ _ => trivial
        · exact hbehind
      · trivial

theorem ends_items (p : Parser Shared Draft Symbol) (negated : Bool) (draft : Draft)
    (s : Course Shared) (hn : 11 * s.cursor.rest.length + 2 < n) :
    Ends (items p negated n draft) s (fun _ s' => s.cursor.Gains s'.cursor) (fun _ _ => True) := by
  induction n generalizing s draft with
  | zero => contradiction
  | succ n ih =>
      rw [items]
      simp only [ends_bind, ends_mark, ends_ask, ends_peek]
      refine ends_item.imp (fun range s' hitem => ?_) fun _ _ _ => trivial
      generalize p.maker.edit draft _ s'.cursor.shared = made
      split
      · exact gains_withShared.mpr hitem
      · split
        · have hless : s'.cursor.rest.length < s.cursor.rest.length := hitem.length_lt
          have hrest : 11 * (s'.withShared made.2).cursor.rest.length + 2 < n := by
            rw [rest_withShared]
            omega
          refine (ih made.1 _ hrest).imp (fun _ _ hend => ?_) fun _ _ _ => trivial
          exact hitem.trans_keeps (withShared_gains.mp hend).keeps
        · exact gains_withShared.mpr hitem

theorem ends_charClass (p : Parser Shared Draft Symbol) (s : Course Shared)
    (hn : 11 * s.cursor.rest.length + 4 < n) :
    Ends (charClass p n) s (fun _ s' => s.cursor.Gains s'.cursor) (fun _ _ => True) := by
  cases n with
  | zero => contradiction
  | succ n =>
      have hread : s.cursor.Keeps ((s.mark (.begins .charClass)).advance.advanceIf '^').cursor :=
        (keeps_advance (s.mark (.begins .charClass))).trans (keeps_advanceIf _ '^')
      have hle := hread.length_le
      rw [charClass]
      simp only [ends_bind, ends_mark, ends_advance, ends_advanceIf, ends_ask, ends_expect, ends_pure]
      refine (ends_items p _ _ _ ?_).imp (fun draft s' hitems => ?_) fun _ _ _ => trivial
      · rw [rest_withShared]
        omega
      · split
        · trivial
        · split
          · have hclass := hread.trans_gains (withShared_gains.mp hitems)
            exact gains_withShared.mpr (hclass.trans_keeps (keeps_advance s'))
          · trivial

theorem ends_expression_nil (h : s.cursor.rest = []) :
    Ends (expression p (n + 4)) s (fun _ _ => False) (fun _ _ => True) := by
  rw [expression, concatenation, factor, base]
  simp [h]

theorem group_runs (h : Runs 8 (expression p) Gains n) : Runs 4 (group p) Gains (n + 1) := by
  intro s hn hroom
  rw [group]
  simp only [ends_bind, ends_mark, ends_openGroup, ends_advance, ends_expect, ends_closeGroup,
    ends_pure]
  split
  · cases hrest : s.cursor.rest with
    | nil =>
        -- No base leads here, but a call may start anywhere. The expression then finds nothing to read.
        have hnone : (s.mark (.begins .group)).openGroup.advance.cursor.rest = [] := by
          rw [advance_nil (s := (s.mark (.begins .group)).openGroup) hrest]
          exact hrest
        obtain ⟨m, rfl⟩ : ∃ m, n = m + 4 := Nat.exists_eq_add_of_le' (by omega)
        exact (ends_expression_nil hnone).imp (fun _ _ => False.elim) fun _ _ _ => trivial
    | cons c rest =>
        have hlength : s.cursor.rest.length = rest.length + 1 := by rw [hrest, List.length_cons]
        have hopened : (s.mark (.begins .group)).openGroup.advance.cursor = { s.cursor with
            rest, position := s.cursor.position + 1, depth := s.cursor.depth + 1 } :=
          cursor_advance hrest
        refine (h _ ?_ ?_).imp (fun t s' hinner => ?_) fun _ _ _ => trivial
        · rw [hopened]
          simp only
          omega
        · have hmost : (s.cursor.depth + 1).toNat ≤ s.cursor.depth.toNat + 1 := Nat.mod_le _ _
          rw [Roomy] at hroom
          rw [hopened, Roomy]
          simp only
          omega
        · split
          · trivial
          · next hclose =>
              split
              · exact gains_closed hroom hrest hopened hinner hclose
              · trivial
  · trivial

theorem base_runs (h : Runs 4 (group p) Gains n) : Runs 5 (base p) Gains (n + 1) := by
  intro s hn hroom
  rw [base]
  simp only [ends_bind, ends_mark, ends_peek, cursor_mark]
  cases hrest : s.cursor.rest with
  | nil => trivial
  | cons c rest =>
      simp only [List.head?_cons]
      split
      · exact h (s.mark (.begins .base)) (Nat.lt_of_succ_lt_succ hn) hroom
      · split
        · exact ends_charClass p (s.mark (.begins .base)) (Nat.lt_of_succ_lt_succ hn)
        · split
          · have hread := gains_advance (s := s.mark (.begins .base)) hrest
            simp only [literal, ends_bind, ends_advance, ends_ask, ends_pure, gains_withShared]
            exact hread
          · trivial

theorem factor_runs (h : Runs 5 (base p) Gains n) : Runs 6 (factor p) Gains (n + 1) := by
  intro s hn hroom
  rw [factor]
  simp only [ends_bind, ends_mark, ends_peek]
  refine (h (s.mark (.begins .factor)) (Nat.lt_of_succ_lt_succ hn) hroom).imp (fun t s' hbase => ?_)
    fun _ _ _ => trivial
  split
  · exact hbase
  · split
    · exact hbase.trans_keeps (keeps_advance s')
    · split
      · exact hbase
      · trivial

theorem factors_runs (hfactor : Runs 6 (factor p) Gains n)
    (hfactors : ∀ t, Runs 10 (fun n => factors p n t) Keeps n) (t : Regex Symbol) :
    Runs 10 (fun n => factors p n t) Keeps (n + 1) := by
  intro s hn hroom
  simp only [factors, ends_bind, ends_mark, ends_peek]
  split
  · exact .refl _
  · split
    · rw [ends_bind]
      refine (hfactor (s.mark (.turns .factors)) ?_ hroom).imp (fun u s' hread => ?_) fun _ _ _ => trivial
      · rw [cursor_mark]
        omega
      · have hless : s'.cursor.rest.length < s.cursor.rest.length := hread.length_lt
        exact (hfactors _ s' (by omega) (hroom.keeps hread.keeps)).imp
          (fun _ _ hend => hread.keeps.trans hend) fun _ _ _ => trivial
    · split
      · exact .refl _
      · trivial

theorem concatenation_runs (hfactor : Runs 6 (factor p) Gains n)
    (hfactors : ∀ t, Runs 10 (fun n => factors p n t) Keeps n) :
    Runs 7 (concatenation p) Gains (n + 1) := by
  intro s hn hroom
  rw [concatenation]
  simp only [ends_bind, ends_mark]
  refine (hfactor (s.mark (.begins .concatenation)) (Nat.lt_of_succ_lt_succ hn) hroom).imp
    (fun t s' hread => ?_) fun _ _ _ => trivial
  have hless : s'.cursor.rest.length < s.cursor.rest.length := hread.length_lt
  exact (hfactors t s' (by omega) (hroom.keeps hread.keeps)).imp
    (fun _ _ hend => hread.trans_keeps hend) fun _ _ _ => trivial

theorem alternatives_runs (hconcatenation : Runs 7 (concatenation p) Gains n)
    (halternatives : ∀ t, Runs 9 (fun n => alternatives p n t) Keeps n) (t : Regex Symbol) :
    Runs 9 (fun n => alternatives p n t) Keeps (n + 1) := by
  intro s hn hroom
  simp only [alternatives, ends_bind, ends_mark, ends_peek, cursor_mark]
  cases hrest : s.cursor.rest with
  | nil => exact .refl _
  | cons c rest =>
      have hbar := gains_advance (s := s.mark (.turns .alternatives)) hrest
      have hshorter : (s.mark (.turns .alternatives)).advance.cursor.rest.length <
        s.cursor.rest.length := hbar.length_lt
      simp only [List.head?_cons]
      split
      · simp only [ends_bind, ends_advance]
        refine (hconcatenation _ (by omega) (hroom.keeps hbar.keeps)).imp (fun u s' hinner => ?_)
          fun _ _ _ => trivial
        have hread := hbar.trans_keeps hinner.keeps
        have hless : s'.cursor.rest.length < s.cursor.rest.length := hread.length_lt
        exact (halternatives _ s' (by omega) (hroom.keeps hread.keeps)).imp
          (fun _ _ hend => hread.keeps.trans hend) fun _ _ _ => trivial
      · split
        · exact .refl _
        · trivial

theorem expression_runs (hconcatenation : Runs 7 (concatenation p) Gains n)
    (halternatives : ∀ t, Runs 9 (fun n => alternatives p n t) Keeps n) :
    Runs 8 (expression p) Gains (n + 1) := by
  intro s hn hroom
  rw [expression]
  simp only [ends_bind, ends_mark]
  refine (hconcatenation (s.mark (.begins .expression)) (Nat.lt_of_succ_lt_succ hn) hroom).imp
    (fun t s' hread => ?_) fun _ _ _ => trivial
  have hless : s'.cursor.rest.length < s.cursor.rest.length := hread.length_lt
  exact (halternatives t s' (by omega) (hroom.keeps hread.keeps)).imp
    (fun _ _ hend => hread.trans_keeps hend) fun _ _ _ => trivial

structure AllRun (p : Parser Shared Draft Symbol) (n : Nat) : Prop where
  expression : Runs 8 (expression p) Gains n
  alternatives : ∀ t, Runs 9 (fun n => alternatives p n t) Keeps n
  concatenation : Runs 7 (concatenation p) Gains n
  factors : ∀ t, Runs 10 (fun n => factors p n t) Keeps n
  factor : Runs 6 (factor p) Gains n
  base : Runs 5 (base p) Gains n
  group : Runs 4 (group p) Gains n

theorem allRun (p : Parser Shared Draft Symbol) (n : Nat) : AllRun p n := by
  induction n with
  | zero => constructor <;> intros <;> intro _ hn <;> contradiction
  | succ n ih =>
      exact {
        expression := expression_runs ih.concatenation ih.alternatives
        alternatives := alternatives_runs ih.concatenation ih.alternatives
        concatenation := concatenation_runs ih.factor ih.factors
        factors := factors_runs ih.factor ih.factors
        factor := factor_runs ih.base
        base := base_runs ih.group
        group := group_runs ih.expression }

theorem ends_call (p : Parser Shared Draft Symbol) (routine : Routine) (s : Course Shared)
    (hn : s.cursor.fuel ≤ n) (hroom : s.cursor.Roomy) :
    Ends (call p n routine) s (fun _ s' => s.cursor.Gains s'.cursor) (fun _ _ => True) := by
  have hruns := allRun p n
  rw [Cursor.fuel] at hn
  cases routine with
  | expression => exact ends_discard (hruns.expression s (by omega) hroom)
  | concatenation => exact ends_discard (hruns.concatenation s (by omega) hroom)
  | factor => exact ends_discard (hruns.factor s (by omega) hroom)
  | base => exact ends_discard (hruns.base s (by omega) hroom)
  | group => exact ends_discard (hruns.group s (by omega) hroom)
  | charClass => exact ends_discard (ends_charClass p s (by omega))
  | item => exact ends_discard ends_item

end Descent

end RegexTree.Pattern
