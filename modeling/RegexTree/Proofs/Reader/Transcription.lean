import RegexTree.Proofs.Reader.Run

namespace RegexTree.Pattern

variable {Shared Shared' Draft Draft' Symbol Symbol' α β γ δ : Type}

namespace Expression

def map (f : α → β) (e : Expression α) : Expression β where
  alternatives := e.alternatives.map (List.map (Regex.map f))
  factors := e.factors.map (Regex.map f)

variable (f : α → β) (e : Expression α) (t : Regex α)

@[simp] theorem map_push : (e.push t).map f = (e.map f).push (t.map f) := rfl

@[simp] theorem map_split : e.split.map f = (e.map f).split := by
  simp [map, split]

@[simp] theorem toAlternatives_map :
    (e.map f).toAlternatives = e.toAlternatives.map (List.map (Regex.map f)) := by
  rw [toAlternatives, ← map_split]
  simp [map, toAlternatives]

@[simp] theorem tree_map : (e.map f).tree = e.tree.map f := by
  rw [tree, toAlternatives_map, tree, Regex.map_ofAlternatives]

end Expression

inductive SameOutcome (k : Nat) (R : α → β → Prop) :
    Except (Halt Shared) α → Except (Halt Shared') β → Prop
  | ok {a b} : R a b → SameOutcome k R (.ok a) (.ok b)
  | error {halt halt'} : halt.error.shift k = halt'.error → SameOutcome k R (.error halt) (.error halt')

namespace SameOutcome

variable {k : Nat} {R : α → β → Prop} {Q : γ → δ → Prop} {x : Except (Halt Shared) α}
  {y : Except (Halt Shared') β}

theorem bind {f : α → Except (Halt Shared) γ} {g : β → Except (Halt Shared') δ}
    (h : SameOutcome k R x y) (hnext : ∀ a b, R a b → SameOutcome k Q (f a) (g b)) :
    SameOutcome k Q (x.bind f) (y.bind g) := by
  cases h with
  | ok hab => exact hnext _ _ hab
  | error herror => exact .error herror

theorem map {f : α → γ} {g : β → δ} (h : SameOutcome k R x y)
    (hmap : ∀ a b, R a b → Q (f a) (g b)) : SameOutcome k Q (x.map f) (y.map g) := by
  cases h with
  | ok hab => exact .ok (hmap _ _ hab)
  | error herror => exact .error herror

theorem readAll {p : Parser Shared Draft Symbol} {p' : Parser Shared' Draft' Symbol'}
    {R : Reader Shared Draft Symbol → Reader Shared' Draft' Symbol' → Prop}
    (hadvance : ∀ r q c, R r q → SameOutcome k R (r.advance p c) (q.advance p' c))
    {r : Reader Shared Draft Symbol} {q : Reader Shared' Draft' Symbol'} (h : R r q) (cs : List Char) :
    SameOutcome k R (r.readAll p cs) (q.readAll p' cs) := by
  induction cs generalizing r q with
  | nil => exact .ok h
  | cons c cs ih =>
      rw [Reader.readAll_cons, Reader.readAll_cons]
      exact (hadvance r q c h).bind fun _ _ hnext => ih hnext

end SameOutcome

inductive Phase.Renders (symbol : List Edit → Symbol) (made : Draft → List Edit → Prop) :
    Phase Draft Symbol → Phase (List Edit) (List Edit) → Prop
  | base : Renders symbol made .base .base
  | factor (t starred) : Renders symbol made (.factor (t.map symbol) starred) (.factor t starred)
  | inClass (negated place) {draft edits} : made draft edits →
      Renders symbol made (.inClass negated draft place) (.inClass negated edits place)

namespace Reader

structure Renders (symbol : List Edit → Symbol) (made : Draft → List Edit → Prop)
    (r : Reader Shared Draft Symbol) (q : Reader Unit (List Edit) (List Edit)) : Prop where
  position : r.position = q.position
  depth : r.depth = q.depth
  outer : r.outer = q.outer.map (Expression.map symbol)
  inner : r.inner = q.inner.map symbol
  phase : Phase.Renders symbol made r.phase q.phase

variable {p : Parser Shared Draft Symbol} {symbol : List Edit → Symbol}
  {made : Draft → List Edit → Prop} {r : Reader Shared Draft Symbol}
  {q : Reader Unit (List Edit) (List Edit)} {c : Char}

namespace Renders

theorem unexpected {R : α → β → Prop} (h : r.Renders symbol made q) (c : Char) :
    SameOutcome 0 R (r.unexpected c) (q.unexpected c) :=
  .error (by rw [h.position]; rfl)

theorem mayOpen (h : r.Renders symbol made q) :
    r.mayOpen p = q.mayOpen (.transcribing p.limit) := by
  rw [Reader.mayOpen, Reader.mayOpen, h.depth]
  rfl

theorem openGroup (h : r.Renders symbol made q) : r.openGroup.Renders symbol made q.openGroup where
  position := h.position
  depth := congrArg (· + 1) h.depth
  outer := by simp [Reader.openGroup, h.outer, h.inner]
  inner := rfl
  phase := .base

theorem onward (h : r.Renders symbol made q) : r.onward.Renders symbol made q.onward where
  position := congrArg (· + 1) h.position
  depth := h.depth
  outer := h.outer
  inner := h.inner
  phase := h.phase

theorem at_phase {phase : Phase Draft Symbol} {phase' : Phase (List Edit) (List Edit)}
    (h : r.Renders symbol made q) (shared : Shared) (hphase : phase.Renders symbol made phase') :
    Renders symbol made { r with shared, phase } { q with phase := phase' } where
  position := h.position
  depth := h.depth
  outer := h.outer
  inner := h.inner
  phase := hphase

theorem with_shared (h : r.Renders symbol made q) (shared : Shared) :
    Renders symbol made { r with shared } q :=
  h.at_phase shared h.phase

theorem push {t : Regex (List Edit)} (h : r.Renders symbol made q) :
    Renders symbol made { r with inner := r.inner.push (t.map symbol) }
      { q with inner := q.inner.push t } where
  position := h.position
  depth := h.depth
  outer := h.outer
  inner := by rw [h.inner, Expression.map_push]
  phase := h.phase

theorem openClass (hm : p.maker.Determined symbol made) (h : r.Renders symbol made q) :
    (r.openClass p).Renders symbol made (q.openClass (.transcribing p.limit)) :=
  h.at_phase _ (.inClass _ _ (hm.start r.shared))

theorem complete (hm : p.maker.Determined symbol made) (h : r.Renders symbol made q) {draft : Draft}
    {edits : List Edit} (hdraft : made draft edits) :
    (r.complete p draft).Renders symbol made (q.complete (.transcribing p.limit) edits) := by
  refine h.at_phase _ ?_
  rw [hm.finish draft edits r.shared hdraft]
  exact .factor (.literal edits) false

theorem made_addItem (hm : p.maker.Determined symbol made) {draft : Draft} {edits : List Edit}
    (hdraft : made draft edits) (negated : Bool) (item : CodePointRange) (shared : Shared) :
    made (addItem p negated draft item shared).1
      (addItem (Parser.transcribing p.limit) negated edits item ()).1 :=
  hm.edit draft edits _ shared hdraft

theorem literal (hm : p.maker.Determined symbol made) (h : r.Renders symbol made q) (c : Char) :
    (r.literal p c).Renders symbol made (q.literal (.transcribing p.limit) c) := by
  have hdraft := made_addItem hm (hm.start r.shared) false (.single c) (p.maker.start r.shared).2
  exact (h.with_shared _).complete hm hdraft

theorem readBase (hm : p.maker.Determined symbol made) (h : r.Renders symbol made q) :
    SameOutcome 0 (Renders symbol made) (r.readBase p c) (q.readBase (.transcribing p.limit) c) := by
  rw [Reader.readBase, Reader.readBase, h.mayOpen (p := p), h.position]
  split
  · split
    · exact .ok h.openGroup
    · exact .error rfl
  · split
    · exact .ok (h.openClass hm)
    · split
      · exact .ok (h.literal hm c)
      · exact h.unexpected c

theorem closeGroup (h : r.Renders symbol made q) (t : Regex (List Edit)) :
    SameOutcome 0 (Renders symbol made) (r.closeGroup (t.map symbol)) (q.closeGroup t) := by
  have houter := h.outer
  rw [Reader.closeGroup, Reader.closeGroup]
  cases hq : q.outer with
  | nil =>
      rw [hq] at houter
      rw [houter]
      exact h.unexpected ')'
  | cons e outer =>
      rw [hq] at houter
      rw [houter]
      refine .ok ⟨h.position, congrArg (· - 1) h.depth, rfl, rfl, ?_⟩
      rw [h.inner, ← Expression.map_push, Expression.tree_map]
      exact .factor _ false

theorem readBehindFactor (hm : p.maker.Determined symbol made) (h : r.Renders symbol made q)
    (t : Regex (List Edit)) (starred : Bool) :
    SameOutcome 0 (Renders symbol made) (r.readBehindFactor p (t.map symbol) starred c)
      (q.readBehindFactor (.transcribing p.limit) t starred c) := by
  rw [Reader.readBehindFactor, Reader.readBehindFactor]
  split
  · exact .ok (h.at_phase _ (.factor (.star t) true))
  · split
    · refine .ok ⟨h.position, h.depth, h.outer, ?_, .base⟩
      rw [h.inner, ← Expression.map_push, ← Expression.map_split]
    · split
      · exact h.closeGroup t
      · split
        · exact h.push.readBase hm
        · exact h.unexpected c

theorem readMember (h : r.Renders symbol made q) (negated : Bool) {draft : Draft}
    {edits : List Edit} (hdraft : made draft edits) :
    SameOutcome 0 (Renders symbol made) (r.readMember negated draft c) (q.readMember negated edits c) := by
  rw [Reader.readMember, Reader.readMember]
  split
  · exact .ok (h.at_phase _ (.inClass negated _ hdraft))
  · exact h.unexpected c

theorem readBehindItem (hm : p.maker.Determined symbol made) (h : r.Renders symbol made q)
    (negated : Bool) {draft : Draft} {edits : List Edit} (hdraft : made draft edits) :
    SameOutcome 0 (Renders symbol made) (r.readBehindItem p negated draft c)
      (q.readBehindItem (.transcribing p.limit) negated edits c) := by
  rw [Reader.readBehindItem, Reader.readBehindItem]
  split
  · exact .ok (h.complete hm hdraft)
  · exact h.readMember negated hdraft

theorem readInClass (hm : p.maker.Determined symbol made) (h : r.Renders symbol made q)
    (negated : Bool) {draft : Draft} {edits : List Edit} (hdraft : made draft edits)
    (place : Place) :
    SameOutcome 0 (Renders symbol made) (r.readInClass p negated draft place c)
      (q.readInClass (.transcribing p.limit) negated edits place c) := by
  cases place with
  | bracket =>
      simp only [Reader.readInClass]
      split
      · exact .ok (h.at_phase _ (.inClass true .negation hdraft))
      · exact h.readMember negated hdraft
  | negation => exact h.readMember negated hdraft
  | member first =>
      simp only [Reader.readInClass]
      split
      · exact .ok (h.at_phase _ (.inClass negated (.hyphen first) hdraft))
      · have hsettled := made_addItem hm hdraft negated (.single first) r.shared
        exact (h.with_shared _).readBehindItem hm negated hsettled
  | hyphen first =>
      simp only [Reader.readInClass]
      split
      · exact .ok (h.at_phase _
          (.inClass negated .item (made_addItem hm hdraft negated (.between first c) _)))
      · exact .error (by rw [h.position]; rfl)
  | item => exact h.readBehindItem hm negated hdraft

theorem step (hm : p.maker.Determined symbol made) (h : r.Renders symbol made q) (c : Char) :
    SameOutcome 0 (Renders symbol made) (r.step p c) (q.step (.transcribing p.limit) c) := by
  have hphase := h.phase
  rw [Reader.step, Reader.step]
  generalize r.phase = phase at hphase
  generalize q.phase = phase' at hphase
  cases hphase with
  | base => exact h.readBase hm
  | factor t starred => exact h.readBehindFactor hm t starred
  | inClass negated place hdraft => exact h.readInClass hm negated hdraft place

theorem advance (hm : p.maker.Determined symbol made) (h : r.Renders symbol made q) (c : Char) :
    SameOutcome 0 (Renders symbol made) (r.advance p c) (q.advance (.transcribing p.limit) c) :=
  (h.step hm c).map fun _ _ hnext => hnext.onward

theorem finish (h : r.Renders symbol made q) :
    SameOutcome 0 (fun a b => a.1 = b.1.map (List.map (Regex.map symbol))) (r.finish p)
      (q.finish (.transcribing p.limit)) := by
  have hphase := h.phase
  rw [Reader.finish, Reader.finish]
  generalize r.phase = phase at hphase
  generalize q.phase = phase' at hphase
  cases hphase with
  | base => exact h.unexpected endOfInput
  | factor t starred =>
      simp only [h.outer, List.isEmpty_map]
      split
      · refine .ok ?_
        rw [h.inner, ← Expression.map_push, Expression.toAlternatives_map]
      · exact .error (by rw [h.position]; rfl)
  | inClass negated place hdraft =>
      refine .error ?_
      cases place <;> simp [finishClass, h.position]

end Renders

end Reader

end Pattern

namespace Parser

open Pattern

variable {Shared Draft Symbol : Type} {p : Parser Shared Draft Symbol} {symbol : List Edit → Symbol}
  {made : Draft → List Edit → Prop}

theorem alternatives_transcribed (hm : p.maker.Determined symbol made) (shared : Shared)
    (cs : List Char) :
    SameOutcome 0 (fun a b => a.1 = b.1.map (List.map (Regex.map symbol))) (p.alternatives shared cs)
      ((transcribing p.limit).alternatives () cs) := by
  have hstart : ({ shared } : Reader Shared Draft Symbol).Renders symbol made { shared := () } :=
    ⟨rfl, rfl, rfl, rfl, .base⟩
  have hread := SameOutcome.readAll (fun _ _ c h => h.advance hm c) hstart cs
  exact hread.bind fun _ _ h => h.finish

theorem read_transcribed (hm : p.maker.Determined symbol made) (shared : Shared) (cs : List Char) :
    (p.read shared cs).1 = ((transcribing p.limit).read () cs).1.map (Regex.map symbol) := by
  rw [read, read]
  split
  · rfl
  · split
    · rfl
    · have hagree := alternatives_transcribed hm shared cs
      generalize p.alternatives shared cs = x at hagree
      generalize (transcribing p.limit).alternatives () cs = y at hagree
      cases hagree with
      | ok h => simp [Except.map, h, Regex.map_ofAlternatives]
      | error h =>
          rw [ParseError.shift_zero] at h
          simp [Except.map, h]

variable {Shared' Draft' Symbol' : Type} {m : SymbolMaker Shared Draft Symbol}
  {m' : SymbolMaker Shared' Draft' Symbol'} {symbol' : List Edit → Symbol'}
  {made' : Draft' → List Edit → Prop}

theorem read_of_determined (hm : m.Determined symbol made) (hm' : m'.Determined symbol' made')
    (limit : Option Nat) (shared : Shared) (shared' : Shared') (cs : List Char) :
    ((Parser.mk m limit).read shared cs).1 =
        ((transcribing limit).read () cs).1.map (Regex.map symbol) ∧
      ((∃ e, ((Parser.mk m limit).read shared cs).1 = .error e ∧
          ((Parser.mk m' limit).read shared' cs).1 = .error e) ∨
        ∃ t : Regex (List Edit), ((transcribing limit).read () cs).1 = .ok t ∧
          ((Parser.mk m limit).read shared cs).1 = .ok (t.map symbol) ∧
          ((Parser.mk m' limit).read shared' cs).1 = .ok (t.map symbol')) := by
  have hread := read_transcribed (p := ⟨m, limit⟩) hm shared cs
  have hread' := read_transcribed (p := ⟨m', limit⟩) hm' shared' cs
  refine ⟨hread, ?_⟩
  rw [hread, hread']
  cases ((transcribing limit).read () cs).1 with
  | ok t => exact .inr ⟨t, rfl, rfl, rfl⟩
  | error e => exact .inl ⟨e, rfl, rfl⟩

theorem read_of_determined_by_counting :
    CodePointSet.maker.Determined CodePointSet.ofEdits
        (fun draft edits => draft = edits.foldl CodePointSet.Draft.edit {}) ∧
      (SymbolMaker.ofFold 0 (fun n _ => n + 1) id).Determined
        (fun edits => id (edits.foldl (fun n _ => n + 1) 0))
        (fun draft edits => draft = edits.foldl (fun n _ => n + 1) 0) ∧
      ∃ t : Regex (List Edit),
        t.literals = [[.excluding [.between 'b' 'd'], .excluding [.between 'z' 'y']],
          [.including [.single 'a']], [.including [.single 'ε']]] ∧
        ((Parser.mk CodePointSet.maker (some 1)).read () "([^b-dz-y]a)*|ε".toList).1 =
          .ok (t.map CodePointSet.ofEdits) ∧
        ((Parser.mk (.ofFold 0 (fun n _ => n + 1) id) (some 1)).read () "([^b-dz-y]a)*|ε".toList).1 =
          .ok (t.map fun edits => id (edits.foldl (fun n _ => n + 1) 0)) := by
  have hset := SymbolMaker.determined_ofFold {} CodePointSet.Draft.edit CodePointSet.Draft.finish
  have hcount := SymbolMaker.determined_ofFold 0 (fun n _ => n + 1) (id : Nat → Nat)
  rcases (read_of_determined hset hcount (some 1) () () "([^b-dz-y]a)*|ε".toList).2 with
    ⟨e, -, he⟩ | ⟨t, ht, hread, hread'⟩
  · contradiction
  · cases ht
    exact ⟨hset, hcount, _, rfl, hread, hread'⟩

end Parser

end RegexTree
