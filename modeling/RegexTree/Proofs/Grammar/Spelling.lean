import Mathlib.Data.List.Chain
import RegexTree.Proofs.Grammar.Acceptance
import RegexTree.Proofs.Grammar.Building

namespace RegexTree.Pattern

namespace Item

def Parts (i j : Item) : Prop :=
  match i with
  | .member _ => j.first ≠ '-'
  | .range _ _ => True

theorem separate_iff_isChain {items : List Item} : separate items ↔ items.IsChain Parts := by
  induction items using separate.induct with
  | case1 | case2 => simp [separate]
  | case3 c j rest ih => simp [separate, List.isChain_cons_cons, Parts, ih]
  | case4 a b j rest ih => simp [separate, List.isChain_cons_cons, Parts, ih]

theorem separate_concat {items : List Item} {j : Item} :
    separate (items ++ [j]) ↔ separate items ∧ ∀ i ∈ items.getLast?, i.Parts j := by
  simp [separate_iff_isChain, List.isChain_append]

end Item

def Place.pending : Place → List Char
  | .member first => [first]
  | .hyphen first => [first, '-']
  | _ => []

def Place.Follows (negated : Bool) (items : List Item) : Place → Prop
  | .bracket => negated = false ∧ items = []
  | .negation => negated = true ∧ items = []
  | .member first | .hyphen first =>
      isMember first ∧ ∀ i ∈ items.getLast?, i.Parts (.member first)
  | .item => items ≠ [] ∧ ∀ i ∈ items.getLast?, ∀ j, i.Parts j

theorem Place.Follows.settled {place : Place} {negated : Bool} {items : List Item}
    (h : place.Follows negated items) (hplace : place ∈ [.bracket, .negation, .item]) :
    place.pending = [] ∧ ∀ i ∈ items.getLast?, ∀ j, i.Parts j := by
  simp only [List.mem_cons, List.not_mem_nil, or_false] at hplace
  rcases hplace with rfl | rfl | rfl
  · exact ⟨rfl, by simp [h.2]⟩
  · exact ⟨rfl, by simp [h.2]⟩
  · exact ⟨rfl, h.2⟩

variable {Shared Draft Symbol : Type}

structure Collects (m : SymbolMaker Shared Draft Symbol) (s : Shared) (negated : Bool)
    (items : List Item) (draft : Draft) (s' : Shared) : Prop where
  valid : ∀ i ∈ items, i.Valid
  separate : Item.separate items
  made : m.editAll (m.start s) (items.map (Item.edit negated)) = (draft, s')

inductive Enclosed (m : SymbolMaker Shared Draft Symbol) (s : Shared) :
    List Char → List (Expression Symbol) → Shared → Prop
  | nil : Enclosed m s [] [] s
  | cons {u v outer e s' s''} : Enclosed m s u outer s' → Opened m s' e s'' v →
      Enclosed m s (u ++ v ++ ['(']) (e :: outer) s''

inductive Begun (m : SymbolMaker Shared Draft Symbol) (s : Shared) :
    List Char → Phase Draft Symbol → Shared → Prop
  | base : Begun m s [] .base s
  | once {u t s'} : Builds m .base u s t s' → Begun m s u (.factor t false) s'
  | starred {u t s'} : Builds m .factor u s t s' → Begun m s u (.factor t true) s'
  | inClass (negated items place) {draft s'} : Collects m s negated items draft s' →
      place.Follows negated items →
      Begun m s
        ('[' :: (if negated then ['^'] else []) ++ items.flatMap Item.chars ++ place.pending)
        (.inClass negated draft place) s'

variable {p : Parser Shared Draft Symbol} {m : SymbolMaker Shared Draft Symbol} {s s' : Shared}
  {u : List Char} {c first : Char} {negated : Bool} {draft : Draft}

namespace Collects

variable {items : List Item}

theorem nil (m : SymbolMaker Shared Draft Symbol) (s : Shared) (negated : Bool) :
    Collects m s negated [] (m.start s).1 (m.start s).2 :=
  ⟨by simp, rfl, rfl⟩

theorem concat {i : Item} (h : Collects p.maker s negated items draft s') (hi : i.Valid)
    (hlast : ∀ j ∈ items.getLast?, j.Parts i) :
    Collects p.maker s negated (items ++ [i])
      (Reader.addItem p negated draft i.codePoints s').1
      (Reader.addItem p negated draft i.codePoints s').2 := by
  refine ⟨?_, Item.separate_concat.mpr ⟨h.separate, hlast⟩, ?_⟩
  · intro j hj
    rcases List.mem_append.mp hj with hj | hj
    · exact h.valid j hj
    · rw [List.mem_singleton.mp hj]
      exact hi
  · rw [List.map_append, List.map_singleton, SymbolMaker.editAll_concat, h.made]
    rfl

theorem builds (h : Collects m s negated items draft s') (hitems : items ≠ []) :
    Builds m .base (Leaf.charClass negated items).chars s (.literal (m.finish draft s').1)
      (m.finish draft s').2 := by
  refine .leaf ⟨hitems, h.valid, h.separate⟩ ?_
  change m.finish (m.editAll (m.start s) (items.map (Item.edit negated))).1
    (m.editAll (m.start s) (items.map (Item.edit negated))).2 = _
  rw [h.made]

end Collects

namespace Begun

theorem builds {t : Regex Symbol} {starred : Bool} (h : Begun m s u (.factor t starred) s') :
    Builds m .factor u s t s' := by
  cases h with
  | once h => exact h.once
  | starred h => exact h

theorem star {t : Regex Symbol} (h : Begun m s u (.factor t false) s') :
    Begun m s (u ++ ['*']) (.factor (.star t) true) s' := by
  cases h with
  | once h => exact .starred h.star

theorem bracket (m : SymbolMaker Shared Draft Symbol) (s : Shared) :
    Begun m s ['['] (.inClass false (m.start s).1 .bracket) (m.start s).2 :=
  .inClass false [] .bracket (.nil m s false) ⟨rfl, rfl⟩

theorem negate (h : Begun m s u (.inClass negated draft .bracket) s') :
    Begun m s (u ++ ['^']) (.inClass true draft .negation) s' := by
  cases h with
  | inClass _ items _ hitems hplace =>
      obtain ⟨rfl, rfl⟩ := hplace
      exact .inClass true [] .negation ⟨hitems.valid, hitems.separate, hitems.made⟩ ⟨rfl, rfl⟩

theorem member {place : Place} (h : Begun m s u (.inClass negated draft place) s')
    (hsettled : place ∈ [.bracket, .negation, .item]) (hc : isMember c) :
    Begun m s (u ++ [c]) (.inClass negated draft (.member c)) s' := by
  cases h with
  | inClass _ items _ hitems hplace =>
      obtain ⟨hpending, hlast⟩ := hplace.settled hsettled
      have hbegun := Begun.inClass negated items (.member c) hitems ⟨hc, fun i hi => hlast i hi _⟩
      rw [hpending, List.append_nil]
      exact hbegun

theorem next_member (h : Begun p.maker s u (.inClass negated draft (.member first)) s')
    (hc : isMember c) (hhyphen : c ≠ '-') :
    Begun p.maker s (u ++ [c])
      (.inClass negated (Reader.addItem p negated draft (.single first) s').1 (.member c))
      (Reader.addItem p negated draft (.single first) s').2 := by
  cases h with
  | inClass _ items _ hitems hplace =>
      have hmore := hitems.concat (i := .member first) hplace.1 hplace.2
      have hbegun := Begun.inClass negated _ (.member c) hmore
        ⟨hc, by simpa [Item.Parts, Item.first] using hhyphen⟩
      simpa [Item.chars, Item.codePoints, Place.pending] using hbegun

theorem hyphen (h : Begun m s u (.inClass negated draft (.member first)) s') :
    Begun m s (u ++ ['-']) (.inClass negated draft (.hyphen first)) s' := by
  cases h with
  | inClass _ items _ hitems hplace =>
      have hbegun := Begun.inClass negated items (.hyphen first) hitems hplace
      simpa [Place.pending] using hbegun

theorem range (h : Begun p.maker s u (.inClass negated draft (.hyphen first)) s')
    (hc : isLiteral c) :
    Begun p.maker s (u ++ [c])
      (.inClass negated (Reader.addItem p negated draft (.between first c) s').1 .item)
      (Reader.addItem p negated draft (.between first c) s').2 := by
  cases h with
  | inClass _ items _ hitems hplace =>
      have hmore := hitems.concat (i := .range first c) ⟨hplace.1, hc⟩ hplace.2
      have hbegun := Begun.inClass negated _ .item hmore ⟨by simp, by simp [Item.Parts]⟩
      simpa [Item.chars, Item.codePoints, Place.pending] using hbegun

theorem close (h : Begun m s u (.inClass negated draft .item) s') :
    Begun m s (u ++ [']']) (.factor (.literal (m.finish draft s').1) false)
      (m.finish draft s').2 := by
  cases h with
  | inClass _ items _ hitems hplace =>
      have hbuilds := hitems.builds hplace.1
      exact .once (by simpa [Leaf.chars, Place.pending] using hbuilds)

theorem close_member (h : Begun p.maker s u (.inClass negated draft (.member first)) s') :
    Begun p.maker s (u ++ [']'])
      (.factor (.literal (p.maker.finish (Reader.addItem p negated draft (.single first) s').1
        (Reader.addItem p negated draft (.single first) s').2).1) false)
      (p.maker.finish (Reader.addItem p negated draft (.single first) s').1
        (Reader.addItem p negated draft (.single first) s').2).2 := by
  cases h with
  | inClass _ items _ hitems hplace =>
      have hmore := hitems.concat (i := .member first) hplace.1 hplace.2
      have hbuilds := hmore.builds (by simp)
      exact .once (by simpa [Leaf.chars, Item.chars, Item.codePoints, Place.pending] using hbuilds)

end Begun

namespace Reader

variable {r r' b : Reader Shared Draft Symbol}

inductive Spells (m : SymbolMaker Shared Draft Symbol) (s : Shared)
    (r : Reader Shared Draft Symbol) : List Char → Prop
  | mk {u v w s₁ s₂} : Enclosed m s u r.outer s₁ → Opened m s₁ r.inner s₂ v →
      Begun m s₂ w r.phase r.shared → Spells m s r (u ++ v ++ w)

namespace Spells

theorem onward (h : r.Spells m s u) : r.onward.Spells m s u := by
  obtain ⟨hu, hv, hw⟩ := h
  exact .mk hu hv hw

theorem ready (h : r.Spells m s u) (hready : r.Ready b) :
    ∃ v w s₁, u = v ++ w ∧ Enclosed m s v b.outer s₁ ∧ Opened m s₁ b.inner b.shared w := by
  obtain ⟨houter, hinner, hbegun⟩ := h
  cases hready with
  | base hphase =>
      rw [hphase] at hbegun
      cases hbegun
      exact ⟨_, _, _, List.append_nil _, houter, hinner⟩
  | factor hphase =>
      rw [hphase] at hbegun
      exact ⟨_, _, _, List.append_assoc _ _ _, houter, hinner.push hbegun.builds⟩

theorem begin_behind (h : r.Spells m s u) (hready : r.Ready b) (houter : r'.outer = b.outer)
    (hinner : r'.inner = b.inner) (hbegun : Begun m b.shared [c] r'.phase r'.shared) :
    r'.Spells m s (u ++ [c]) := by
  obtain ⟨v, w, s₁, rfl, hv, hw⟩ := h.ready hready
  rw [← houter] at hv
  rw [← hinner] at hw
  exact .mk hv hw hbegun

theorem go_on (h : r.Spells m s u) (houter : r'.outer = r.outer) (hinner : r'.inner = r.inner)
    (hbegun : ∀ {s w}, Begun m s w r.phase r.shared → Begun m s (w ++ [c]) r'.phase r'.shared) :
    r'.Spells m s (u ++ [c]) := by
  obtain ⟨hu, hv, hw⟩ := h
  rw [← houter] at hu
  rw [← hinner] at hv
  have hspells := Spells.mk hu hv (hbegun hw)
  simpa using hspells

theorem open_group (h : r.Spells m s u) (hready : r.Ready b) :
    b.openGroup.Spells m s (u ++ ['(']) := by
  obtain ⟨v, w, s₁, rfl, hv, hw⟩ := h.ready hready
  have hbegun : Begun m b.shared [] b.openGroup.phase b.openGroup.shared := .base
  have hspells : b.openGroup.Spells m s _ := .mk (hv.cons hw) .nil hbegun
  simpa using hspells

theorem split {t : Regex Symbol} {starred : Bool} (h : r.Spells m s u)
    (hphase : r.phase = .factor t starred) :
    Spells m s { r with inner := (r.inner.push t).split, phase := .base } (u ++ ['|']) := by
  obtain ⟨v, w, s₁, rfl, hv, hw⟩ := h.ready (.factor hphase)
  have hspells : Spells m s { r with inner := (r.inner.push t).split, phase := .base } _ :=
    .mk hv (hw.split (by simp [Expression.push])) .base
  simpa using hspells

theorem close_group {t : Regex Symbol} {starred : Bool} {e : Expression Symbol}
    {outer : List (Expression Symbol)} (h : r.Spells m s u) (hphase : r.phase = .factor t starred)
    (houter : r.outer = e :: outer) :
    Spells m s { r with
      depth := r.depth - 1
      outer
      inner := e
      phase := .factor (r.inner.push t).tree false } (u ++ [')']) := by
  obtain ⟨v, w, s₁, rfl, hv, hw⟩ := h.ready (.factor hphase)
  rw [houter] at hv
  cases hv with
  | cons hv he =>
      have hgroup := (hw.builds (by simp [Expression.push])).group
      have hspells : Spells m s { r with
        depth := r.depth - 1
        outer
        inner := e
        phase := .factor (r.inner.push t).tree false } _ := .mk hv he (.once hgroup)
      simpa using hspells

theorem move (h : r.Spells p.maker s u) (hmove : Move p r c r') :
    r'.onward.Spells p.maker s (u ++ [c]) := by
  cases hmove with
  | openGroup hready => exact (h.open_group hready).onward
  | openClass hready => exact h.begin_behind hready rfl rfl (.bracket _ _)
  | literal hready hc => exact h.begin_behind hready rfl rfl (.once (.leaf (l := .plain c) hc rfl))
  | star hphase => exact h.go_on rfl rfl fun hbegun => (hphase ▸ hbegun).star
  | split hphase => exact (h.split hphase).onward
  | closeGroup hphase houter => exact (h.close_group hphase houter).onward
  | negate hphase => exact h.go_on rfl rfl fun hbegun => (hphase ▸ hbegun).negate
  | member hphase hplace hc =>
      exact h.go_on rfl rfl fun hbegun => (hphase ▸ hbegun).member hplace hc
  | nextMember hphase hc hhyphen =>
      exact h.go_on rfl rfl fun hbegun => (hphase ▸ hbegun).next_member hc hhyphen
  | hyphen hphase => exact h.go_on rfl rfl fun hbegun => (hphase ▸ hbegun).hyphen
  | range hphase hc => exact h.go_on rfl rfl fun hbegun => (hphase ▸ hbegun).range hc
  | closeClass hphase => exact h.go_on rfl rfl fun hbegun => (hphase ▸ hbegun).close
  | closeMember hphase => exact h.go_on rfl rfl fun hbegun => (hphase ▸ hbegun).close_member

end Spells

end Reader

end RegexTree.Pattern
