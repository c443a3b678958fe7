import RegexTree.Pattern.Grammar
import RegexTree.Proofs.Reader.Run
import RegexTree.Proofs.Symbol.Making

namespace RegexTree

namespace Pattern

theorem Item.chars_eq_cons (i : Item) : ∃ cs, i.chars = i.first :: cs := by
  cases i with
  | member c => exact ⟨[], rfl⟩
  | range a b => exact ⟨['-', b], rfl⟩

namespace Reader

variable {Shared Draft Symbol : Type} {p : Parser Shared Draft Symbol}
  {r s t b : Reader Shared Draft Symbol} {c : Char} {u v : List Char}

def Reaches (p : Parser Shared Draft Symbol) (r : Reader Shared Draft Symbol) (u : List Char)
    (s : Reader Shared Draft Symbol) : Prop :=
  r.readAll p u = .ok { s with position := r.position + u.length }

theorem Reaches.of_move (h : Move p r c s) : Reaches p r [c] s := by
  rw [Reaches, readAll_cons_of_move h, readAll_nil, onward, h.position]
  rfl

theorem Reaches.append (h : Reaches p r u s)
    (hnext : Reaches p { s with position := r.position + u.length } v t) :
    Reaches p r (u ++ v) t := by
  rw [Reaches] at hnext
  rw [Reaches, readAll_append_of_ok h, hnext, List.length_append, Nat.add_assoc]

theorem Reaches.cons (h : Move p r c s)
    (hnext : Reaches p { s with position := r.position + 1 } u t) : Reaches p r (c :: u) t :=
  (Reaches.of_move h).append hnext

theorem Reaches.star {t : Regex Symbol} (h : Reaches p r u s) (hs : s.phase = .factor t false) :
    Reaches p r (u ++ ['*']) { s with phase := .factor (.star t) true } := by
  have hmove : Move p { s with position := r.position + u.length } '*' _ := .star hs
  have hreach := Reaches.of_move hmove
  exact h.append hreach

theorem Reaches.closeGroup {t : Regex Symbol} {starred : Bool} {e : Expression Symbol}
    {outer : List (Expression Symbol)} (h : Reaches p r u s) (hs : s.phase = .factor t starred)
    (houter : s.outer = e :: outer) :
    Reaches p r (u ++ [')']) { s with
      depth := s.depth - 1
      outer
      inner := e
      phase := .factor (s.inner.push t).tree false } := by
  have hmove : Move p { s with position := r.position + u.length } ')' _ := .closeGroup hs houter
  have hreach := Reaches.of_move hmove
  exact h.append hreach

def settle (p : Parser Shared Draft Symbol) (r : Reader Shared Draft Symbol) (negated : Bool)
    (draft : Draft) (first : Char) : Reader Shared Draft Symbol :=
  { r with
    shared := (addItem p negated draft (.single first) r.shared).2
    phase := .inClass negated (addItem p negated draft (.single first) r.shared).1 .item }

theorem advance_settle {negated : Bool} {draft : Draft} {first : Char}
    (h : r.phase = .inClass negated draft (.member first)) (hc : c ≠ '-') :
    r.advance p c = (r.settle p negated draft first).advance p c := by
  simp only [advance, step, h, readInClass, hc, if_false, settle]
  rfl

theorem Reaches.of_settle {negated : Bool} {draft : Draft} {first : Char}
    (hsettled : Reaches p (r.settle p negated draft first) (c :: u) s)
    (h : r.phase = .inClass negated draft (.member first)) (hc : c ≠ '-') :
    Reaches p r (c :: u) s := by
  rw [Reaches, readAll_cons, ← advance_settle h hc, ← readAll_cons] at hsettled
  exact hsettled

theorem head_after_member {c : Char} {items : List Item}
    (h : Item.separate (.member c :: items)) :
    ∃ d cs, items.flatMap Item.chars ++ [']'] = d :: cs ∧ d ≠ '-' := by
  cases items with
  | nil => exact ⟨']', [], rfl, by decide⟩
  | cons j items =>
      obtain ⟨cs, hcs⟩ := j.chars_eq_cons
      have hj : j.first ≠ '-' := by
        simp only [Item.separate, Bool.and_eq_true, decide_eq_true_eq] at h
        exact h.1
      exact ⟨j.first, cs ++ items.flatMap Item.chars ++ [']'], by simp [hcs], hj⟩

theorem reaches_items {items : List Item} {negated : Bool} {draft : Draft} {place : Place}
    (hvalid : ∀ i ∈ items, i.Valid) (hseparate : Item.separate items)
    (h : r.phase = .inClass negated draft place) (hplace : place ∈ [.bracket, .negation, .item])
    (hitem : items ≠ [] ∨ place = .item) :
    Reaches p r (items.flatMap Item.chars ++ [']'])
      ({ r with shared := (p.maker.editAll (draft, r.shared) (items.map (Item.edit negated))).2 }.complete
        p (p.maker.editAll (draft, r.shared) (items.map (Item.edit negated))).1) := by
  induction items generalizing r draft place with
  | nil =>
      obtain rfl : place = .item := hitem.resolve_left (by simp)
      exact .of_move (.closeClass h)
  | cons i items ih =>
      have hi : i.Valid := hvalid i (by simp)
      have hitems : ∀ j ∈ items, j.Valid := fun j hj => hvalid j (by simp [hj])
      have hrest : Item.separate items := Item.separate_of_cons hseparate
      have hmember := Move.member (p := p) h hplace (Item.isMember_first hi)
      cases i with
      | member c =>
          obtain ⟨d, cs, htext, hd⟩ := head_after_member hseparate
          rw [show (Item.member c :: items).flatMap Item.chars ++ [']'] =
            c :: (items.flatMap Item.chars ++ [']']) from rfl]
          refine .cons hmember ?_
          rw [htext]
          -- A lone member waits for the character behind it, and what follows starts from an item's end.
          refine Reaches.of_settle ?_ rfl hd
          rw [← htext]
          exact ih hitems hrest rfl (by simp) (.inr rfl)
      | range a b =>
          rw [show (Item.range a b :: items).flatMap Item.chars ++ [']'] =
            a :: '-' :: b :: (items.flatMap Item.chars ++ [']']) from rfl]
          refine .cons hmember (.cons (.hyphen rfl) (.cons (.range rfl hi.2) ?_))
          exact ih hitems hrest rfl (by simp) (.inr rfl)

theorem reaches_leaf {l : Leaf} (h : r.Ready b) (hl : l.Valid) :
    Reaches p r l.chars { b with
      shared := (p.maker.make l.edits b.shared).2
      phase := .factor (.literal (p.maker.make l.edits b.shared).1) false } := by
  cases l with
  | plain c => exact .of_move (.literal h hl)
  | charClass negated items =>
      obtain ⟨hne, hvalid, hseparate⟩ := hl
      have hopen : Move p r '[' (b.openClass p) := .openClass h
      cases negated with
      | false => exact .cons hopen (reaches_items hvalid hseparate rfl (by simp) (.inl hne))
      | true =>
          refine .cons hopen (.cons (.negate rfl) ?_)
          exact reaches_items hvalid hseparate rfl (by simp) (.inl hne)

def Carries (p : Parser Shared Draft Symbol) : Part → List Char → Regex Leaf → Prop
  | .base, u, l => ∀ r b : Reader Shared Draft Symbol, r.Ready b →
      Reaches p r u { b with
        shared := (p.maker.makeTree l b.shared).2
        phase := .factor (p.maker.makeTree l b.shared).1 false }
  | .factor, u, l => ∀ r b : Reader Shared Draft Symbol, r.Ready b →
      ∃ starred, Reaches p r u { b with
        shared := (p.maker.makeTree l b.shared).2
        phase := .factor (p.maker.makeTree l b.shared).1 starred }
  | .concatenation, u, l => ∀ r : Reader Shared Draft Symbol,
      r.phase = .base → r.inner.factors = [] →
      ∃ fs t starred, Regex.concat (t :: fs).reverse = (p.maker.makeTree l r.shared).1 ∧
        Reaches p r u { r with
          shared := (p.maker.makeTree l r.shared).2
          inner := { r.inner with factors := fs }
          phase := .factor t starred }
  | .expression, u, l => ∀ r : Reader Shared Draft Symbol, r.phase = .base → r.inner = {} →
      ∃ e t starred, (e.push t).tree = (p.maker.makeTree l r.shared).1 ∧
        Reaches p r u { r with
          shared := (p.maker.makeTree l r.shared).2
          inner := e
          phase := .factor t starred }

theorem carries_alternative {l : Regex Leaf} (h : Carries p .concatenation u l) :
    Carries p .expression u l := by
  intro r hphase hinner
  obtain ⟨fs, t, starred, htree, hreach⟩ := h r hphase (by rw [hinner])
  refine ⟨{ r.inner with factors := fs }, t, starred, ?_, hreach⟩
  rw [← htree, hinner]
  rfl

theorem carries_alternation {l l' : Regex Leaf} (h : Carries p .expression u l)
    (h' : Carries p .concatenation v l') :
    Carries p .expression (u ++ '|' :: v) (.alternation l l') := by
  intro r hphase hinner
  obtain ⟨e, t, starred, htree, hreach⟩ := h r hphase hinner
  obtain ⟨fs, t', starred', htree', hreach'⟩ := h' { r with
    shared := (p.maker.makeTree l r.shared).2
    position := r.position + u.length + 1
    inner := (e.push t).split
    phase := .base } rfl rfl
  refine ⟨{ (e.push t).split with factors := fs }, t', starred', ?_, ?_⟩
  · change Regex.ofAlternatives ((t' :: fs).reverse :: (e.push t).split.alternatives).reverse = _
    rw [List.reverse_cons, Regex.ofAlternatives_concat (by simp [Expression.split]), htree']
    change Regex.alternation (e.push t).tree _ = _
    rw [htree]
    rfl
  · exact hreach.append (.cons (.split rfl) hreach')

theorem carries_single {l : Regex Leaf} (h : Carries p .factor u l) :
    Carries p .concatenation u l := by
  intro r hphase hfactors
  obtain ⟨starred, hreach⟩ := h r r (.base hphase)
  refine ⟨[], _, starred, rfl, ?_⟩
  rw [← hfactors]
  exact hreach

theorem carries_concatenation {l l' : Regex Leaf} (h : Carries p .concatenation u l)
    (h' : Carries p .factor v l') : Carries p .concatenation (u ++ v) (.concatenation l l') := by
  intro r hphase hfactors
  obtain ⟨fs, t, starred, htree, hreach⟩ := h r hphase hfactors
  obtain ⟨starred', hreach'⟩ := h' _ _ (.factor (r := { r with
    shared := (p.maker.makeTree l r.shared).2
    position := r.position + u.length
    inner := { r.inner with factors := fs }
    phase := .factor t starred }) rfl)
  refine ⟨t :: fs, _, starred', ?_, hreach.append hreach'⟩
  rw [List.reverse_cons, Regex.concat_concat (by simp), htree]
  rfl

theorem carries_once {l : Regex Leaf} (h : Carries p .base u l) : Carries p .factor u l :=
  fun r b hready => ⟨false, h r b hready⟩

theorem carries_star {l : Regex Leaf} (h : Carries p .base u l) :
    Carries p .factor (u ++ ['*']) (.star l) :=
  fun r b hready => ⟨true, (h r b hready).star rfl⟩

theorem carries_leaf {l : Leaf} (h : l.Valid) : Carries p .base l.chars (.literal l) :=
  fun _ _ hready => reaches_leaf hready h

theorem carries_group {l : Regex Leaf} (hlimit : p.limit = none) (h : Carries p .expression u l) :
    Carries p .base ('(' :: u ++ [')']) l := by
  intro r b hready
  have hopen : Move p r '(' b.openGroup := .openGroup hready (by simp [mayOpen, hlimit])
  obtain ⟨e, t, starred, htree, hreach⟩ := h { b.openGroup with position := r.position + 1 } rfl rfl
  have hclose := hreach.closeGroup rfl rfl
  rw [htree] at hclose
  exact .cons hopen hclose

theorem carries_of_derives {part : Part} {l : Regex Leaf} (hlimit : p.limit = none)
    (h : Derives part u l) : Carries p part u l := by
  induction h with
  | alternative _ ih => exact carries_alternative ih
  | alternation _ _ ih ih' => exact carries_alternation ih ih'
  | single _ ih => exact carries_single ih
  | concatenation _ _ ih ih' => exact carries_concatenation ih ih'
  | once _ ih => exact carries_once ih
  | star _ ih => exact carries_star ih
  | leaf hl => exact carries_leaf hl
  | group _ ih => exact carries_group hlimit ih

end Reader

end Pattern

variable {Shared Draft Symbol : Type} {p : Parser Shared Draft Symbol}

theorem Parser.alternatives_of_derives {cs : List Char} {l : Regex Pattern.Leaf}
    (hlimit : p.limit = none) (h : Pattern.Derives .expression cs l) (shared : Shared) :
    ∃ a, p.alternatives shared cs = .ok a ∧
      (Regex.ofAlternatives a.1, a.2) = p.maker.makeTree l shared := by
  obtain ⟨e, t, starred, htree, hreach⟩ :=
    Pattern.Reader.carries_of_derives hlimit h { shared } rfl rfl
  refine ⟨((e.push t).toAlternatives, (p.maker.makeTree l shared).2), ?_, ?_⟩
  · rw [Parser.alternatives_eq_bind, Parser.run, hreach]
    rfl
  · exact Prod.ext htree rfl

end RegexTree
