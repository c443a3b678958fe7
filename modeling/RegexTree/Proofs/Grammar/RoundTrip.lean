import RegexTree.Proofs.Grammar.Acceptance
import RegexTree.Proofs.Grammar.Height

namespace RegexTree

namespace Pattern

namespace Derives

variable {part : Part} {u : List Char} {t : Regex Leaf}

theorem to_factor (h : Derives part u t) (hpart : part = .base ∨ part = .factor) :
    Derives .factor u t := by
  rcases hpart with rfl | rfl
  · exact .once h
  · exact h

theorem to_concatenation (h : Derives part u t) (hpart : part ≠ .expression) :
    Derives .concatenation u t := by
  cases part with
  | expression => contradiction
  | concatenation => exact h
  | factor => exact .single h
  | base => exact .single (.once h)

theorem to_expression (h : Derives part u t) : Derives .expression u t := by
  cases part with
  | expression => exact h
  | concatenation | factor | base => exact .alternative (h.to_concatenation nofun)

end Derives

namespace Tree

variable {t : Tree} {u : List Char}

def part : Tree → Part
  | .alternation _ _ => .expression
  | .concatenation _ _ => .concatenation
  | .star _ => .factor
  | .emptyWord | .emptySet | .literal _ => .base

theorem derives_group (h : Derives t.part u t) : Derives .base ('(' :: u ++ [')']) t :=
  .group h.to_expression

theorem derives_alternative (h : Derives t.part u t) :
    Derives .concatenation (enclose (isAlternation t) u) t := by
  cases t with
  | alternation l r => exact .single (.once (derives_group h))
  | emptyWord | emptySet | literal l | concatenation l r | star t => exact h.to_concatenation nofun

theorem derives_factor (h : Derives t.part u t) :
    Derives .factor (enclose (isAlternation t || isConcatenation t) u) t := by
  cases t with
  | alternation l r | concatenation l r => exact .once (derives_group h)
  | emptyWord | emptySet | literal l => exact h.to_factor (.inl rfl)
  | star t => exact h

theorem derives_starred (h : Derives t.part u t) : Derives .base (enclose (!isLeaf t) u) t := by
  cases t with
  | literal l => exact h
  | emptyWord | emptySet | alternation l r | concatenation l r | star t => exact derives_group h

theorem derives_print (h : Printable t) : Derives t.part (print t) t := by
  induction t with
  | emptyWord | emptySet => contradiction
  | literal l => exact .leaf h
  | concatenation l r ihl ihr =>
      exact .concatenation (derives_alternative (ihl h.1)) (derives_factor (ihr h.2))
  | alternation l r ihl ihr =>
      exact .alternation (ihl h.1).to_expression (derives_alternative (ihr h.2))
  | star t ih => exact .star (derives_starred (ih h))

end Tree

end Pattern

namespace Parser

open Pattern

variable {Shared Draft Symbol : Type}

theorem alternatives_within_height (p : Parser Shared Draft Symbol) {cs : List Char}
    (h : ∀ n ∈ p.limit, Nesting.height {} cs ≤ n) (shared : Shared) :
    p.alternatives shared cs = (p.withLimit none).alternatives shared cs := by
  obtain ⟨m, limit⟩ := p
  cases limit with
  | none => rfl
  | some n =>
      have hwithin : ∀ q, ¬ Nesting.Overrun n cs q :=
        fun _ hq => Nat.not_lt.mpr (h n rfl) hq.lt_height
      have hrun : (Parser.mk m (some n)).run shared cs = (Parser.mk m none).run shared cs :=
        run_limited (p := ⟨m, none⟩) hwithin
      rw [alternatives_eq_bind, hrun]
      rfl

theorem read_print_of_maker (p : Parser Shared Draft Symbol) {t : Tree} (h : t.Printable)
    (hword : t.print ≠ ['ε']) (hset : t.print ≠ ['∅']) (hlimit : ∀ n ∈ p.limit, t.nesting ≤ n)
    (shared : Shared) :
    p.read shared t.print =
      (.ok (p.maker.makeTree t shared).1, (p.maker.makeTree t shared).2) := by
  have hheight : ∀ n ∈ p.limit, Nesting.height {} t.print ≤ n := by
    rw [Tree.height_print h]
    exact hlimit
  have hderives : Derives .expression t.print t := (Tree.derives_print h).to_expression
  obtain ⟨a, ha, hmade⟩ := alternatives_of_derives (p := p.withLimit none) rfl hderives shared
  rw [read, if_neg hword, if_neg hset, alternatives_within_height p hheight, ha]
  change (Except.ok (Regex.ofAlternatives a.1), a.2) = _
  exact Prod.ext (congrArg (Except.ok ·.1) hmade) (congrArg (·.2) hmade)

theorem read_print (m : SymbolMaker Shared Draft Symbol) (limit : Option Nat) (shared : Shared)
    {t : Tree} (h : t.Printable) (hword : t.print ≠ ['ε']) (hset : t.print ≠ ['∅'])
    (hlimit : ∀ n ∈ limit, t.nesting ≤ n) :
    Nesting.height {} t.print = t.nesting ∧
      (Parser.mk m limit).read shared t.print =
        (.ok (m.makeTree t shared).1, (m.makeTree t shared).2) ∧
      (Parser.mk CodePointSet.maker limit).read () t.print =
        (.ok (t.map fun l => CodePointSet.ofEdits l.edits), ()) := by
  refine ⟨Tree.height_print h, read_print_of_maker ⟨m, limit⟩ h hword hset hlimit shared, ?_⟩
  rw [read_print_of_maker ⟨CodePointSet.maker, limit⟩ h hword hset hlimit ()]
  simp only [CodePointSet.maker, SymbolMaker.makeTree_ofFold]
  rfl

theorem read_print_of_nested :
    Tree.print (.concatenation (.star (.alternation (.literal (.plain 'a'))
        (.literal (.charClass true [.range '(' 'b', .member 'c']))))
        (.concatenation (.literal (.plain 'ε')) (.star (.star (.literal (.plain '∅')))))) =
          "(a|[^(-bc])*(ε(∅*)*)".toList ∧
      ((Parser.mk CodePointSet.maker (some 2)).read () "(a|[^(-bc])*(ε(∅*)*)".toList).1 =
        .ok (.concatenation
          (.star (.alternation (.literal (CodePointSet.ofEdits [.including [.single 'a']]))
            (.literal (CodePointSet.ofEdits [.excluding [.between '(' 'b'], .excluding [.single 'c']]))))
          (.concatenation (.literal (CodePointSet.ofEdits [.including [.single 'ε']]))
            (.star (.star (.literal (CodePointSet.ofEdits [.including [.single '∅']])))))) := by
  have hread := (read_print .transcript (some 2) ()
    (t := .concatenation (.star (.alternation (.literal (.plain 'a'))
      (.literal (.charClass true [.range '(' 'b', .member 'c']))))
      (.concatenation (.literal (.plain 'ε')) (.star (.star (.literal (.plain '∅'))))))
    (by decide) (by decide) (by decide) (by decide)).2.2
  exact ⟨rfl, congrArg Prod.fst hread⟩

end Parser

end RegexTree
