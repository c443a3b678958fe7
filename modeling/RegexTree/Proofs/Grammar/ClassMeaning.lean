import RegexTree.Proofs.CodePoint.Membership
import RegexTree.Proofs.Grammar.RoundTrip

namespace RegexTree

namespace Pattern

variable {items : List Item} {c : Char}

def Item.Holds : Item → Char → Prop
  | .member a, c => c = a
  | .range first last, c => first ≤ c ∧ c ≤ last

theorem Item.mem_codePoints {i : Item} : c.val ∈ i.codePoints ↔ i.Holds c := by
  cases i with
  | member a => rw [codePoints, CodePointRange.mem_single, Char.val_inj, Holds]
  | range first last => exact CodePointRange.mem_between

theorem Item.covers_codePoints :
    Covers (items.map Item.codePoints) c.val ↔ ∃ i ∈ items, i.Holds c := by
  simp [Covers, Item.mem_codePoints]

theorem Leaf.edits_charClass (negated : Bool) (items : List Item) :
    (Leaf.charClass negated items).edits =
      (items.map Item.codePoints).map fun r => Edit.asking negated [r] := by
  rw [edits, List.map_map]
  rfl

theorem Leaf.contains_charClass (hitems : items ≠ []) (negated : Bool) :
    (CodePointSet.ofEdits (Leaf.charClass negated items).edits).contains c ↔
      if negated then ¬ ∃ i ∈ items, i.Holds c else ∃ i ∈ items, i.Holds c := by
  rw [edits_charClass, CodePointSet.contains_ofEdits_asking (by simpa using hitems),
    Item.covers_codePoints]

end Pattern

open Pattern

theorem CodePointSet.makeTree_eq (t : Regex Leaf) :
    CodePointSet.maker.makeTree t () = (t.map fun l => CodePointSet.ofEdits l.edits, ()) :=
  SymbolMaker.makeTree_ofFold _ _ _ t

variable {items : List Item}

theorem parse_leaf {l : Leaf} (h : l.Valid) (hword : l.chars ≠ ['ε']) (hset : l.chars ≠ ['∅']) :
    parse (String.ofList l.chars) = .ok (.literal (CodePointSet.ofEdits l.edits)) := by
  have hread := Parser.read_print_of_maker CodePointSet.parser (t := .literal l) h hword hset
    (fun _ _ => Nat.zero_le _) ()
  rw [parse, Parser.parse, String.toList_ofList]
  change (CodePointSet.parser.read () (Tree.print (.literal l))).1 = _
  rw [hread, CodePointSet.parser, CodePointSet.makeTree_eq]
  rfl

theorem parse_charClass (hitems : items ≠ []) (hvalid : ∀ i ∈ items, i.Valid)
    (hseparate : Item.separate items) :
    (∃ s, parse (String.ofList ('[' :: items.flatMap Item.chars ++ [']'])) = .ok (.literal s) ∧
        ∀ c, s.contains c ↔ ∃ i ∈ items, i.Holds c) ∧
      ∃ s, parse (String.ofList ('[' :: '^' :: items.flatMap Item.chars ++ [']'])) =
          .ok (.literal s) ∧
        ∀ c, s.contains c ↔ ¬ ∃ i ∈ items, i.Holds c := by
  have hparse (negated : Bool) := parse_leaf (l := .charClass negated items)
    ⟨hitems, hvalid, hseparate⟩ (by simp [Leaf.chars]) (by simp [Leaf.chars])
  refine ⟨⟨_, hparse false, fun c => ?_⟩, ⟨_, hparse true, fun c => ?_⟩⟩
  · simpa using Leaf.contains_charClass hitems false
  · simpa using Leaf.contains_charClass hitems true

theorem parse_charClass_of_hyphens :
    (∀ i ∈ [Item.member '-', .range '(' '-', .range 'z' 'b', .member '-', .member 'x'], i.Valid) ∧
      Item.separate [.member '-', .range '(' '-', .range 'z' 'b', .member '-', .member 'x'] ∧
      (∃ s, parse "[-(--z-b-x]" = .ok (.literal s) ∧
        ∀ c, s.contains c ↔
          c = '-' ∨ ('(' ≤ c ∧ c ≤ '-') ∨ ('z' ≤ c ∧ c ≤ 'b') ∨ c = '-' ∨ c = 'x') ∧
      ∃ s, parse "[^-(--z-b-x]" = .ok (.literal s) ∧
        ∀ c, s.contains c ↔
          ¬ (c = '-' ∨ ('(' ≤ c ∧ c ≤ '-') ∨ ('z' ≤ c ∧ c ≤ 'b') ∨ c = '-' ∨ c = 'x') := by
  have hvalid : ∀ i ∈ [Item.member '-', .range '(' '-', .range 'z' 'b', .member '-', .member 'x'],
      i.Valid := by decide
  have hseparate : Item.separate
      [.member '-', .range '(' '-', .range 'z' 'b', .member '-', .member 'x'] := by decide
  have hboth := parse_charClass (by decide) hvalid hseparate
  simp only [List.mem_cons, List.not_mem_nil, or_false, exists_eq_or_imp, exists_eq_left,
    Item.Holds] at hboth
  exact ⟨hvalid, hseparate, hboth⟩

end RegexTree
