import RegexTree.Pattern.Alphabet
import RegexTree.Symbol.Maker

namespace RegexTree.Pattern

inductive Item where
  | member (c : Char)
  | range (first last : Char)
deriving DecidableEq, Repr

namespace Item

def codePoints : Item → CodePointRange
  | .member c => .single c
  | .range first last => .between first last

def chars : Item → List Char
  | .member c => [c]
  | .range first last => [first, '-', last]

def edit (negated : Bool) (i : Item) : Edit := .asking negated [i.codePoints]

def first : Item → Char
  | .member c => c
  | .range first _ => first

def Valid : Item → Prop
  | .member c => isMember c
  | .range first last => isMember first ∧ isLiteral last

instance : DecidablePred Valid
  | .member c => inferInstanceAs (Decidable (isMember c = true))
  | .range first last => inferInstanceAs (Decidable (isMember first = true ∧ isLiteral last = true))

theorem isMember_first {i : Item} (h : i.Valid) : isMember i.first := by
  cases i with
  | member c => exact h
  | range a b => exact h.1

/-- A hyphen that began the next item would make a range of a lone member. -/
def separate : List Item → Bool
  | [] => true
  | [_] => true
  | .member _ :: j :: rest => j.first ≠ '-' && separate (j :: rest)
  | .range _ _ :: j :: rest => separate (j :: rest)

theorem separate_of_cons {i : Item} {rest : List Item} (h : separate (i :: rest)) : separate rest := by
  cases rest with
  | nil => rfl
  | cons j rest => cases i <;> simp_all [separate]

end Item

inductive Leaf where
  | plain (c : Char)
  | charClass (negated : Bool) (items : List Item)
deriving DecidableEq, Repr

namespace Leaf

def chars : Leaf → List Char
  | .plain c => [c]
  | .charClass negated items =>
      '[' :: (if negated then ['^'] else []) ++ items.flatMap Item.chars ++ [']']

def edits : Leaf → List Edit
  | .plain c => [.including [.single c]]
  | .charClass negated items => items.map (Item.edit negated)

def Valid : Leaf → Prop
  | .plain c => isLiteral c
  | .charClass _ items => items ≠ [] ∧ (∀ i ∈ items, i.Valid) ∧ Item.separate items

instance : DecidablePred Valid
  | .plain c => inferInstanceAs (Decidable (isLiteral c = true))
  | .charClass _ items =>
      inferInstanceAs (Decidable (items ≠ [] ∧ (∀ i ∈ items, i.Valid) ∧ Item.separate items = true))

theorem chars_ne_nil (l : Leaf) : l.chars ≠ [] := by
  cases l <;> simp [chars]

end Leaf

end RegexTree.Pattern
