namespace RegexTree.Pattern

structure Nesting where
  inClass : Bool := false
  opened : Nat := 0
  closed : Nat := 0
deriving DecidableEq, Repr

namespace Nesting

def next (n : Nesting) (c : Char) : Nesting :=
  if n.inClass then { n with inClass := c ≠ ']' }
  else if c = '[' then { n with inClass := true }
  else if c = '(' then { n with opened := n.opened + 1 }
  else if c = ')' then { n with closed := n.closed + 1 }
  else n

def behind (cs : List Char) : Nesting := cs.foldl next {}

@[simp] theorem behind_nil : behind [] = {} := rfl

@[simp] theorem behind_concat (cs : List Char) (c : Char) :
    behind (cs ++ [c]) = (behind cs).next c := by
  simp [behind]

def OpensAt (depth : Nat) (u : List Char) : Prop :=
  (behind u).inClass = false ∧ (behind u).opened = (behind u).closed + depth

end Nesting

end RegexTree.Pattern
