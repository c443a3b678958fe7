import RegexTree.Pattern.Leaf
import RegexTree.Regex.Basic

namespace RegexTree.Pattern

abbrev Tree := Regex Leaf

namespace Tree

def isLeaf : Tree → Bool
  | .literal _ => true
  | _ => false

def isAlternation : Tree → Bool
  | .alternation _ _ => true
  | _ => false

def isConcatenation : Tree → Bool
  | .concatenation _ _ => true
  | _ => false

def enclose (grouped : Bool) (cs : List Char) : List Char :=
  if grouped then '(' :: cs ++ [')'] else cs

def print : Tree → List Char
  | .emptyWord => ['ε']
  | .emptySet => ['∅']
  | .literal l => l.chars
  | .concatenation l r =>
      enclose (isAlternation l) (print l) ++ enclose (isAlternation r || isConcatenation r) (print r)
  | .alternation l r => print l ++ '|' :: enclose (isAlternation r) (print r)
  | .star t => enclose (!isLeaf t) (print t) ++ ['*']

def nesting : Tree → Nat
  | .emptyWord => 0
  | .emptySet => 0
  | .literal _ => 0
  | .concatenation l r =>
      max (nesting l + (isAlternation l).toNat)
        (nesting r + (isAlternation r || isConcatenation r).toNat)
  | .alternation l r => max (nesting l) (nesting r + (isAlternation r).toNat)
  | .star t => nesting t + (!isLeaf t).toNat

def Printable : Tree → Prop
  | .emptyWord => False
  | .emptySet => False
  | .literal l => l.Valid
  | .concatenation l r => Printable l ∧ Printable r
  | .alternation l r => Printable l ∧ Printable r
  | .star t => Printable t

def decidePrintable : (t : Tree) → Decidable (Printable t)
  | .emptyWord => inferInstanceAs (Decidable False)
  | .emptySet => inferInstanceAs (Decidable False)
  | .literal l => inferInstanceAs (Decidable l.Valid)
  | .concatenation l r => @instDecidableAnd _ _ (decidePrintable l) (decidePrintable r)
  | .alternation l r => @instDecidableAnd _ _ (decidePrintable l) (decidePrintable r)
  | .star t => decidePrintable t

instance : DecidablePred Printable := decidePrintable

end Tree

end RegexTree.Pattern
