import RegexTree.Pattern.Leaf
import RegexTree.Regex.Basic

namespace RegexTree.Pattern

inductive Part where
  | expression
  | concatenation
  | factor
  | base
deriving DecidableEq, Repr

inductive Derives : Part → List Char → Regex Leaf → Prop
  | alternative {u t} : Derives .concatenation u t → Derives .expression u t
  | alternation {u v l r} : Derives .expression u l → Derives .concatenation v r →
      Derives .expression (u ++ '|' :: v) (.alternation l r)
  | single {u t} : Derives .factor u t → Derives .concatenation u t
  | concatenation {u v l r} : Derives .concatenation u l → Derives .factor v r →
      Derives .concatenation (u ++ v) (.concatenation l r)
  | once {u t} : Derives .base u t → Derives .factor u t
  | star {u t} : Derives .base u t → Derives .factor (u ++ ['*']) (.star t)
  | leaf {l : Leaf} : l.Valid → Derives .base l.chars (.literal l)
  | group {u t} : Derives .expression u t → Derives .base ('(' :: u ++ [')']) t

theorem Derives.ne_nil {part : Part} {u : List Char} {t : Regex Leaf} (h : Derives part u t) :
    u ≠ [] := by
  induction h with
  | alternative _ ih | single _ ih | once _ ih => exact ih
  | alternation | star | group => simp
  | concatenation _ _ ih _ => simp [ih]
  | leaf => exact Leaf.chars_ne_nil _

end RegexTree.Pattern
