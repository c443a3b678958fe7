import RegexTree.Regex.Basic

namespace RegexTree.Regex

variable {α : Type}

def prependChars (leaf : α → List Char) : Regex α → List Char → List Char
  | .emptyWord, rest => 'ε' :: rest
  | .emptySet, rest => '∅' :: rest
  | .literal a, rest => leaf a ++ rest
  | .concatenation l r, rest =>
      '(' :: l.prependChars leaf (r.prependChars leaf (')' :: rest))
  | .alternation l r, rest =>
      '(' :: l.prependChars leaf ('|' :: r.prependChars leaf (')' :: rest))
  | .star t, rest => '(' :: t.prependChars leaf (')' :: '*' :: rest)

def chars (leaf : α → List Char) (t : Regex α) : List Char := t.prependChars leaf []

def text (leaf : α → String) (t : Regex α) : String :=
  String.ofList (t.chars fun a => (leaf a).toList)

theorem prependChars_eq (leaf : α → List Char) (t : Regex α) (rest : List Char) :
    t.prependChars leaf rest = t.chars leaf ++ rest := by
  unfold chars
  induction t generalizing rest with
  | emptyWord | emptySet => rfl
  | literal a => simp [prependChars]
  | concatenation l r ihl ihr =>
      simp only [prependChars]
      rw [ihr (')' :: rest), ihr [')'], ihl, ihl (r.prependChars leaf [] ++ [')'])]
      simp
  | alternation l r ihl ihr =>
      simp only [prependChars]
      rw [ihr (')' :: rest), ihr [')'], ihl, ihl ('|' :: (r.prependChars leaf [] ++ [')']))]
      simp
  | star t ih =>
      simp only [prependChars]
      rw [ih (')' :: '*' :: rest), ih [')', '*']]
      simp

theorem chars_literal (leaf : α → List Char) (a : α) : (literal a).chars leaf = leaf a := by
  simp [chars, prependChars]

theorem chars_concatenation (leaf : α → List Char) (l r : Regex α) :
    (concatenation l r).chars leaf = '(' :: l.chars leaf ++ r.chars leaf ++ [')'] := by
  rw [chars, prependChars, prependChars_eq, prependChars_eq]
  simp

theorem chars_alternation (leaf : α → List Char) (l r : Regex α) :
    (alternation l r).chars leaf = '(' :: l.chars leaf ++ '|' :: r.chars leaf ++ [')'] := by
  rw [chars, prependChars, prependChars_eq, prependChars_eq]
  simp

theorem chars_star (leaf : α → List Char) (t : Regex α) :
    (star t).chars leaf = '(' :: t.chars leaf ++ [')', '*'] := by
  rw [chars, prependChars, prependChars_eq]
  simp

end RegexTree.Regex
