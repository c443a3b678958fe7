import RegexTree.CodePoint.Range

namespace RegexTree

def hexDigits (n : Nat) : List Char := ((Nat.toDigits 16 n).map Char.toUpper).leftpad 4 '0'

theorem four_le_length_hexDigits (n : Nat) : 4 ≤ (hexDigits n).length := by
  simp only [hexDigits, List.length_leftpad]
  omega

def escaped (x : UInt32) : List Char := '\\' :: 'u' :: hexDigits x.toNat

def CodePointRange.chars (r : CodePointRange) : List Char :=
  if r.first = r.last then escaped r.first else escaped r.first ++ '-' :: escaped r.last

def CodePointRange.text (r : CodePointRange) : String := String.ofList r.chars

end RegexTree
