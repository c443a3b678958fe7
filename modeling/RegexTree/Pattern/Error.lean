namespace RegexTree.Pattern

/-- Why a pattern cannot be read, and where. Positions count characters from one, and the end of the
pattern is the position behind its last character. -/
inductive ParseError where
  | unexpected (found : Char) (position : Nat)
  | unclosed (expected : Char) (position : Nat)
  | openRange (position : Nat)
  | tooDeep (position : Nat)
deriving DecidableEq, Repr

namespace ParseError

def position : ParseError → Nat
  | .unexpected _ p => p
  | .unclosed _ p => p
  | .openRange p => p
  | .tooDeep p => p

def message : ParseError → String
  | .unexpected found position => s!"Unexpected symbol '{found}' at position {position}."
  | .unclosed expected position =>
      s!"Input ended unexpectedly, expected symbol '{expected}' at position {position}."
  | .openRange position => s!"Input ended unexpectedly, expected literal at position {position}."
  | .tooDeep position => s!"Recursion limit exceeded at position {position}."

def shift (n : Nat) : ParseError → ParseError
  | .unexpected found p => .unexpected found (p + n)
  | .unclosed expected p => .unclosed expected (p + n)
  | .openRange p => .openRange (p + n)
  | .tooDeep p => .tooDeep (p + n)

@[simp] theorem shift_zero (e : ParseError) : e.shift 0 = e := by
  cases e <;> rfl

@[simp] theorem position_shift (e : ParseError) (n : Nat) : (e.shift n).position = e.position + n := by
  cases e <;> rfl

end ParseError

end RegexTree.Pattern
