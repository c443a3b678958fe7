namespace RegexTree.Pattern

/-- Stands for the end of the pattern where an error names what it found. A pattern cannot use it. -/
def endOfInput : Char := '\x03'

def specials : List Char := ['(', ')', '[', ']', '|', '*', '^', endOfInput]

def isLiteral (c : Char) : Bool := c ∉ specials

def isMember (c : Char) : Bool := isLiteral c || c ∈ ['(', ')', '[', '-', '|']

def startsFactor (c : Char) : Bool := isLiteral c || c = '(' || c = '['

theorem isMember_of_isLiteral {c : Char} (h : isLiteral c) : isMember c := by
  simp [isMember, h]

theorem startsFactor_of_isLiteral {c : Char} (h : isLiteral c) : startsFactor c := by
  simp [startsFactor, h]

theorem not_isLiteral_iff {c : Char} : isLiteral c = false ↔ c ∈ specials := by
  simp [isLiteral]

end RegexTree.Pattern
