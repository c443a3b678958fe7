import RegexTree.CodePoint.Draft
import RegexTree.Pattern.Reader

namespace RegexTree

variable {Shared Draft Symbol : Type}

namespace Parser

open Pattern

def alternatives (p : Parser Shared Draft Symbol) (shared : Shared) (cs : List Char) :
    Except (Halt Shared) (List (List (Regex Symbol)) × Shared) :=
  (({ shared } : Reader Shared Draft Symbol).readAll p cs).bind (Reader.finish p)

def read (p : Parser Shared Draft Symbol) (shared : Shared) (cs : List Char) :
    Except ParseError (Regex Symbol) × Shared :=
  if cs = ['ε'] then (.ok .emptyWord, shared)
  else if cs = ['∅'] then (.ok .emptySet, shared)
  else match p.alternatives shared cs with
    | .ok (alternatives, shared) => (.ok (Regex.ofAlternatives alternatives), shared)
    | .error halt => (.error halt.error, halt.shared)

def parse (p : Parser Unit Draft Symbol) (pattern : String) : Except ParseError (Regex Symbol) :=
  (p.read () pattern.toList).1

end Parser

def CodePointSet.parser : Parser Unit CodePointSet.Draft CodePointSet where
  maker := CodePointSet.maker

def parse (pattern : String) : Except Pattern.ParseError (Regex CodePointSet) :=
  CodePointSet.parser.parse pattern

instance Pattern.decidableEqResult {α : Type} [DecidableEq α] : DecidableEq (Except ParseError α)
  | .ok a, .ok b => decidable_of_iff (a = b) (by simp)
  | .error e, .error f => decidable_of_iff (e = f) (by simp)
  | .ok _, .error _ => isFalse nofun
  | .error _, .ok _ => isFalse nofun

end RegexTree
