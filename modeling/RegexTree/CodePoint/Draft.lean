import RegexTree.CodePoint.Set
import RegexTree.Symbol.Maker

namespace RegexTree.CodePointSet

structure Draft where
  included : Array CodePointRange := #[]
  excluded : Array CodePointRange := #[]
deriving DecidableEq, Repr

namespace Draft

def edit (d : Draft) : Edit → Draft
  | .including ranges => { d with included := d.included ++ ranges }
  | .excluding ranges => { d with excluded := d.excluded ++ ranges }

def everything : CodePointRange := ⟨0, 0x10FFFF⟩

/-- A range that holds nothing still counts as asked in or out. -/
def base (d : Draft) : List CodePointRange :=
  if d.included.isEmpty && !d.excluded.isEmpty then [everything]
  else CodePointRange.normalize d.included.toList

def finish (d : Draft) : CodePointSet :=
  ⟨(CodePointRange.subtract d.base (CodePointRange.normalize d.excluded.toList)).toArray⟩

end Draft

def maker : SymbolMaker Unit Draft CodePointSet := .ofFold {} Draft.edit Draft.finish

def ofEdits (edits : List Edit) : CodePointSet := (edits.foldl Draft.edit {}).finish

end RegexTree.CodePointSet
