import RegexTree.CodePoint.Range

/-!
How a reader of patterns has its symbols made: it starts a draft, edits it and finishes it. What the
drafts of one reading share is handed from call to call, and what a symbol is stays with the maker.
-/

namespace RegexTree

inductive Edit where
  | including (ranges : List CodePointRange)
  | excluding (ranges : List CodePointRange)
deriving DecidableEq, Repr

def Edit.asking (out : Bool) (ranges : List CodePointRange) : Edit :=
  if out then .excluding ranges else .including ranges

structure SymbolMaker (Shared Draft Symbol : Type) where
  start : Shared → Draft × Shared
  edit : Draft → Edit → Shared → Draft × Shared
  finish : Draft → Shared → Symbol × Shared

structure SymbolMaker.Determined {Shared Draft Symbol : Type} (m : SymbolMaker Shared Draft Symbol)
    (symbol : List Edit → Symbol) (made : Draft → List Edit → Prop) : Prop where
  start : ∀ shared, made (m.start shared).1 []
  edit : ∀ draft edits e shared, made draft edits → made (m.edit draft e shared).1 (edits ++ [e])
  finish : ∀ draft edits shared, made draft edits → (m.finish draft shared).1 = symbol edits

def SymbolMaker.ofFold {Draft Symbol : Type} (blank : Draft) (edit : Draft → Edit → Draft)
    (finish : Draft → Symbol) : SymbolMaker Unit Draft Symbol where
  start _ := (blank, ())
  edit draft e _ := (edit draft e, ())
  finish draft _ := (finish draft, ())

def SymbolMaker.transcript : SymbolMaker Unit (List Edit) (List Edit) :=
  .ofFold [] (fun edits e => edits ++ [e]) id

theorem SymbolMaker.determined_ofFold {Draft Symbol : Type} (blank : Draft)
    (edit : Draft → Edit → Draft) (finish : Draft → Symbol) :
    (SymbolMaker.ofFold blank edit finish).Determined (fun edits => finish (edits.foldl edit blank))
      (fun draft edits => draft = edits.foldl edit blank) where
  start _ := rfl
  edit draft edits e _ h := by simp [SymbolMaker.ofFold, h]
  finish draft edits _ h := by simp [SymbolMaker.ofFold, h]

end RegexTree
