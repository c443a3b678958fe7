import RegexTree.Pattern.Alphabet
import RegexTree.Pattern.Error
import RegexTree.Regex.Basic
import RegexTree.Symbol.Maker

namespace RegexTree

def defaultLimit : Nat := 256

structure Parser (Shared Draft Symbol : Type) where
  maker : SymbolMaker Shared Draft Symbol
  limit : Option Nat := some defaultLimit

namespace Pattern

structure Expression (Symbol : Type) where
  alternatives : List (List (Regex Symbol)) := []
  factors : List (Regex Symbol) := []

namespace Expression

variable {Symbol : Type}

def push (e : Expression Symbol) (t : Regex Symbol) : Expression Symbol :=
  { e with factors := t :: e.factors }

def split (e : Expression Symbol) : Expression Symbol :=
  { alternatives := e.factors.reverse :: e.alternatives }

def toAlternatives (e : Expression Symbol) : List (List (Regex Symbol)) :=
  e.split.alternatives.reverse

def tree (e : Expression Symbol) : Regex Symbol := Regex.ofAlternatives e.toAlternatives

end Expression

inductive Place where
  | bracket
  | negation
  | member (first : Char)
  | hyphen (first : Char)
  | item
deriving DecidableEq, Repr

inductive Phase (Draft Symbol : Type) where
  | base
  | factor (tree : Regex Symbol) (starred : Bool)
  | inClass (negated : Bool) (draft : Draft) (place : Place)

structure Reader (Shared Draft Symbol : Type) where
  shared : Shared
  position : Nat := 1
  depth : Nat := 0
  outer : List (Expression Symbol) := []
  inner : Expression Symbol := {}
  phase : Phase Draft Symbol := .base

structure Halt (Shared : Type) where
  error : ParseError
  shared : Shared

variable {Shared Draft Symbol : Type}

namespace Reader

def halt {α : Type} (r : Reader Shared Draft Symbol) (e : ParseError) : Except (Halt Shared) α :=
  .error ⟨e, r.shared⟩

def unexpected {α : Type} (r : Reader Shared Draft Symbol) (c : Char) : Except (Halt Shared) α :=
  r.halt (.unexpected c r.position)

def mayOpen (p : Parser Shared Draft Symbol) (r : Reader Shared Draft Symbol) : Bool :=
  match p.limit with
  | none => true
  | some limit => r.depth < limit

def openGroup (r : Reader Shared Draft Symbol) : Reader Shared Draft Symbol :=
  { r with depth := r.depth + 1, outer := r.inner :: r.outer, inner := {}, phase := .base }

def openClass (p : Parser Shared Draft Symbol) (r : Reader Shared Draft Symbol) :
    Reader Shared Draft Symbol :=
  let (draft, shared) := p.maker.start r.shared
  { r with shared, phase := .inClass false draft .bracket }

def complete (p : Parser Shared Draft Symbol) (r : Reader Shared Draft Symbol) (draft : Draft) :
    Reader Shared Draft Symbol :=
  let (symbol, shared) := p.maker.finish draft r.shared
  { r with shared, phase := .factor (.literal symbol) false }

def literal (p : Parser Shared Draft Symbol) (r : Reader Shared Draft Symbol) (c : Char) :
    Reader Shared Draft Symbol :=
  let (draft, shared) := p.maker.start r.shared
  let (draft, shared) := p.maker.edit draft (.including [.single c]) shared
  { r with shared }.complete p draft

def readBase (p : Parser Shared Draft Symbol) (r : Reader Shared Draft Symbol) (c : Char) :
    Except (Halt Shared) (Reader Shared Draft Symbol) :=
  if c = '(' then
    if r.mayOpen p then .ok r.openGroup else r.halt (.tooDeep r.position)
  else if c = '[' then .ok (r.openClass p)
  else if isLiteral c then .ok (r.literal p c)
  else r.unexpected c

def closeGroup (r : Reader Shared Draft Symbol) (t : Regex Symbol) :
    Except (Halt Shared) (Reader Shared Draft Symbol) :=
  match r.outer with
  | [] => r.unexpected ')'
  | e :: outer =>
      .ok { r with
        depth := r.depth - 1
        outer
        inner := e
        phase := .factor (r.inner.push t).tree false }

def readBehindFactor (p : Parser Shared Draft Symbol) (r : Reader Shared Draft Symbol)
    (t : Regex Symbol) (starred : Bool) (c : Char) :
    Except (Halt Shared) (Reader Shared Draft Symbol) :=
  if c = '*' && !starred then .ok { r with phase := .factor (.star t) true }
  else if c = '|' then .ok { r with inner := (r.inner.push t).split, phase := .base }
  else if c = ')' then r.closeGroup t
  else if startsFactor c then { r with inner := r.inner.push t }.readBase p c
  else r.unexpected c

def readMember (r : Reader Shared Draft Symbol) (negated : Bool) (draft : Draft) (c : Char) :
    Except (Halt Shared) (Reader Shared Draft Symbol) :=
  if isMember c then .ok { r with phase := .inClass negated draft (.member c) } else r.unexpected c

def addItem (p : Parser Shared Draft Symbol) (negated : Bool) (draft : Draft) (item : CodePointRange)
    (shared : Shared) : Draft × Shared :=
  p.maker.edit draft (.asking negated [item]) shared

def readBehindItem (p : Parser Shared Draft Symbol) (r : Reader Shared Draft Symbol)
    (negated : Bool) (draft : Draft) (c : Char) :
    Except (Halt Shared) (Reader Shared Draft Symbol) :=
  if c = ']' then .ok (r.complete p draft) else r.readMember negated draft c

def readInClass (p : Parser Shared Draft Symbol) (r : Reader Shared Draft Symbol) (negated : Bool)
    (draft : Draft) (place : Place) (c : Char) :
    Except (Halt Shared) (Reader Shared Draft Symbol) :=
  match place with
  | .bracket =>
      if c = '^' then .ok { r with phase := .inClass true draft .negation }
      else r.readMember negated draft c
  | .negation => r.readMember negated draft c
  | .member first =>
      if c = '-' then .ok { r with phase := .inClass negated draft (.hyphen first) }
      else
        let (draft, shared) := addItem p negated draft (.single first) r.shared
        { r with shared }.readBehindItem p negated draft c
  | .hyphen first =>
      if isLiteral c then
        let (draft, shared) := addItem p negated draft (.between first c) r.shared
        .ok { r with shared, phase := .inClass negated draft .item }
      else r.halt (.openRange r.position)
  | .item => r.readBehindItem p negated draft c

def step (p : Parser Shared Draft Symbol) (r : Reader Shared Draft Symbol) (c : Char) :
    Except (Halt Shared) (Reader Shared Draft Symbol) :=
  match r.phase with
  | .base => r.readBase p c
  | .factor t starred => r.readBehindFactor p t starred c
  | .inClass negated draft place => r.readInClass p negated draft place c

def advance (p : Parser Shared Draft Symbol) (r : Reader Shared Draft Symbol) (c : Char) :
    Except (Halt Shared) (Reader Shared Draft Symbol) :=
  (r.step p c).map fun r => { r with position := r.position + 1 }

def readAll (p : Parser Shared Draft Symbol) (r : Reader Shared Draft Symbol) (cs : List Char) :
    Except (Halt Shared) (Reader Shared Draft Symbol) :=
  cs.foldlM (advance p) r

def finishClass (p : Parser Shared Draft Symbol) (r : Reader Shared Draft Symbol) (negated : Bool)
    (draft : Draft) (place : Place) : Halt Shared :=
  match place with
  | .bracket | .negation => ⟨.unexpected endOfInput r.position, r.shared⟩
  | .member first =>
      let (_, shared) := addItem p negated draft (.single first) r.shared
      ⟨.unclosed ']' r.position, shared⟩
  | .hyphen _ => ⟨.openRange r.position, r.shared⟩
  | .item => ⟨.unclosed ']' r.position, r.shared⟩

def finish (p : Parser Shared Draft Symbol) (r : Reader Shared Draft Symbol) :
    Except (Halt Shared) (List (List (Regex Symbol)) × Shared) :=
  match r.phase with
  | .base => r.unexpected endOfInput
  | .factor t _ =>
      if r.outer.isEmpty then .ok ((r.inner.push t).toAlternatives, r.shared)
      else r.halt (.unclosed ')' r.position)
  | .inClass negated draft place => .error (r.finishClass p negated draft place)

theorem readAll_nil (p : Parser Shared Draft Symbol) (r : Reader Shared Draft Symbol) :
    r.readAll p [] = .ok r := rfl

theorem readAll_cons (p : Parser Shared Draft Symbol) (r : Reader Shared Draft Symbol) (c : Char)
    (cs : List Char) : r.readAll p (c :: cs) = (r.advance p c).bind fun r => r.readAll p cs := by
  simp [readAll, bind]

theorem readAll_append (p : Parser Shared Draft Symbol) (r : Reader Shared Draft Symbol)
    (u v : List Char) : r.readAll p (u ++ v) = (r.readAll p u).bind fun r => r.readAll p v := by
  simp [readAll, bind]

end Reader

end Pattern

end RegexTree
