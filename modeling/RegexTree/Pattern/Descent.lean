import RegexTree.Pattern.Parser

/-!
Reads a pattern by routines that call one another, one for each part of an expression. They share a
cursor over the text, and the course of a reading keeps every moment at which a routine begins, a loop
comes round, a character is read or a group is opened or closed.

The routines run on fuel, which every call and every turn of a loop takes one of.
-/

namespace RegexTree

namespace Pattern

structure Cursor (Shared : Type) where
  shared : Shared
  rest : List Char
  position : Nat := 1
  depth : UInt32 := 0

inductive Routine where
  | expression
  | concatenation
  | factor
  | base
  | group
  | charClass
  | item
deriving DecidableEq, Repr

inductive Loop where
  | alternatives
  | factors
  | items
deriving DecidableEq, Repr

inductive Event where
  | begins (routine : Routine)
  | turns (loop : Loop)
  | reads (c : Char)
  | opens
  | closes
deriving DecidableEq, Repr

structure Moment (Shared : Type) where
  event : Event
  cursor : Cursor Shared

/-- Where the cursor stands, and the moments it has been through with the latest first. -/
structure Course (Shared : Type) where
  cursor : Cursor Shared
  moments : List (Moment Shared) := []

variable {Shared Draft Symbol : Type}

def Cursor.mayOpen (p : Parser Shared Draft Symbol) (k : Cursor Shared) : Bool :=
  match p.limit with
  | none => true
  | some limit => k.depth.toNat < limit

def Cursor.fuel (k : Cursor Shared) : Nat := 11 * k.rest.length + 11

def saturatingPredecessor (x : UInt32) : UInt32 := if x = 0 then 0 else x - 1

namespace Course

def pass (s : Course Shared) (event : Event) (cursor : Cursor Shared) : Course Shared :=
  { cursor, moments := ⟨event, cursor⟩ :: s.moments }

def mark (s : Course Shared) (event : Event) : Course Shared := s.pass event s.cursor

def advance (s : Course Shared) : Course Shared :=
  match s.cursor.rest with
  | [] => s
  | c :: rest => s.pass (.reads c) { s.cursor with rest, position := s.cursor.position + 1 }

def advanceIf (s : Course Shared) (c : Char) : Course Shared :=
  if s.cursor.rest.head? = some c then s.advance else s

def openGroup (s : Course Shared) : Course Shared :=
  s.pass .opens { s.cursor with depth := s.cursor.depth + 1 }

def closeGroup (s : Course Shared) : Course Shared :=
  s.pass .closes { s.cursor with depth := saturatingPredecessor s.cursor.depth }

def withShared (s : Course Shared) (shared : Shared) : Course Shared :=
  { s with cursor := { s.cursor with shared } }

end Course

abbrev Descent (Shared : Type) := ExceptT ParseError (StateT (Course Shared) Option)

namespace Descent

def starve {α : Type} : Descent Shared α := fun _ => none

def see : Descent Shared (Cursor Shared) := return (← get).cursor

def peek : Descent Shared (Option Char) := return (← see).rest.head?

def mark (event : Event) : Descent Shared Unit := modify fun s => s.mark event

def advance : Descent Shared Unit := modify Course.advance

def advanceIf (c : Char) : Descent Shared Bool := do
  let next ← peek
  modify fun s => s.advanceIf c
  return next = some c

def ask {α : Type} (call : Shared → α × Shared) : Descent Shared α := do
  let (a, shared) := call (← see).shared
  modify fun s => s.withShared shared
  return a

def unexpected {α : Type} : Descent Shared α := do
  let k ← see
  throw (.unexpected (k.rest.head?.getD endOfInput) k.position)

def expect (c : Char) : Descent Shared Unit := do
  match ← peek with
  | none => throw (.unclosed c (← see).position)
  | some d => if d = c then advance else unexpected

def openGroup (p : Parser Shared Draft Symbol) : Descent Shared Unit := do
  let k ← see
  if k.mayOpen p then modify Course.openGroup else throw (.tooDeep k.position)

def closeGroup : Descent Shared Unit := modify Course.closeGroup

def rangeEnd : Descent Shared Char := do
  match ← peek with
  | none => throw (.openRange (← see).position)
  | some last =>
      if isLiteral last then
        advance
        return last
      else throw (.openRange (← see).position)

def item : Descent Shared CodePointRange := do
  mark (.begins .item)
  match ← peek with
  | none => unexpected
  | some first =>
      if isMember first then
        advance
        if ← advanceIf '-' then return .between first (← rangeEnd) else return .single first
      else unexpected

def items (p : Parser Shared Draft Symbol) (negated : Bool) :
    Nat → Draft → Descent Shared Draft
  | 0, _ => starve
  | n + 1, draft => do
      mark (.turns .items)
      let range ← item
      let draft ← ask (p.maker.edit draft (.asking negated [range]))
      match ← peek with
      | none => return draft
      | some c => if isMember c then items p negated n draft else return draft

def charClass (p : Parser Shared Draft Symbol) : Nat → Descent Shared (Regex Symbol)
  | 0 => starve
  | n + 1 => do
      mark (.begins .charClass)
      advance
      let negated ← advanceIf '^'
      let draft ← items p negated n (← ask p.maker.start)
      expect ']'
      return .literal (← ask (p.maker.finish draft))

def literal (p : Parser Shared Draft Symbol) (c : Char) : Descent Shared (Regex Symbol) := do
  let draft ← ask p.maker.start
  let draft ← ask (p.maker.edit draft (.including [.single c]))
  return .literal (← ask (p.maker.finish draft))

mutual

def expression (p : Parser Shared Draft Symbol) : Nat → Descent Shared (Regex Symbol)
  | 0 => starve
  | n + 1 => do
      mark (.begins .expression)
      alternatives p n (← concatenation p n)

def alternatives (p : Parser Shared Draft Symbol) :
    Nat → Regex Symbol → Descent Shared (Regex Symbol)
  | 0, _ => starve
  | n + 1, t => do
      mark (.turns .alternatives)
      match ← peek with
      | none => return t
      | some c =>
          if c = '|' then
            advance
            alternatives p n (.alternation t (← concatenation p n))
          else if c = ')' then return t
          else unexpected

def concatenation (p : Parser Shared Draft Symbol) : Nat → Descent Shared (Regex Symbol)
  | 0 => starve
  | n + 1 => do
      mark (.begins .concatenation)
      factors p n (← factor p n)

def factors (p : Parser Shared Draft Symbol) : Nat → Regex Symbol → Descent Shared (Regex Symbol)
  | 0, _ => starve
  | n + 1, t => do
      mark (.turns .factors)
      match ← peek with
      | none => return t
      | some c =>
          if startsFactor c then factors p n (.concatenation t (← factor p n))
          else if c = ')' || c = '|' then return t
          else unexpected

def factor (p : Parser Shared Draft Symbol) : Nat → Descent Shared (Regex Symbol)
  | 0 => starve
  | n + 1 => do
      mark (.begins .factor)
      let t ← base p n
      match ← peek with
      | none => return t
      | some c =>
          if c = '*' then
            advance
            return .star t
          else if c = ')' || c = '|' || startsFactor c then return t
          else unexpected

def base (p : Parser Shared Draft Symbol) : Nat → Descent Shared (Regex Symbol)
  | 0 => starve
  | n + 1 => do
      mark (.begins .base)
      match ← peek with
      | none => unexpected
      | some c =>
          if c = '(' then group p n
          else if c = '[' then charClass p n
          else if isLiteral c then
            advance
            literal p c
          else unexpected

def group (p : Parser Shared Draft Symbol) : Nat → Descent Shared (Regex Symbol)
  | 0 => starve
  | n + 1 => do
      mark (.begins .group)
      openGroup p
      advance
      let t ← expression p n
      expect ')'
      closeGroup
      return t

end

def whole (p : Parser Shared Draft Symbol) (n : Nat) : Descent Shared (Regex Symbol) := do
  let t ← expression p n
  match ← peek with
  | none => return t
  | some _ => unexpected

def call (p : Parser Shared Draft Symbol) (n : Nat) : Routine → Descent Shared Unit
  | .expression => discard (expression p n)
  | .concatenation => discard (concatenation p n)
  | .factor => discard (factor p n)
  | .base => discard (base p n)
  | .group => discard (group p n)
  | .charClass => discard (charClass p n)
  | .item => discard item

end Descent

end Pattern

namespace Parser

open Pattern

variable {Shared Draft Symbol : Type}

def descend (p : Parser Shared Draft Symbol) (shared : Shared) (cs : List Char) :
    Option (Except ParseError (Regex Symbol) × Course Shared) :=
  let start : Course Shared := { cursor := { shared, rest := cs } }
  if cs = ['ε'] then some (.ok .emptyWord, start)
  else if cs = ['∅'] then some (.ok .emptySet, start)
  else (Descent.whole p start.cursor.fuel).run.run start

end Parser

end RegexTree
