import RegexTree.CodePoint.Difference

namespace RegexTree.CodePointRange

def checkedPredecessor (x : UInt32) : Option UInt32 := if x = 0 then none else some (x - 1)

def checkedSuccessor (x : UInt32) : Option UInt32 := if x = 0xFFFFFFFF then none else some (x + 1)

structure Sweep where
  left : Array CodePointRange := #[]
  start : Option UInt32 := none
deriving DecidableEq, Repr

namespace Sweep

def enter (s : Sweep) (r : CodePointRange) : Sweep := { s with start := some r.first }

def keepBefore (s : Sweep) (first : UInt32) (cut : CodePointRange) : Option (Array CodePointRange) :=
  if first < cut.first then do
    let last ← checkedPredecessor cut.first
    return s.left.push ⟨first, last⟩
  else return s.left

def startBehind (first last : UInt32) (cut : CodePointRange) : Option (Option UInt32) :=
  if cut.last < last then do
    let next ← checkedSuccessor cut.last
    return some (max first next)
  else return none

def step (last : UInt32) (s : Sweep) (cut : CodePointRange) : Option Sweep :=
  match s.start with
  -- A range of which nothing is left is not cut any further.
  | none => return s
  | some first => do
      let left ← s.keepBefore first cut
      let start ← startBehind first last cut
      return { left, start }

def leave (last : UInt32) (s : Sweep) : Sweep :=
  match s.start with
  | none => s
  | some first => { left := s.left.push ⟨first, last⟩ }

def pass (removed : List CodePointRange) (s : Sweep) (r : CodePointRange) : Option Sweep := do
  let s ← (removed.filter r.overlaps).foldlM (step r.last) (s.enter r)
  return s.leave r.last

end Sweep

def sweep (base removed : List CodePointRange) : Option (List CodePointRange) := do
  let s ← base.foldlM (Sweep.pass removed) {}
  return s.left.toList

end RegexTree.CodePointRange
