import RegexTree.Symbol.Maker

namespace RegexTree

inductive Call where
  | start (id : Nat)
  | edit (id : Nat) (e : Edit)
  | finish (id : Nat)
deriving DecidableEq, Repr

structure CallLog where
  started : Nat := 0
  calls : Array Call := #[]
deriving DecidableEq, Repr

def CallLog.add (log : CallLog) (call : Call) : CallLog := { log with calls := log.calls.push call }

def SymbolMaker.logging : SymbolMaker CallLog Nat Nat where
  start log :=
    let id := log.started + 1
    (id, { log.add (.start id) with started := id })
  edit id e log := (id, log.add (.edit id e))
  finish id log := (id, log.add (.finish id))

end RegexTree
