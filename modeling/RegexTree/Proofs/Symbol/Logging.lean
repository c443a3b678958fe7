import RegexTree.Proofs.Symbol.Making
import RegexTree.Symbol.CallLog

namespace RegexTree

def Edit.OneWay (edits : List Edit) : Prop := ∃ out, ∀ e ∈ edits, ∃ r, e = asking out [r]

namespace Call

def opening (id : Nat) (edits : List Edit) : List Call := .start id :: edits.map (.edit id)

def block (id : Nat) (edits : List Edit) : List Call := opening id edits ++ [.finish id]

def blocks (id : Nat) : List (List Edit) → List Call
  | [] => []
  | edits :: rest => block id edits ++ blocks (id + 1) rest

end Call

namespace CallLog

def extend (log : CallLog) (started : Nat) (calls : List Call) : CallLog :=
  { started := log.started + started, calls := log.calls ++ calls }

@[simp] theorem started_extend (log : CallLog) (n : Nat) (calls : List Call) :
    (log.extend n calls).started = log.started + n := rfl

@[simp] theorem toList_extend (log : CallLog) (n : Nat) (calls : List Call) :
    (log.extend n calls).calls.toList = log.calls.toList ++ calls := by
  simp [extend]

theorem extend_extend (log : CallLog) (n n' : Nat) (calls calls' : List Call) :
    (log.extend n calls).extend n' calls' = log.extend (n + n') (calls ++ calls') := by
  have hcalls : log.calls ++ calls ++ calls' = log.calls ++ (calls ++ calls') :=
    Array.toList_inj.mp (by simp)
  rw [extend, extend, extend, hcalls, Nat.add_assoc]

theorem extend_nil (log : CallLog) : log.extend 0 [] = log := by
  simp [extend]

theorem add_eq_extend (log : CallLog) (call : Call) : log.add call = log.extend 0 [call] := by
  simp [add, extend]

end CallLog

namespace SymbolMaker

theorem editAll_logging (id : Nat) (log : CallLog) (edits : List Edit) :
    logging.editAll (id, log) edits = (id, log.extend 0 (edits.map (.edit id))) := by
  induction edits generalizing log with
  | nil => simp [editAll, CallLog.extend_nil]
  | cons e edits ih =>
      have hnext : logging.editAll (id, log) (e :: edits) =
          logging.editAll (id, log.add (.edit id e)) edits := rfl
      rw [hnext, ih, CallLog.add_eq_extend, CallLog.extend_extend]
      rfl

theorem open_logging (log : CallLog) (edits : List Edit) :
    logging.editAll (logging.start log) edits =
      (log.started + 1, log.extend 1 (Call.opening (log.started + 1) edits)) := by
  have hstart : logging.start log = (log.started + 1, log.extend 1 [.start (log.started + 1)]) := by
    simp [logging, CallLog.add, CallLog.extend]
  rw [hstart, editAll_logging, CallLog.extend_extend]
  rfl

theorem make_logging (log : CallLog) (edits : List Edit) :
    logging.make edits log =
      (log.started + 1, log.extend 1 (Call.block (log.started + 1) edits)) := by
  rw [make, open_logging]
  refine Prod.ext rfl ?_
  change (log.extend 1 _).add (.finish (log.started + 1)) = _
  rw [CallLog.add_eq_extend, CallLog.extend_extend]
  rfl

theorem makeAll_logging (made : List (List Edit)) (log : CallLog) :
    logging.makeAll made log = log.extend made.length (Call.blocks (log.started + 1) made) := by
  induction made generalizing log with
  | nil => exact log.extend_nil.symm
  | cons edits made ih =>
      have hnext : logging.makeAll (edits :: made) log =
          logging.makeAll made (logging.make edits log).2 := rfl
      rw [hnext, ih, make_logging, CallLog.extend_extend, Nat.add_comm, List.length_cons]
      rfl

theorem shared_makeTree_logging (t : Regex Pattern.Leaf) (log : CallLog) :
    (logging.makeTree t log).2 = log.extend t.literals.length
      (Call.blocks (log.started + 1) (t.literals.map Pattern.Leaf.edits)) := by
  rw [shared_makeTree, makeAll_logging, List.length_map]

theorem literals_makeTree_logging (t : Regex Pattern.Leaf) (log : CallLog) :
    (logging.makeTree t log).1.literals = List.range' (log.started + 1) t.literals.length := by
  induction t generalizing log with
  | emptyWord | emptySet => rfl
  | literal l =>
      rw [makeTree, Regex.build, make_logging]
      rfl
  | concatenation l r ihl ihr | alternation l r ihl ihr =>
      have hnext : (logging.makeTree l log).2.started + 1 = log.started + 1 + l.literals.length := by
        rw [shared_makeTree_logging, CallLog.started_extend]
        omega
      simp only [makeTree, Regex.build, Regex.literals_concatenation, Regex.literals_alternation,
        List.length_append] at ihl ihr hnext ⊢
      rw [ihl, ihr, hnext, List.range'_append_1]
  | star t ih => exact ih log

end SymbolMaker

end RegexTree
