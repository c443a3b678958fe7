import RegexTree.Pattern.Leaf
import RegexTree.Regex.Basic

namespace RegexTree

namespace Regex

variable {α β S : Type}

def build (make : α → S → β × S) : Regex α → S → Regex β × S
  | .emptyWord, s => (.emptyWord, s)
  | .emptySet, s => (.emptySet, s)
  | .literal a, s => (.literal (make a s).1, (make a s).2)
  | .concatenation l r, s =>
      let left := l.build make s
      let right := r.build make left.2
      (.concatenation left.1 right.1, right.2)
  | .alternation l r, s =>
      let left := l.build make s
      let right := r.build make left.2
      (.alternation left.1 right.1, right.2)
  | .star t, s => (.star (t.build make s).1, (t.build make s).2)

theorem build_of_stateless {make : α → S → β × S} {f : α → β} {s : S}
    (h : ∀ a, make a s = (f a, s)) (t : Regex α) : t.build make s = (t.map f, s) := by
  induction t with
  | emptyWord | emptySet => rfl
  | literal a => simp [build, map, h]
  | concatenation l r ihl ihr | alternation l r ihl ihr => simp [build, map, ihl, ihr]
  | star t ih => simp [build, map, ih]

theorem concat_concat {ts : List (Regex α)} (h : ts ≠ []) (t : Regex α) :
    concat (ts ++ [t]) = .concatenation (concat ts) t := by
  cases ts with
  | nil => contradiction
  | cons u ts => simp [concat, List.foldl_append]

theorem ofAlternatives_concat {as : List (List (Regex α))} (h : as ≠ []) (ts : List (Regex α)) :
    ofAlternatives (as ++ [ts]) = .alternation (ofAlternatives as) (concat ts) := by
  cases as with
  | nil => contradiction
  | cons us as => simp [ofAlternatives, union, List.foldl_append]

end Regex

namespace SymbolMaker

variable {Shared Draft Symbol : Type} (m : SymbolMaker Shared Draft Symbol)

def editAll (d : Draft × Shared) (edits : List Edit) : Draft × Shared :=
  edits.foldl (fun d e => m.edit d.1 e d.2) d

theorem editAll_concat (d : Draft × Shared) (edits : List Edit) (e : Edit) :
    m.editAll d (edits ++ [e]) = m.edit (m.editAll d edits).1 e (m.editAll d edits).2 := by
  simp [editAll, List.foldl_append]

def make (edits : List Edit) (shared : Shared) : Symbol × Shared :=
  let d := m.editAll (m.start shared) edits
  m.finish d.1 d.2

def makeTree (t : Regex Pattern.Leaf) (shared : Shared) : Regex Symbol × Shared :=
  t.build (fun l => m.make l.edits) shared

def makeAll (made : List (List Edit)) (shared : Shared) : Shared :=
  made.foldl (fun shared edits => (m.make edits shared).2) shared

theorem makeAll_append (made made' : List (List Edit)) (shared : Shared) :
    m.makeAll (made ++ made') shared = m.makeAll made' (m.makeAll made shared) := by
  simp [makeAll, List.foldl_append]

theorem shared_makeTree (t : Regex Pattern.Leaf) (shared : Shared) :
    (m.makeTree t shared).2 = m.makeAll (t.literals.map Pattern.Leaf.edits) shared := by
  induction t generalizing shared with
  | emptyWord | emptySet => rfl
  | literal l => rfl
  | concatenation l r ihl ihr | alternation l r ihl ihr =>
      simp only [makeTree, Regex.build, Regex.literals_concatenation, Regex.literals_alternation,
        List.map_append, makeAll_append] at ihl ihr ⊢
      rw [ihl, ihr]
  | star t ih => exact ih shared

theorem editAll_ofFold (blank : Draft) (edit : Draft → Edit → Draft) (finish : Draft → Symbol)
    (draft : Draft) (edits : List Edit) :
    (ofFold blank edit finish).editAll (draft, ()) edits = (edits.foldl edit draft, ()) := by
  induction edits generalizing draft with
  | nil => rfl
  | cons e edits ih => exact ih (edit draft e)

theorem makeTree_ofFold (blank : Draft) (edit : Draft → Edit → Draft) (finish : Draft → Symbol)
    (t : Regex Pattern.Leaf) :
    (ofFold blank edit finish).makeTree t () =
      (t.map fun l => finish (l.edits.foldl edit blank), ()) := by
  refine Regex.build_of_stateless ?_ t
  intro l
  have hedits := editAll_ofFold blank edit finish blank l.edits
  change (ofFold blank edit finish).finish ((ofFold blank edit finish).editAll (blank, ()) l.edits).1
    ((ofFold blank edit finish).editAll (blank, ()) l.edits).2 = _
  rw [hedits]
  rfl

theorem makeTree_transcript (t : Regex Pattern.Leaf) :
    transcript.makeTree t () = (t.map Pattern.Leaf.edits, ()) := by
  rw [transcript, makeTree_ofFold]
  simp only [List.foldl_append_eq_append, ← List.flatMap_def, List.flatMap_singleton',
    List.nil_append, id]

end SymbolMaker

end RegexTree
