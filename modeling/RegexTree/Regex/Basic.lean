namespace RegexTree

inductive Regex (α : Type) where
  | emptyWord
  | emptySet
  | literal (symbol : α)
  | concatenation (left right : Regex α)
  | alternation (left right : Regex α)
  | star (inner : Regex α)
deriving DecidableEq, Repr

namespace Regex

variable {α β γ : Type}

def map (f : α → β) : Regex α → Regex β
  | .emptyWord => .emptyWord
  | .emptySet => .emptySet
  | .literal a => .literal (f a)
  | .concatenation l r => .concatenation (l.map f) (r.map f)
  | .alternation l r => .alternation (l.map f) (r.map f)
  | .star t => .star (t.map f)

theorem map_map (f : α → β) (g : β → γ) (t : Regex α) : (t.map f).map g = t.map (g ∘ f) := by
  induction t with
  | emptyWord | emptySet => rfl
  | literal a => rfl
  | concatenation l r ihl ihr | alternation l r ihl ihr => simp [map, ihl, ihr]
  | star t ih => simp [map, ih]

def concat : List (Regex α) → Regex α
  | [] => .emptyWord
  | t :: ts => ts.foldl .concatenation t

def union : List (Regex α) → Regex α
  | [] => .emptySet
  | t :: ts => ts.foldl .alternation t

def ofAlternatives (alternatives : List (List (Regex α))) : Regex α :=
  union (alternatives.map concat)

theorem map_foldl_concatenation (f : α → β) (ts : List (Regex α)) (t : Regex α) :
    (ts.foldl .concatenation t).map f = (ts.map (map f)).foldl .concatenation (t.map f) := by
  induction ts generalizing t with
  | nil => rfl
  | cons u ts ih => simp [ih, map]

theorem map_foldl_alternation (f : α → β) (ts : List (Regex α)) (t : Regex α) :
    (ts.foldl .alternation t).map f = (ts.map (map f)).foldl .alternation (t.map f) := by
  induction ts generalizing t with
  | nil => rfl
  | cons u ts ih => simp [ih, map]

theorem map_concat (f : α → β) (ts : List (Regex α)) : (concat ts).map f = concat (ts.map (map f)) := by
  cases ts with
  | nil => rfl
  | cons t ts => exact map_foldl_concatenation f ts t

theorem map_union (f : α → β) (ts : List (Regex α)) : (union ts).map f = union (ts.map (map f)) := by
  cases ts with
  | nil => rfl
  | cons t ts => exact map_foldl_alternation f ts t

theorem map_ofAlternatives (f : α → β) (as : List (List (Regex α))) :
    (ofAlternatives as).map f = ofAlternatives (as.map (List.map (map f))) := by
  simp only [ofAlternatives, map_union, List.map_map]
  congr 1
  exact List.map_congr_left fun ts _ => map_concat f ts

def prependLiterals : Regex α → List α → List α
  | .emptyWord, rest => rest
  | .emptySet, rest => rest
  | .literal a, rest => a :: rest
  | .concatenation l r, rest => l.prependLiterals (r.prependLiterals rest)
  | .alternation l r, rest => l.prependLiterals (r.prependLiterals rest)
  | .star t, rest => t.prependLiterals rest

def literals (t : Regex α) : List α := t.prependLiterals []

theorem prependLiterals_eq (t : Regex α) (rest : List α) :
    t.prependLiterals rest = t.literals ++ rest := by
  unfold literals
  induction t generalizing rest with
  | emptyWord | emptySet => rfl
  | literal a => rfl
  | concatenation l r ihl ihr | alternation l r ihl ihr =>
      simp only [prependLiterals]
      rw [ihr rest, ihl, ihl (r.prependLiterals []), List.append_assoc]
  | star t ih => exact ih rest

@[simp] theorem literals_literal (a : α) : (literal a).literals = [a] := rfl

@[simp] theorem literals_concatenation (l r : Regex α) :
    (concatenation l r).literals = l.literals ++ r.literals :=
  prependLiterals_eq l _

@[simp] theorem literals_alternation (l r : Regex α) :
    (alternation l r).literals = l.literals ++ r.literals :=
  prependLiterals_eq l _

@[simp] theorem literals_star (t : Regex α) : (star t).literals = t.literals := rfl

end Regex

end RegexTree
