import RegexTree.Proofs.Grammar.Language
import RegexTree.Proofs.Grammar.Pieces

namespace RegexTree

def splice {α : Type} (as bs : List (List α)) : List (List α) :=
  as.dropLast ++ bs.modifyHead (as.getLastD [] ++ ·)

theorem splice_concat {α : Type} (as : List (List α)) (a : List α) (bs : List (List α)) :
    splice (as ++ [a]) bs = as ++ bs.modifyHead (a ++ ·) := by
  simp [splice]

variable {Shared Draft Symbol : Type} {p : Parser Shared Draft Symbol}
  {m : SymbolMaker Shared Draft Symbol} {s s' s'' : Shared}

namespace Pattern

variable {u v : List Char} {us vs : List (List Char)} {fs gs : List (Regex Symbol)}
  {as bs : List (List (Regex Symbol))}

theorem Factors.append (h : Factors m s u fs s') (h' : Factors m s' v gs s'') :
    Factors m s (u ++ v) (gs ++ fs) s'' := by
  induction h' with
  | nil => simpa using h
  | cons _ hlast ih =>
      rw [← List.append_assoc]
      exact ih.cons hlast

theorem Factors.unbarred (h : Factors m s u fs s') : Unbarred u := by
  induction h with
  | nil => exact .nil
  | cons _ hlast ih =>
      obtain ⟨l, hl, -⟩ := hlast
      exact ih.append (.of_factor hl)

inductive Rows (m : SymbolMaker Shared Draft Symbol) :
    Shared → List (List Char) → List (List (Regex Symbol)) → Shared → Prop
  | nil (s : Shared) : Rows m s [] [] s
  | cons {s s' s'' : Shared} {u us fs as} : Factors m s u fs s' → fs ≠ [] → Rows m s' us as s'' →
      Rows m s (u :: us) (fs.reverse :: as) s''

namespace Rows

theorem single (h : Factors m s u fs s') (hfs : fs ≠ []) : Rows m s [u] [fs.reverse] s' :=
  .cons h hfs (.nil _)

theorem append (h : Rows m s us as s') (h' : Rows m s' vs bs s'') :
    Rows m s (us ++ vs) (as ++ bs) s'' := by
  induction h with
  | nil => exact h'
  | cons hrow hfs _ ih => exact .cons hrow hfs (ih h')

theorem splice (h : Rows m s us as s') (hrow : Factors m s' u fs s'') (hfs : fs ≠ [])
    {s₃ : Shared} (h' : Rows m s'' vs bs s₃) (hvs : vs ≠ []) :
    Rows m s (us ++ vs.modifyHead (u ++ ·)) (as ++ bs.modifyHead (fs.reverse ++ ·)) s₃ := by
  refine h.append ?_
  cases h' with
  | nil => contradiction
  | cons hnext _ hrest =>
      have hjoined := Rows.cons (hrow.append hnext) (by simp [hfs]) hrest
      simpa using hjoined

end Rows

theorem Alternatives.rows (h : Alternatives m s u as s') :
    ∃ us, Rows m s us as.reverse s' ∧
      ∀ w, Nesting.pieces {} (u ++ w) = us ++ Nesting.pieces {} w := by
  induction h with
  | nil => exact ⟨[], .nil s, fun w => rfl⟩
  | @cons u v as fs s' s'' _ hrow hfs ih =>
      obtain ⟨us, hrows, hpieces⟩ := ih
      refine ⟨us ++ [v], ?_, fun w => ?_⟩
      · rw [List.reverse_cons]
        exact hrows.append (.single hrow hfs)
      · rw [List.append_assoc, List.append_assoc, List.singleton_append, hpieces,
          hrow.unbarred.pieces_append, Nesting.pieces_bar]
        simp

theorem Opened.rows {e : Expression Symbol} (h : Opened m s e s' u) (he : e.factors ≠ []) :
    ∃ us v as fs s₁, Rows m s us as s₁ ∧ Factors m s₁ v fs s' ∧ fs ≠ [] ∧
      e.toAlternatives = as ++ [fs.reverse] ∧
      ∀ w, Nesting.pieces {} (u ++ w) = us ++ (Nesting.pieces {} w).modifyHead (v ++ ·) := by
  obtain ⟨has, hrow⟩ := h
  obtain ⟨us, hrows, hpieces⟩ := has.rows
  refine ⟨us, _, _, _, _, hrows, hrow, he, ?_, fun w => ?_⟩
  · simp [Expression.toAlternatives, Expression.split]
  · rw [List.append_assoc, hpieces, hrow.unbarred.pieces_append]

namespace Reader

variable {r : Reader Shared Draft Symbol}

theorem reaches_factors (hlimit : p.limit = none) (h : Factors p.maker s u fs s') (hfs : fs ≠ [])
    (hphase : r.phase = .base) (hs : r.shared = s) (hempty : r.inner.factors = []) :
    ∃ t gs starred, fs = t :: gs ∧ Reaches p r u { r with
      shared := s'
      inner := { r.inner with factors := gs }
      phase := .factor t starred } := by
  induction h with
  | nil => contradiction
  | @cons u v fs t s₁ s₂ hinit hlast ih =>
      obtain ⟨l, hl, hmade⟩ := hlast
      have hcarries : Carries p .factor v l := carries_of_derives hlimit hl
      cases hinit with
      | nil =>
          obtain ⟨starred, hreach⟩ := hcarries r r (.base hphase)
          rw [hs, hmade] at hreach
          refine ⟨t, [], starred, rfl, ?_⟩
          rw [← hempty]
          exact hreach
      | @cons u' v' _ _ _ _ hinit hlast' =>
          obtain ⟨t', gs, starred, hcons, hreach⟩ := ih (by simp)
          obtain ⟨starred', hreach'⟩ := hcarries _ _ (.factor (r := { r with
            shared := s₁
            position := r.position + (u' ++ v').length
            inner := { r.inner with factors := gs }
            phase := .factor t' starred }) rfl)
          simp only [hmade] at hreach'
          refine ⟨t, t' :: gs, starred', by rw [hcons], ?_⟩
          exact hreach.append hreach'

theorem reaches_rows (hlimit : p.limit = none) (h : Rows p.maker s us as s') (hus : us ≠ [])
    (hphase : r.phase = .base) (hs : r.shared = s) (hempty : r.inner.factors = []) :
    ∃ e t starred, (e.push t).split.alternatives = as.reverse ++ r.inner.alternatives ∧
      Reaches p r (['|'].intercalate us) { r with
        shared := s'
        inner := e
        phase := .factor t starred } := by
  induction h generalizing r with
  | nil => contradiction
  | @cons s s₁ s₂ u us fs as hrow hfs hrest ih =>
      obtain ⟨t, gs, starred, rfl, hreach⟩ := reaches_factors hlimit hrow hfs hphase hs hempty
      cases us with
      | nil =>
          cases hrest
          rw [List.intercalate_singleton]
          exact ⟨_, t, starred, rfl, hreach⟩
      | cons v us =>
          -- Behind the bar a row begins as the first one did, with one alternative more set aside.
          obtain ⟨e, t', starred', halternatives, hreach'⟩ := ih (r := { r with
            shared := s₁
            position := r.position + u.length + 1
            inner := ({ r.inner with factors := gs }.push t).split
            phase := .base }) (by simp) rfl rfl rfl
          refine ⟨e, t', starred', ?_, ?_⟩
          · rw [halternatives]
            simp [Expression.split, Expression.push]
          · rw [List.intercalate_cons_cons, List.append_assoc]
            exact hreach.append (.cons (.split rfl) hreach')

end Reader

end Pattern

namespace Parser

open Pattern

variable {cs w : List Char} {as bs : List (List (Regex Symbol))}

theorem alternatives_of_rows (hlimit : p.limit = none)
    (h : Rows p.maker s (Nesting.pieces {} cs) as s') : p.alternatives s cs = .ok (as, s') := by
  obtain ⟨e, t, starred, halternatives, hreach⟩ :=
    Reader.reaches_rows (r := { shared := s }) hlimit h (Nesting.pieces_ne_nil _ _) rfl rfl rfl
  rw [Nesting.intercalate_pieces] at hreach
  rw [alternatives_eq_bind, run, hreach]
  simp [Except.bind, Reader.finish, Expression.toAlternatives, halternatives]

theorem rows_unique (h : Rows m s (Nesting.pieces {} cs) as s')
    (h' : Rows m s (Nesting.pieces {} cs) bs s'') : as = bs ∧ s' = s'' := by
  have has := alternatives_of_rows (p := ⟨m, none⟩) rfl h
  rw [alternatives_of_rows (p := ⟨m, none⟩) rfl h'] at has
  simpa [eq_comm] using has

theorem opened_rows_of_alternatives (h : p.alternatives s cs = .ok (as, s')) :
    ∃ us v bs fs s₁, Rows p.maker s us bs s₁ ∧ Factors p.maker s₁ v fs s' ∧ fs ≠ [] ∧
      as = bs ++ [fs.reverse] ∧
      ∀ w, Nesting.pieces {} (cs ++ w) = us ++ (Nesting.pieces {} w).modifyHead (v ++ ·) := by
  obtain ⟨r, t, starred, hrun, hphase, houter, ha⟩ := alternatives_eq_ok h
  cases ha
  exact ((spells_of_run hrun).opened hphase houter).rows (by simp [Expression.push])

end Parser

end RegexTree
