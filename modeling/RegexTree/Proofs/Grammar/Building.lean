import RegexTree.Pattern.Grammar
import RegexTree.Pattern.Reader
import RegexTree.Proofs.Symbol.Making

namespace RegexTree.Pattern

variable {Shared Draft Symbol : Type} {m : SymbolMaker Shared Draft Symbol}
  {s s' s'' : Shared} {t t' : Regex Symbol} {u v w : List Char}

def Builds (m : SymbolMaker Shared Draft Symbol) (part : Part) (u : List Char) (s : Shared)
    (t : Regex Symbol) (s' : Shared) : Prop :=
  ∃ l, Derives part u l ∧ m.makeTree l s = (t, s')

namespace Builds

theorem alternative (h : Builds m .concatenation u s t s') : Builds m .expression u s t s' := by
  obtain ⟨l, hl, hmade⟩ := h
  exact ⟨l, .alternative hl, hmade⟩

theorem alternation (h : Builds m .expression u s t s') (h' : Builds m .concatenation v s' t' s'') :
    Builds m .expression (u ++ '|' :: v) s (.alternation t t') s'' := by
  obtain ⟨l, hl, hmade⟩ := h
  obtain ⟨l', hl', hmade'⟩ := h'
  refine ⟨.alternation l l', .alternation hl hl', ?_⟩
  rw [SymbolMaker.makeTree] at hmade hmade' ⊢
  rw [Regex.build, hmade, hmade']

theorem single (h : Builds m .factor u s t s') : Builds m .concatenation u s t s' := by
  obtain ⟨l, hl, hmade⟩ := h
  exact ⟨l, .single hl, hmade⟩

theorem concatenation (h : Builds m .concatenation u s t s') (h' : Builds m .factor v s' t' s'') :
    Builds m .concatenation (u ++ v) s (.concatenation t t') s'' := by
  obtain ⟨l, hl, hmade⟩ := h
  obtain ⟨l', hl', hmade'⟩ := h'
  refine ⟨.concatenation l l', .concatenation hl hl', ?_⟩
  rw [SymbolMaker.makeTree] at hmade hmade' ⊢
  rw [Regex.build, hmade, hmade']

theorem once (h : Builds m .base u s t s') : Builds m .factor u s t s' := by
  obtain ⟨l, hl, hmade⟩ := h
  exact ⟨l, .once hl, hmade⟩

theorem star (h : Builds m .base u s t s') : Builds m .factor (u ++ ['*']) s (.star t) s' := by
  obtain ⟨l, hl, hmade⟩ := h
  refine ⟨.star l, .star hl, ?_⟩
  rw [SymbolMaker.makeTree] at hmade ⊢
  rw [Regex.build, hmade]

theorem leaf {l : Leaf} {symbol : Symbol} (hl : l.Valid) (h : m.make l.edits s = (symbol, s')) :
    Builds m .base l.chars s (.literal symbol) s' := by
  refine ⟨.literal l, .leaf hl, ?_⟩
  rw [SymbolMaker.makeTree, Regex.build, h]

theorem group (h : Builds m .expression u s t s') : Builds m .base ('(' :: u ++ [')']) s t s' := by
  obtain ⟨l, hl, hmade⟩ := h
  exact ⟨l, .group hl, hmade⟩

end Builds

inductive Factors (m : SymbolMaker Shared Draft Symbol) (s : Shared) :
    List Char → List (Regex Symbol) → Shared → Prop
  | nil : Factors m s [] [] s
  | cons {u v fs t s' s''} : Factors m s u fs s' → Builds m .factor v s' t s'' →
      Factors m s (u ++ v) (t :: fs) s''

theorem Factors.builds {fs : List (Regex Symbol)} (h : Factors m s u fs s') (hfs : fs ≠ []) :
    Builds m .concatenation u s (Regex.concat fs.reverse) s' := by
  induction h with
  | nil => contradiction
  | @cons u v fs t s' s'' hinit hlast ih =>
      cases hinit with
      | nil => exact hlast.single
      | cons hinit hfactor =>
          rw [List.reverse_cons, Regex.concat_concat (by simp)]
          exact (ih (by simp)).concatenation hlast

inductive Alternatives (m : SymbolMaker Shared Draft Symbol) (s : Shared) :
    List Char → List (List (Regex Symbol)) → Shared → Prop
  | nil : Alternatives m s [] [] s
  | cons {u v as fs s' s''} : Alternatives m s u as s' → Factors m s' v fs s'' → fs ≠ [] →
      Alternatives m s (u ++ v ++ ['|']) (fs.reverse :: as) s''

theorem Alternatives.builds {as : List (List (Regex Symbol))} {fs : List (Regex Symbol)}
    (h : Alternatives m s u as s') (hlast : Factors m s' v fs s'') (hfs : fs ≠ []) :
    Builds m .expression (u ++ v) s (Regex.ofAlternatives (fs.reverse :: as).reverse) s'' := by
  induction h generalizing v fs s'' with
  | nil => exact (hlast.builds hfs).alternative
  | @cons u w as gs s' s₁ hinit hprevious hgs ih =>
      rw [List.reverse_cons, Regex.ofAlternatives_concat (by simp)]
      simpa using (ih hprevious hgs).alternation (hlast.builds hfs)

inductive Opened (m : SymbolMaker Shared Draft Symbol) (s : Shared) (e : Expression Symbol)
    (s' : Shared) : List Char → Prop
  | mk {u v s₁} : Alternatives m s u e.alternatives s₁ → Factors m s₁ v e.factors s' →
      Opened m s e s' (u ++ v)

namespace Opened

variable {e : Expression Symbol}

theorem nil : Opened m s ({} : Expression Symbol) s [] :=
  .mk (u := []) (v := []) .nil .nil

theorem push (h : Opened m s e s' u) (h' : Builds m .factor v s' t s'') :
    Opened m s (e.push t) s'' (u ++ v) := by
  obtain ⟨has, hfs⟩ := h
  have hopened : Opened m s (e.push t) s'' _ := .mk has (hfs.cons h')
  simpa using hopened

theorem split (h : Opened m s e s' u) (he : e.factors ≠ []) :
    Opened m s e.split s' (u ++ ['|']) := by
  obtain ⟨has, hfs⟩ := h
  have hopened : Opened m s e.split s' _ := .mk (has.cons hfs he) .nil
  simpa using hopened

theorem builds (h : Opened m s e s' u) (he : e.factors ≠ []) :
    Builds m .expression u s e.tree s' := by
  obtain ⟨has, hfs⟩ := h
  exact has.builds hfs he

end Opened

end RegexTree.Pattern
