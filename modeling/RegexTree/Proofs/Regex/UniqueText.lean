import RegexTree.Proofs.CodePoint.UniqueText
import RegexTree.Regex.Text

namespace RegexTree

namespace Regex

variable {α : Type} {leaf : α → List Char} {t t' l r l' r' : Regex α} {u v : List Char}

structure Bracketed (leaf : α → List Char) : Prop where
  head : ∀ a, ∃ cs, leaf a = '[' :: cs
  append_inj : ∀ {a b u v}, leaf a ++ u = leaf b ++ v → a = b ∧ u = v

def opening : Regex α → Char
  | .emptyWord => 'ε'
  | .emptySet => '∅'
  | .literal _ => '['
  | .concatenation _ _ | .alternation _ _ | .star _ => '('

theorem opening_mem (t : Regex α) : t.opening ∈ ['ε', '∅', '[', '('] := by
  cases t <;> simp [opening]

theorem exists_chars_eq (hleaf : Bracketed leaf) (t : Regex α) :
    ∃ cs, t.chars leaf = t.opening :: cs := by
  cases t with
  | emptyWord | emptySet => exact ⟨[], rfl⟩
  | literal a =>
      rw [chars_literal]
      exact hleaf.head a
  | concatenation l r =>
      rw [chars_concatenation]
      exact ⟨_, rfl⟩
  | alternation l r =>
      rw [chars_alternation]
      exact ⟨_, rfl⟩
  | star t =>
      rw [chars_star]
      exact ⟨_, rfl⟩

theorem opening_eq (hleaf : Bracketed leaf) (h : t.chars leaf ++ u = t'.chars leaf ++ v) :
    t.opening = t'.opening := by
  obtain ⟨cs, hcs⟩ := exists_chars_eq hleaf t
  obtain ⟨cs', hcs'⟩ := exists_chars_eq hleaf t'
  rw [hcs, hcs'] at h
  exact (List.cons.inj h).1

theorem chars_append_ne (hleaf : Bracketed leaf) {c : Char} (hc : c ∉ ['ε', '∅', '[', '(']) :
    t.chars leaf ++ u ≠ c :: v := by
  obtain ⟨cs, hcs⟩ := exists_chars_eq hleaf t
  rw [hcs]
  intro h
  exact hc ((List.cons.inj h).1 ▸ t.opening_mem)

def Unique (leaf : α → List Char) (t : Regex α) : Prop :=
  ∀ ⦃t' u v⦄, t.chars leaf ++ u = t'.chars leaf ++ v → t = t' ∧ u = v

theorem unique_emptyWord (hleaf : Bracketed leaf) : Unique leaf .emptyWord := by
  intro t' u v h
  cases t' with
  | emptyWord => exact ⟨rfl, (List.cons.inj h).2⟩
  | emptySet | literal | concatenation | alternation | star =>
      exact absurd (opening_eq hleaf h) (by simp [opening])

theorem unique_emptySet (hleaf : Bracketed leaf) : Unique leaf .emptySet := by
  intro t' u v h
  cases t' with
  | emptySet => exact ⟨rfl, (List.cons.inj h).2⟩
  | emptyWord | literal | concatenation | alternation | star =>
      exact absurd (opening_eq hleaf h) (by simp [opening])

theorem unique_literal (hleaf : Bracketed leaf) (a : α) : Unique leaf (.literal a) := by
  intro t' u v h
  cases t' with
  | literal b =>
      rw [chars_literal, chars_literal] at h
      obtain ⟨rfl, hrest⟩ := hleaf.append_inj h
      exact ⟨rfl, hrest⟩
  | emptyWord | emptySet | concatenation | alternation | star =>
      exact absurd (opening_eq hleaf h) (by simp [opening])

-- Behind its left tree a concatenation opens another, where an alternation has its bar and a star
-- closes.
theorem unique_concatenation (hleaf : Bracketed leaf) (hl : Unique leaf l) (hr : Unique leaf r) :
    Unique leaf (.concatenation l r) := by
  intro t' u v h
  cases t' with
  | emptyWord | emptySet | literal => exact absurd (opening_eq hleaf h) (by simp [opening])
  | concatenation l' r' =>
      simp only [chars_concatenation, List.cons_append, List.append_assoc, List.cons.injEq,
        true_and] at h
      obtain ⟨rfl, hright⟩ := hl h
      obtain ⟨rfl, hclose⟩ := hr hright
      exact ⟨rfl, (List.cons.inj hclose).2⟩
  | alternation l' r' =>
      simp only [chars_concatenation, chars_alternation, List.cons_append, List.append_assoc,
        List.cons.injEq, true_and] at h
      exact absurd (hl h).2 (chars_append_ne hleaf (by decide))
  | star t' =>
      simp only [chars_concatenation, chars_star, List.cons_append, List.append_assoc,
        List.cons.injEq, true_and] at h
      exact absurd (hl h).2 (chars_append_ne hleaf (by decide))

theorem unique_alternation (hleaf : Bracketed leaf) (hl : Unique leaf l) (hr : Unique leaf r) :
    Unique leaf (.alternation l r) := by
  intro t' u v h
  cases t' with
  | emptyWord | emptySet | literal => exact absurd (opening_eq hleaf h) (by simp [opening])
  | concatenation l' r' =>
      simp only [chars_concatenation, chars_alternation, List.cons_append, List.append_assoc,
        List.cons.injEq, true_and] at h
      exact absurd (hl h).2.symm (chars_append_ne hleaf (by decide))
  | alternation l' r' =>
      simp only [chars_alternation, List.cons_append, List.append_assoc, List.cons.injEq,
        true_and] at h
      obtain ⟨rfl, hright⟩ := hl h
      obtain ⟨rfl, hclose⟩ := hr (List.cons.inj hright).2
      exact ⟨rfl, (List.cons.inj hclose).2⟩
  | star t' =>
      simp only [chars_alternation, chars_star, List.cons_append, List.append_assoc,
        List.cons.injEq, true_and] at h
      exact absurd (List.cons.inj (hl h).2).1 (by decide)

theorem unique_star (hleaf : Bracketed leaf) (ht : Unique leaf t) : Unique leaf (.star t) := by
  intro t' u v h
  cases t' with
  | emptyWord | emptySet | literal => exact absurd (opening_eq hleaf h) (by simp [opening])
  | concatenation l' r' =>
      simp only [chars_concatenation, chars_star, List.cons_append, List.append_assoc,
        List.cons.injEq, true_and] at h
      exact absurd (ht h).2.symm (chars_append_ne hleaf (by decide))
  | alternation l' r' =>
      simp only [chars_alternation, chars_star, List.cons_append, List.append_assoc,
        List.cons.injEq, true_and] at h
      exact absurd (List.cons.inj (ht h).2).1 (by decide)
  | star t' =>
      simp only [chars_star, List.cons_append, List.append_assoc, List.cons.injEq, true_and] at h
      obtain ⟨rfl, hclose⟩ := ht h
      exact ⟨rfl, (List.cons.inj (List.cons.inj hclose).2).2⟩

theorem unique_chars (hleaf : Bracketed leaf) (t : Regex α) : Unique leaf t := by
  induction t with
  | emptyWord => exact unique_emptyWord hleaf
  | emptySet => exact unique_emptySet hleaf
  | literal a => exact unique_literal hleaf a
  | concatenation l r ihl ihr => exact unique_concatenation hleaf ihl ihr
  | alternation l r ihl ihr => exact unique_alternation hleaf ihl ihr
  | star t ih => exact unique_star hleaf ih

end Regex

namespace CodePointSet

theorem bracketed_chars : Regex.Bracketed CodePointSet.chars :=
  ⟨fun _ => ⟨_, rfl⟩, chars_append_inj⟩

theorem toList_text (t : Regex CodePointSet) :
    (t.text CodePointSet.text).toList = t.chars CodePointSet.chars := by
  simp [Regex.text, text]

theorem text_unique (a b : Regex CodePointSet) :
    (a.text CodePointSet.text = b.text CodePointSet.text → a = b) ∧
      ∀ rest : String, b.text CodePointSet.text = a.text CodePointSet.text ++ rest → rest = "" := by
  have hunique := Regex.unique_chars bracketed_chars b
  constructor
  · intro h
    have hchars := congrArg (String.toList · ++ []) h
    simp only [toList_text] at hchars
    exact (hunique hchars.symm).1.symm
  · intro rest h
    have hchars := congrArg String.toList h
    rw [String.toList_append, toList_text, toList_text, ← List.append_nil (b.chars _)] at hchars
    exact String.toList_eq_nil_iff.mp (hunique hchars).2.symm

end CodePointSet

end RegexTree
