import RegexTree.Pattern.Printer
import RegexTree.Proofs.Reader.Limit

namespace RegexTree.Pattern

namespace Nesting

variable {n : Nesting} {c : Char} {u v cs : List Char} {j k limit q : Nat}

def depth (n : Nesting) : Nat := n.opened - n.closed

def height (n : Nesting) : List Char → Nat
  | [] => n.depth
  | c :: cs => max n.depth (height (n.next c) cs)

theorem depth_le_height (n : Nesting) (cs : List Char) : n.depth ≤ n.height cs := by
  cases cs with
  | nil => exact Nat.le_refl _
  | cons c cs => exact Nat.le_max_left _ _

theorem height_append (n : Nesting) (u v : List Char) :
    n.height (u ++ v) = max (n.height u) ((u.foldl next n).height v) := by
  induction u generalizing n with
  | nil => exact (Nat.max_eq_right (n.depth_le_height v)).symm
  | cons c u ih =>
      rw [List.cons_append, height, ih, ← Nat.max_assoc]
      rfl

theorem Overrun.lt_height (h : Overrun limit cs q) : limit < height {} cs := by
  obtain ⟨u, v, rfl, ⟨hout, hopened⟩, -⟩ := h
  have hinner : limit < ((behind u).next '(').depth := by
    rw [next_open hout, depth]
    simp only
    omega
  have hrest : ((behind u).next '(').depth ≤ ((behind u).next '(').height v := depth_le_height _ v
  rw [height_append, height]
  change limit < max _ (max _ (((behind u).next '(').height v))
  omega

def Spans (cs : List Char) (k : Nat) : Prop :=
  ∀ n : Nesting, n.inClass = false → n.closed ≤ n.opened →
    (∃ groups, cs.foldl next n =
      { n with opened := n.opened + groups, closed := n.closed + groups }) ∧
    n.height cs = n.depth + k

namespace Spans

theorem single (hclass : c ≠ '[') (hopen : c ≠ '(') (hclose : c ≠ ')') : Spans [c] 0 := by
  intro n hout hle
  have hnext : n.next c = n := next_of_outside hout hclass hopen hclose
  exact ⟨⟨0, hnext⟩, by simp [height, hnext]⟩

theorem append (hu : Spans u j) (hv : Spans v k) : Spans (u ++ v) (max j k) := by
  intro n hout hle
  obtain ⟨⟨g, hg⟩, hheight⟩ := hu n hout hle
  obtain ⟨⟨g', hg'⟩, hheight'⟩ := hv (u.foldl next n) (by rw [hg]; exact hout) (by rw [hg]; simp [hle])
  refine ⟨⟨g + g', ?_⟩, ?_⟩
  · rw [List.foldl_append, hg', hg]
    simp [Nat.add_assoc]
  · rw [height_append, hheight, hheight', hg]
    simp only [depth]
    omega

theorem group (h : Spans u k) : Spans ('(' :: u ++ [')']) (k + 1) := by
  intro n hout hle
  have hopen : n.next '(' = { n with opened := n.opened + 1 } := next_open hout
  obtain ⟨⟨g, hg⟩, hheight⟩ := h (n.next '(') (by rw [hopen]; exact hout) (by rw [hopen]; simp; omega)
  have hclose : (u.foldl next (n.next '(')).next ')' =
      { n with opened := n.opened + (g + 1), closed := n.closed + (g + 1) } := by
    rw [hg, hopen, next_close]
    · simp only [mk.injEq, true_and]
      omega
    · exact hout
  refine ⟨⟨g + 1, ?_⟩, ?_⟩
  · rw [List.cons_append, List.foldl_cons, List.foldl_append, ← hclose]
    rfl
  · rw [List.cons_append, height, height_append, hheight, height, height, hclose, hg, hopen]
    simp only [depth]
    omega

theorem enclose (h : Spans u k) (grouped : Bool) :
    Spans (Tree.enclose grouped u) (k + grouped.toNat) := by
  cases grouped with
  | false => exact h
  | true => exact h.group

end Spans

theorem stays_inClass (h : n.inClass = true) (hcs : ∀ c ∈ cs, c ≠ ']') :
    cs.foldl next n = n ∧ n.height cs = n.depth := by
  induction cs with
  | nil => exact ⟨rfl, rfl⟩
  | cons c cs ih =>
      have hnext : n.next c = n := next_of_inClass h (hcs c (by simp))
      obtain ⟨hfold, hheight⟩ := ih fun d hd => hcs d (by simp [hd])
      refine ⟨by rw [List.foldl_cons, hnext, hfold], ?_⟩
      rw [height, hnext, hheight, Nat.max_self]

theorem Spans.charClass (hcs : ∀ c ∈ cs, c ≠ ']') : Spans ('[' :: cs ++ [']']) 0 := by
  intro n hout hle
  have hopen : n.next '[' = { n with inClass := true } := next_bracket hout
  obtain ⟨hfold, hheight⟩ := stays_inClass (n := n.next '[') (by rw [hopen]) hcs
  have hclose : (n.next '[').next ']' = n := by
    rw [next_close_bracket (by rw [hopen]), hopen, ← hout]
  refine ⟨⟨0, ?_⟩, ?_⟩
  · rw [List.cons_append, List.foldl_cons, List.foldl_append, hfold]
    exact hclose
  · rw [List.cons_append, height, height_append, hheight, hfold, height, height, hclose, hopen]
    simp [depth]

end Nesting

theorem Item.ne_close {i : Item} (h : i.Valid) : ∀ c ∈ i.chars, c ≠ ']' := by
  cases i with
  | member a =>
      intro c hc
      rw [List.mem_singleton.mp hc]
      exact ne_of_isMember h (by decide)
  | range a b =>
      intro c hc
      simp only [chars, List.mem_cons, List.not_mem_nil, or_false] at hc
      rcases hc with rfl | rfl | rfl
      · exact ne_of_isMember h.1 (by decide)
      · decide
      · exact ne_of_isLiteral h.2 (by decide)

theorem Item.ne_close_of_body (negated : Bool) {items : List Item} (h : ∀ i ∈ items, i.Valid) :
    ∀ c ∈ (if negated then ['^'] else []) ++ items.flatMap Item.chars, c ≠ ']' := by
  intro c hc
  rcases List.mem_append.mp hc with hc | hc
  · split at hc
    · rw [List.mem_singleton.mp hc]
      decide
    · contradiction
  · obtain ⟨i, hi, hc⟩ := List.mem_flatMap.mp hc
    exact ne_close (h i hi) c hc

theorem Leaf.spans {l : Leaf} (h : l.Valid) : Nesting.Spans l.chars 0 := by
  cases l with
  | plain c =>
      exact .single (ne_of_isLiteral h (by decide)) (ne_of_isLiteral h (by decide))
        (ne_of_isLiteral h (by decide))
  | charClass negated items => exact .charClass (Item.ne_close_of_body negated h.2.1)

theorem Tree.spans_print {t : Tree} (h : Printable t) : Nesting.Spans (print t) (nesting t) := by
  induction t with
  | emptyWord | emptySet => contradiction
  | literal l => exact Leaf.spans h
  | concatenation l r ihl ihr =>
      exact ((ihl h.1).enclose (isAlternation l)).append
        ((ihr h.2).enclose (isAlternation r || isConcatenation r))
  | alternation l r ihl ihr =>
      have hbar : Nesting.Spans ['|'] 0 := .single (by decide) (by decide) (by decide)
      have hright := hbar.append ((ihr h.2).enclose (isAlternation r))
      rw [Nat.zero_max] at hright
      exact (ihl h.1).append hright
  | star t ih =>
      have hstar : Nesting.Spans ['*'] 0 := .single (by decide) (by decide) (by decide)
      have hall := ((ih h).enclose (!isLeaf t)).append hstar
      rw [Nat.max_zero] at hall
      exact hall

theorem Tree.height_print {t : Tree} (h : Printable t) : Nesting.height {} (print t) = nesting t := by
  rw [(spans_print h {} rfl (Nat.le_refl _)).2]
  exact Nat.zero_add _

end RegexTree.Pattern
