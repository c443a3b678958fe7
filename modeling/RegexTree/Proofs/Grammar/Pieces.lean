import RegexTree.Pattern.Grammar
import RegexTree.Proofs.Grammar.Height

namespace RegexTree

namespace Pattern

namespace Nesting

variable {n n' : Nesting} {c : Char} {u v cs : List Char}

def pieces (n : Nesting) : List Char → List (List Char)
  | [] => [[]]
  | c :: cs =>
      if c = '|' ∧ n.inClass = false ∧ n.opened = n.closed then [] :: pieces (n.next c) cs
      else (pieces (n.next c) cs).modifyHead (c :: ·)

theorem pieces_congr (hclass : n.inClass = n'.inClass)
    (hlevel : n.opened + n'.closed = n'.opened + n.closed) : n.pieces cs = n'.pieces cs := by
  induction cs generalizing n n' with
  | nil => rfl
  | cons c cs ih =>
      have hopen : n.opened = n.closed ↔ n'.opened = n'.closed := by omega
      have hnext : (n.next c).pieces cs = (n'.next c).pieces cs := by
        simp only [next, hclass]
        split
        · exact ih rfl hlevel
        · split
          · exact ih rfl hlevel
          · split
            · exact ih rfl (by simp only; omega)
            · split
              · exact ih rfl (by simp only; omega)
              · exact ih hclass hlevel
      simp only [pieces, hclass, hopen, hnext]

def Passes (n : Nesting) (u : List Char) : Prop :=
  ∀ w, n.pieces (u ++ w) = ((u.foldl next n).pieces w).modifyHead (u ++ ·)

namespace Passes

theorem nil : n.Passes [] := by
  intro w
  exact (congrFun List.modifyHead_id _).symm

theorem single (h : c = '|' → n.inClass = true ∨ n.opened ≠ n.closed) : n.Passes [c] := by
  intro w
  rw [List.singleton_append, pieces, if_neg]
  · rfl
  · rintro ⟨hbar, hout, hlevel⟩
    rcases h hbar with hin | hdeep
    · rw [hin] at hout
      contradiction
    · exact hdeep hlevel

theorem of_ne_bar (h : c ≠ '|') : n.Passes [c] := .single fun hc => absurd hc h

theorem append (hu : n.Passes u) (hv : (u.foldl next n).Passes v) : n.Passes (u ++ v) := by
  intro w
  rw [List.append_assoc, hu, hv, List.modifyHead_modifyHead, List.foldl_append]
  simp only [List.append_assoc]
  rfl

theorem of_inClass (h : n.inClass = true) (hu : ∀ c ∈ u, c ≠ ']') : n.Passes u := by
  induction u with
  | nil => exact nil
  | cons c u ih =>
      have hnext : n.next c = n := next_of_inClass h (hu c (by simp))
      have hrest : ([c].foldl next n).Passes u := by
        rw [List.foldl_cons, hnext]
        exact ih fun d hd => hu d (by simp [hd])
      exact (single fun _ => .inl h).append hrest

end Passes

end Nesting

theorem Leaf.passes {l : Leaf} {n : Nesting} (h : l.Valid) (hout : n.inClass = false) :
    n.Passes l.chars := by
  cases l with
  | plain c =>
      have hbar : c ≠ '|' := ne_of_isLiteral h (by decide)
      exact .of_ne_bar hbar
  | charClass negated items =>
      have hin : (n.next '[').inClass = true := by rw [Nesting.next_bracket hout]
      have hopen : n.Passes ['['] := .of_ne_bar (by decide)
      have hbody := hopen.append (.of_inClass hin (Item.ne_close_of_body negated h.2.1))
      exact hbody.append (.of_ne_bar (by decide))

theorem Derives.spans {part : Part} {u : List Char} {t : Regex Leaf} (h : Derives part u t) :
    ∃ k, Nesting.Spans u k := by
  induction h with
  | alternative _ ih | single _ ih | once _ ih => exact ih
  | alternation _ _ ih ih' =>
      obtain ⟨j, hj⟩ := ih
      obtain ⟨k, hk⟩ := ih'
      have hbar : Nesting.Spans ['|'] 0 := .single (by decide) (by decide) (by decide)
      exact ⟨_, hj.append (hbar.append hk)⟩
  | concatenation _ _ ih ih' =>
      obtain ⟨j, hj⟩ := ih
      obtain ⟨k, hk⟩ := ih'
      exact ⟨_, hj.append hk⟩
  | star _ ih =>
      obtain ⟨k, hk⟩ := ih
      exact ⟨_, hk.append (.single (by decide) (by decide) (by decide))⟩
  | leaf hl => exact ⟨_, Leaf.spans hl⟩
  | group _ ih =>
      obtain ⟨k, hk⟩ := ih
      exact ⟨_, hk.group⟩

theorem Derives.passes {part : Part} {u : List Char} {t : Regex Leaf} (h : Derives part u t)
    {n : Nesting} (hout : n.inClass = false) (hle : n.closed ≤ n.opened)
    (hgroup : part = .expression → n.closed < n.opened) : n.Passes u := by
  induction h generalizing n with
  | alternative _ ih => exact ih hout hle nofun
  | single _ ih => exact ih hout hle nofun
  | once _ ih => exact ih hout hle nofun
  | @alternation u v l r hl hr ihl ihr =>
      have hdeep := hgroup rfl
      obtain ⟨k, hspans⟩ := hl.spans
      obtain ⟨⟨g, hg⟩, -⟩ := hspans n hout hle
      have hbar : (u.foldl Nesting.next n).next '|' = u.foldl Nesting.next n :=
        Nesting.next_of_outside (by rw [hg]; exact hout) (by decide) (by decide) (by decide)
      refine (ihl hout hle hgroup).append (Nesting.Passes.append (u := ['|']) (.single ?_) ?_)
      · intro _
        rw [hg]
        exact .inr (by simp only; omega)
      · rw [List.foldl_cons, hbar, List.foldl_nil, hg]
        exact ihr hout (by simp only; omega) nofun
  | concatenation hl _ ihl ihr =>
      obtain ⟨k, hspans⟩ := hl.spans
      obtain ⟨⟨g, hg⟩, -⟩ := hspans n hout hle
      refine (ihl hout hle nofun).append ?_
      rw [hg]
      exact ihr hout (by simp only; omega) nofun
  | star _ ih => exact (ih hout hle nofun).append (.of_ne_bar (by decide))
  | leaf hl => exact Leaf.passes hl hout
  | @group u t _ ih =>
      have hopen : n.next '(' = { n with opened := n.opened + 1 } := Nesting.next_open hout
      have hinner : (n.next '(').Passes u := by
        rw [hopen]
        exact ih hout (by simp only; omega) fun _ => by simp only; omega
      exact (Nesting.Passes.append (u := ['(']) (.of_ne_bar (by decide)) hinner).append
        (.of_ne_bar (by decide))

structure Unbarred (u : List Char) : Prop where
  spans : ∃ k, Nesting.Spans u k
  passes : ∀ n : Nesting, n.inClass = false → n.closed ≤ n.opened → n.Passes u

namespace Unbarred

variable {u v : List Char}

theorem nil : Unbarred [] where
  spans := ⟨0, fun _ _ _ => ⟨⟨0, rfl⟩, rfl⟩⟩
  passes _ _ _ := .nil

theorem of_factor {t : Regex Leaf} (h : Derives .factor u t) : Unbarred u where
  spans := h.spans
  passes _ hout hle := h.passes hout hle nofun

theorem append (hu : Unbarred u) (hv : Unbarred v) : Unbarred (u ++ v) := by
  obtain ⟨j, hj⟩ := hu.spans
  obtain ⟨k, hk⟩ := hv.spans
  refine ⟨⟨_, hj.append hk⟩, fun n hout hle => ?_⟩
  obtain ⟨⟨g, hg⟩, -⟩ := hj n hout hle
  refine (hu.passes n hout hle).append ?_
  rw [hg]
  exact hv.passes _ hout (by simp only; omega)

theorem pieces_append (h : Unbarred u) (w : List Char) :
    Nesting.pieces {} (u ++ w) = (Nesting.pieces {} w).modifyHead (u ++ ·) := by
  obtain ⟨k, hspans⟩ := h.spans
  obtain ⟨⟨g, hg⟩, -⟩ := hspans {} rfl (Nat.le_refl _)
  have hlevel : (u.foldl Nesting.next {}).pieces w = Nesting.pieces {} w := by
    rw [hg]
    exact Nesting.pieces_congr rfl (by simp)
  rw [h.passes {} rfl (Nat.le_refl _), hlevel]

end Unbarred

namespace Nesting

theorem pieces_bar (w : List Char) : pieces {} ('|' :: w) = [] :: pieces {} w := rfl

theorem pieces_ne_nil (n : Nesting) (cs : List Char) : n.pieces cs ≠ [] := by
  induction cs generalizing n with
  | nil => simp [pieces]
  | cons c cs ih =>
      rw [pieces]
      split
      · simp
      · simpa using ih (n.next c)

theorem intercalate_pieces (n : Nesting) (cs : List Char) :
    ['|'].intercalate (n.pieces cs) = cs := by
  induction cs generalizing n with
  | nil => rfl
  | cons c cs ih =>
      obtain ⟨u, us, hpieces⟩ := List.exists_cons_of_ne_nil (pieces_ne_nil (n.next c) cs)
      have hrest := ih (n.next c)
      rw [pieces]
      split
      · next hbar =>
          rw [hpieces] at hrest ⊢
          rw [List.intercalate_cons_cons, hrest, hbar.1]
          rfl
      · rw [hpieces] at hrest ⊢
        cases us <;> simpa [List.intercalate_cons_cons] using hrest

end Nesting

end Pattern

end RegexTree
