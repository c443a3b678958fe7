import RegexTree.Proofs.Grammar.ClassMeaning
import RegexTree.Proofs.Grammar.Language
import RegexTree.Proofs.Reader.Likeness

namespace RegexTree

namespace Regex

variable {α β : Type}

def shape (t : Regex α) : Regex Unit := t.map fun _ => ()

theorem shape_map (f : α → β) (t : Regex α) : (t.map f).shape = t.shape := map_map f _ t

theorem literals_map (f : α → β) (t : Regex α) : (t.map f).literals = t.literals.map f := by
  induction t with
  | emptyWord | emptySet | literal => rfl
  | concatenation l r ihl ihr | alternation l r ihl ihr => simp [map, ihl, ihr]
  | star t ih => exact ih

end Regex

namespace Pattern

variable {part : Part} {u v w x : List Char} {l r t : Regex Leaf}

theorem head_ne_caret_of_append (h : (u ++ v).head? ≠ some '^') : u.head? ≠ some '^' := by
  cases u with
  | nil => nofun
  | cons c u => exact h

def Negates (part : Part) (x : List Char) (t : Regex Leaf) : Prop :=
  ∃ (t' : Regex Leaf) (items : List Item) (rest : List Leaf),
    Derives part ('[' :: '^' :: x) t' ∧ t'.shape = t.shape ∧ items ≠ [] ∧
      t.literals = .charClass false items :: rest ∧ t'.literals = .charClass true items :: rest

namespace Negates

theorem promote {part' : Part} (h : Negates part x t)
    (hpart : ∀ {w t}, Derives part w t → Derives part' w t) : Negates part' x t := by
  obtain ⟨t', items, rest, ht', hrest⟩ := h
  exact ⟨t', items, rest, hpart ht', hrest⟩

theorem alternation (h : Negates .expression u l) (hr : Derives .concatenation v r) :
    Negates .expression (u ++ '|' :: v) (.alternation l r) := by
  obtain ⟨l', items, rest, hl', hshape, hitems, hl, hnegated⟩ := h
  refine ⟨.alternation l' r, items, rest ++ r.literals, .alternation hl' hr, ?_, hitems, ?_, ?_⟩
  · simpa [Regex.shape, Regex.map] using hshape
  · simp [hl]
  · simp [hnegated]

theorem concatenation (h : Negates .concatenation u l) (hr : Derives .factor v r) :
    Negates .concatenation (u ++ v) (.concatenation l r) := by
  obtain ⟨l', items, rest, hl', hshape, hitems, hl, hnegated⟩ := h
  refine ⟨.concatenation l' r, items, rest ++ r.literals, .concatenation hl' hr, ?_, hitems, ?_, ?_⟩
  · simpa [Regex.shape, Regex.map] using hshape
  · simp [hl]
  · simp [hnegated]

theorem star (h : Negates .base u t) : Negates .factor (u ++ ['*']) (.star t) := by
  obtain ⟨t', items, rest, ht', hshape, hitems, ht, hnegated⟩ := h
  refine ⟨.star t', items, rest, .star ht', ?_, hitems, ht, hnegated⟩
  simpa [Regex.shape, Regex.map] using hshape

theorem leaf {leaf : Leaf} (h : leaf.Valid) (htext : leaf.chars = '[' :: x)
    (hx : x.head? ≠ some '^') : Negates .base x (.literal leaf) := by
  cases leaf with
  | plain c =>
      obtain ⟨rfl, -⟩ := List.cons.inj htext
      contradiction
  | charClass negated items =>
      cases negated with
      | true =>
          obtain ⟨-, rfl⟩ := List.cons.inj htext
          contradiction
      | false =>
          obtain ⟨-, rfl⟩ := List.cons.inj htext
          have hnegated : Derives .base (Leaf.charClass true items).chars _ := .leaf h
          exact ⟨_, items, [], hnegated, rfl, h.1, rfl, rfl⟩

end Negates

theorem exists_of_append_eq_bracket (hu : u ≠ []) (h : u ++ v = '[' :: x)
    (hx : x.head? ≠ some '^') :
    ∃ y, u = '[' :: y ∧ x = y ++ v ∧ y.head? ≠ some '^' := by
  obtain ⟨y, rfl, rfl⟩ := (List.append_eq_cons_iff.mp h).resolve_left fun hnil => hu hnil.1
  exact ⟨y, rfl, rfl, head_ne_caret_of_append hx⟩

theorem Derives.negates (h : Derives part w t) (hw : w = '[' :: x) (hx : x.head? ≠ some '^') :
    Negates part x t := by
  induction h generalizing x with
  | alternative _ ih => exact (ih hw hx).promote .alternative
  | single _ ih => exact (ih hw hx).promote .single
  | once _ ih => exact (ih hw hx).promote .once
  | alternation hl hr ih _ =>
      obtain ⟨y, hu, rfl, hy⟩ := exists_of_append_eq_bracket hl.ne_nil hw hx
      exact (ih hu hy).alternation hr
  | concatenation hl hr ih _ =>
      obtain ⟨y, hu, rfl, hy⟩ := exists_of_append_eq_bracket hl.ne_nil hw hx
      exact (ih hu hy).concatenation hr
  | star ht ih =>
      obtain ⟨y, hu, rfl, hy⟩ := exists_of_append_eq_bracket ht.ne_nil hw hx
      exact (ih hu hy).star
  | leaf hl => exact .leaf hl hw hx
  | group => exact absurd (List.cons.inj hw).1 (by decide)

namespace Reader

variable {Shared Draft Symbol : Type} {p : Parser Shared Draft Symbol}
  {r : Reader Shared Draft Symbol} {negated : Bool} {draft : Draft}

theorem bind_finish_behind_bracket (h : r.phase = .inClass negated draft .bracket)
    (hx : x.head? ≠ some '^') :
    (r.readAll p x).bind (finish p) =
      (readAll p { r with phase := .inClass negated draft .negation } x).bind (finish p) := by
  cases x with
  | nil => simp [readAll_nil, Except.bind, finish, h, finishClass]
  | cons c x =>
      have hc : c ≠ '^' := fun heq => hx (congrArg some heq)
      have hadvance : r.advance p c =
          advance p { r with phase := .inClass negated draft .negation } c := by
        simp only [advance, step, h, readInClass, hc, if_false]
        rfl
      rw [readAll_cons, readAll_cons, hadvance]

end Reader

end Pattern

namespace Parser

open Pattern

variable {Shared Draft Symbol : Type} {x : List Char}

theorem sameOutcome_of_negation (p : Parser Shared Draft Symbol) (s : Shared)
    (hx : x.head? ≠ some '^') :
    SameOutcome 1 (fun _ _ => True) (p.alternatives s ('[' :: x))
      (p.alternatives s ('[' :: '^' :: x)) := by
  have hopen : Reader.Move p { shared := s } '[' _ := .openClass (.base rfl)
  have hnegate : Reader.Move p (Reader.openClass p { shared := s }).onward '^' _ := .negate rfl
  rw [alternatives, alternatives, Reader.readAll_cons_of_move hopen,
    Reader.readAll_cons_of_move hopen, Reader.readAll_cons_of_move hnegate,
    Reader.bind_finish_behind_bracket rfl hx]
  refine Reader.Alike.bind_finish rfl ?_ x
  exact ⟨rfl, rfl, rfl, .inClass _ _ _ _ _⟩

theorem read_of_negation (p : Parser Shared Draft Symbol) (s : Shared) (hx : x.head? ≠ some '^') :
    (∃ t t', (p.read s ('[' :: x)).1 = .ok t ∧ (p.read s ('[' :: '^' :: x)).1 = .ok t') ∨
      ∃ e, (p.read s ('[' :: x)).1 = .error e ∧
        (p.read s ('[' :: '^' :: x)).1 = .error (e.shift 1) :=
  read_of_sameOutcome (sameOutcome_of_negation p s hx)

theorem exists_derives_of_read {limit : Option Nat} {cs : List Char} {t : Regex CodePointSet}
    (hword : cs ≠ ['ε']) (hset : cs ≠ ['∅'])
    (h : ((Parser.mk CodePointSet.maker limit).read () cs).1 = .ok t) :
    ∃ l, Derives .expression cs l ∧ t = l.map fun l => CodePointSet.ofEdits l.edits := by
  obtain ⟨a, ha, rfl, -⟩ := (read_eq_ok_iff_of_ne hword hset).mp (Prod.ext h rfl)
  obtain ⟨l, hl, hmade⟩ := builds_of_alternatives ha
  refine ⟨l, hl, ?_⟩
  rw [CodePointSet.makeTree_eq] at hmade
  exact (congrArg Prod.fst hmade).symm

variable {limit : Option Nat} {t t' : Regex CodePointSet}

theorem leaves_of_negation (hx : x.head? ≠ some '^')
    (h : ((Parser.mk CodePointSet.maker limit).read () ('[' :: x)).1 = .ok t)
    (h' : ((Parser.mk CodePointSet.maker limit).read () ('[' :: '^' :: x)).1 = .ok t') :
    t.shape = t'.shape ∧ ∃ s s' rest, t.literals = s :: rest ∧ t'.literals = s' :: rest ∧
      ∀ c, s.contains c ≠ s'.contains c := by
  obtain ⟨l, hl, rfl⟩ := exists_derives_of_read (by simp) (by simp) h
  obtain ⟨l', hl', rfl⟩ := exists_derives_of_read (by simp) (by simp) h'
  obtain ⟨u, items, rest, hu, hshape, hitems, hplain, hnegated⟩ := hl.negates rfl hx
  have hedits : l'.map Leaf.edits = u.map Leaf.edits := hl'.edits_unique hu
  have hsymbols : l'.map (fun l => CodePointSet.ofEdits l.edits) =
      u.map fun l => CodePointSet.ofEdits l.edits := by
    have hmap := congrArg (Regex.map CodePointSet.ofEdits) hedits
    rw [Regex.map_map, Regex.map_map] at hmap
    exact hmap
  rw [hsymbols]
  refine ⟨by rw [Regex.shape_map, Regex.shape_map, hshape], _, _, _,
    by rw [Regex.literals_map, hplain, List.map_cons],
    by rw [Regex.literals_map, hnegated, List.map_cons], fun c => ?_⟩
  have hin := Leaf.contains_charClass (c := c) hitems false
  have hout := Leaf.contains_charClass (c := c) hitems true
  simp only [Bool.false_eq_true, if_false, if_true] at hin hout
  rw [ne_eq, Bool.eq_iff_iff, hin, hout]
  exact iff_not_self

theorem read_negated (limit : Option Nat) (hx : x.head? ≠ some '^') :
    ((∃ t, ((Parser.mk CodePointSet.maker limit).read () ('[' :: x)).1 = .ok t) ↔
        ∃ t, ((Parser.mk CodePointSet.maker limit).read () ('[' :: '^' :: x)).1 = .ok t) ∧
      (∀ t t', ((Parser.mk CodePointSet.maker limit).read () ('[' :: x)).1 = .ok t →
        ((Parser.mk CodePointSet.maker limit).read () ('[' :: '^' :: x)).1 = .ok t' →
        t.shape = t'.shape ∧ ∃ s s' rest, t.literals = s :: rest ∧ t'.literals = s' :: rest ∧
          ∀ c, s.contains c ≠ s'.contains c) ∧
      ∀ e, ((Parser.mk CodePointSet.maker limit).read () ('[' :: x)).1 = .error e →
        ((Parser.mk CodePointSet.maker limit).read () ('[' :: '^' :: x)).1 =
          .error (e.shift 1) := by
  refine ⟨?_, fun _ _ => leaves_of_negation hx, ?_⟩
  · rcases read_of_negation ⟨CodePointSet.maker, limit⟩ () hx with ⟨t, t', h, h'⟩ | ⟨e, h, h'⟩
    · exact iff_of_true ⟨t, h⟩ ⟨t', h'⟩
    · simp [h, h']
  · intro e he
    rcases read_of_negation ⟨CodePointSet.maker, limit⟩ () hx with ⟨t, t', h, h'⟩ | ⟨e', h, h'⟩
    · rw [he] at h
      contradiction
    · rw [he] at h
      cases h
      exact h'

theorem read_negated_of_overlapping :
    "a-fc-zy-b](x|[^d])*".toList.head? ≠ some '^' ∧
      (∃ t t', ((Parser.mk CodePointSet.maker (some 1)).read () "[a-fc-zy-b](x|[^d])*".toList).1 =
          .ok t ∧
        ((Parser.mk CodePointSet.maker (some 1)).read () "[^a-fc-zy-b](x|[^d])*".toList).1 =
          .ok t' ∧
        t.shape = t'.shape ∧ ∃ s s' rest, t.literals = s :: rest ∧ t'.literals = s' :: rest ∧
          ∀ c, s.contains c ≠ s'.contains c) ∧
      "a](b|(".toList.head? ≠ some '^' ∧
      ((Parser.mk CodePointSet.maker (some 1)).read () "[^a](b|(".toList).1 =
        .error (.tooDeep 8) := by
  have hplain : "a-fc-zy-b](x|[^d])*".toList.head? ≠ some '^' := by decide
  have hdeep : "a](b|(".toList.head? ≠ some '^' := by decide
  obtain ⟨hsame, hleaves, -⟩ := read_negated (some 1) hplain
  obtain ⟨t', ht'⟩ := hsame.mp ⟨_, rfl⟩
  refine ⟨hplain, ⟨_, t', rfl, ht', hleaves _ _ rfl ht'⟩, hdeep, ?_⟩
  exact (read_negated (some 1) hdeep).2.2 (.tooDeep 7) (by decide)

end Parser

end RegexTree
