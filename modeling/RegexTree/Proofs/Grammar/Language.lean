import RegexTree.Proofs.Grammar.Spelling

namespace RegexTree

variable {Shared Draft Symbol : Type} {p : Parser Shared Draft Symbol} {cs : List Char}
  {s s' : Shared} {t : Regex Symbol} {a : List (List (Regex Symbol)) × Shared}

namespace Pattern

theorem Reader.Spells.opened {r : Reader Shared Draft Symbol} {starred : Bool}
    (h : r.Spells p.maker s cs) (hphase : r.phase = .factor t starred) (houter : r.outer = []) :
    Opened p.maker s (r.inner.push t) r.shared cs := by
  obtain ⟨v, w, s₁, rfl, hv, hw⟩ := h.ready (.factor hphase)
  rw [houter] at hv
  cases hv
  exact hw

theorem Reader.Spells.finish {r : Reader Shared Draft Symbol} (h : r.Spells p.maker s cs)
    (hfinish : r.finish p = .ok a) :
    Builds p.maker .expression cs s (Regex.ofAlternatives a.1) a.2 := by
  obtain ⟨t, starred, hphase, houter, rfl⟩ := of_finish_eq_ok hfinish
  exact (h.opened hphase houter).builds (by simp [Expression.push])

theorem Derives.edits_unique {u v : Regex Leaf} (hu : Derives .expression cs u)
    (hv : Derives .expression cs v) : u.map Leaf.edits = v.map Leaf.edits := by
  obtain ⟨a, ha, hmadeu⟩ := Parser.alternatives_of_derives (p := .transcribing none) rfl hu ()
  obtain ⟨b, hb, hmadev⟩ := Parser.alternatives_of_derives (p := .transcribing none) rfl hv ()
  rw [ha] at hb
  cases hb
  rw [hmadeu] at hmadev
  rw [Parser.transcribing, SymbolMaker.makeTree_transcript, SymbolMaker.makeTree_transcript] at hmadev
  exact congrArg Prod.fst hmadev

end Pattern

namespace Parser

open Pattern

theorem spells_of_run {r : Reader Shared Draft Symbol} (h : p.run s cs = .ok r) :
    r.Spells p.maker s cs := by
  have hstart : ({ shared := s } : Reader Shared Draft Symbol).Spells p.maker s [] :=
    .mk (u := []) (v := []) (w := []) .nil .nil .base
  exact Reader.readAll_invariant (w := []) (fun _ _ _ _ hr hmove => hr.move hmove) hstart h

theorem builds_of_alternatives (h : p.alternatives s cs = .ok a) :
    Builds p.maker .expression cs s (Regex.ofAlternatives a.1) a.2 := by
  rw [alternatives_eq_bind] at h
  cases hrun : p.run s cs with
  | error halt =>
      rw [hrun] at h
      contradiction
  | ok r =>
      rw [hrun] at h
      exact (spells_of_run hrun).finish h

theorem alternatives_of_builds (hlimit : p.limit = none)
    (h : Builds p.maker .expression cs s t s') :
    ∃ a, p.alternatives s cs = .ok a ∧ Regex.ofAlternatives a.1 = t ∧ a.2 = s' := by
  obtain ⟨l, hl, hmade⟩ := h
  obtain ⟨a, ha, htree⟩ := alternatives_of_derives hlimit hl s
  rw [hmade] at htree
  cases htree
  exact ⟨a, ha, rfl, rfl⟩

theorem read_eq_ok_iff_of_ne (hword : cs ≠ ['ε']) (hset : cs ≠ ['∅']) :
    p.read s cs = (.ok t, s') ↔
      ∃ a, p.alternatives s cs = .ok a ∧ Regex.ofAlternatives a.1 = t ∧ a.2 = s' := by
  rw [read, if_neg hword, if_neg hset]
  cases p.alternatives s cs with
  | ok a => simp
  | error halt => simp

theorem read_eq_ok_iff_derives (p : Parser Shared Draft Symbol) (cs : List Char) :
    (∀ shared t shared', (p.withLimit none).read shared cs = (.ok t, shared') ↔
      cs = ['ε'] ∧ t = .emptyWord ∧ shared' = shared ∨
      cs = ['∅'] ∧ t = .emptySet ∧ shared' = shared ∨
      cs ≠ ['ε'] ∧ cs ≠ ['∅'] ∧
        ∃ u, Derives .expression cs u ∧ p.maker.makeTree u shared = (t, shared')) ∧
    (∀ u v, Derives .expression cs u → Derives .expression cs v →
      u.map Leaf.edits = v.map Leaf.edits) ∧
    (Leaf.plain 'ε').Valid ∧ (Leaf.plain '∅').Valid := by
  refine ⟨?_, fun _ _ => Derives.edits_unique, by decide, by decide⟩
  intro shared t shared'
  by_cases hword : cs = ['ε']
  · subst hword
    simp [read, eq_comm]
  by_cases hset : cs = ['∅']
  · subst hset
    simp [read, eq_comm]
  rw [read_eq_ok_iff_of_ne hword hset]
  simp only [hword, hset, false_and, false_or, ne_eq, not_false_eq_true, true_and]
  refine ⟨?_, alternatives_of_builds (p := p.withLimit none) rfl⟩
  rintro ⟨a, ha, rfl, rfl⟩
  exact builds_of_alternatives (p := p.withLimit none) ha

end Parser

end RegexTree
