import RegexTree.Proofs.Grammar.Rows
import RegexTree.Proofs.Reader.Grouping

namespace RegexTree

variable {Shared Draft Symbol : Type} {p : Parser Shared Draft Symbol} {s s' s₁ s₂ : Shared}
  {u v cs : List Char} {c : Char} {as bs : List (List (Regex Symbol))}

namespace Pattern.Reader

variable {r b : Reader Shared Draft Symbol}

theorem readBase_at_phase (phase : Phase Draft Symbol) :
    ({ b with phase } : Reader Shared Draft Symbol).readBase p c = b.readBase p c := rfl

theorem readAll_ready (hready : r.Ready b) (hc : startsFactor c) (cs : List Char) :
    r.readAll p (c :: cs) =
      ({ b with phase := .base } : Reader Shared Draft Symbol).readAll p (c :: cs) := by
  have hstep : r.step p c = ({ b with phase := .base } : Reader Shared Draft Symbol).step p c :=
    (step_of_ready hready hc).trans (readBase_at_phase .base).symm
  rw [readAll_cons, readAll_cons, advance, advance, hstep]

end Pattern.Reader

namespace Parser

open Pattern

theorem startsFactor_or_refused (p : Parser Shared Draft Symbol) (s : Shared) (v : List Char) :
    (∃ c cs, v = c :: cs ∧ startsFactor c) ∨
      ∃ halt, p.alternatives s v = .error halt ∧ halt.error.position = 1 := by
  cases v with
  | nil => exact .inr ⟨_, rfl, rfl⟩
  | cons c cs =>
      by_cases hc : startsFactor c
      · exact .inl ⟨c, cs, rfl, hc⟩
      · simp only [startsFactor, Bool.or_eq_true, decide_eq_true_eq, not_or] at hc
        obtain ⟨⟨hliteral, hopen⟩, hclass⟩ := hc
        have hstep : Reader.step p { shared := s } c = .error ⟨.unexpected c 1, s⟩ := by
          simp [Reader.step, Reader.readBase, hliteral, hopen, hclass, Reader.unexpected, Reader.halt]
        have hrun : p.run s (c :: cs) = .error ⟨.unexpected c 1, s⟩ :=
          run_refused (u := []) rfl hstep cs
        exact .inr ⟨_, by rw [alternatives_eq_bind, hrun]; rfl, rfl⟩

theorem alike_behind {a : List (List (Regex Symbol)) × Shared} (h : p.alternatives s u = .ok a)
    (s' : Shared) :
    ∃ r t starred, p.run s u = .ok r ∧ r.phase = .factor t starred ∧
      ∀ inner, ({ shared := s' } : Reader Shared Draft Symbol).Alike u.length
        ({ r with inner, phase := .base } : Reader Shared Draft Symbol) := by
  obtain ⟨r, t, starred, hrun, hphase, houter, -⟩ := alternatives_eq_ok h
  have hdepth := (tracks_of_run hrun).outer
  refine ⟨r, t, starred, hrun, hphase, fun inner => ⟨?_, ?_, ?_, .base⟩⟩
  · exact (position_of_run hrun).trans (Nat.add_comm _ _)
  · simp [← hdepth, houter]
  · simp [houter]

theorem outcome_behind_bar {a : List (List (Regex Symbol)) × Shared}
    (h : p.alternatives s u = .ok a) (s' : Shared) (v : List Char) :
    SameOutcome (u.length + 1) (fun _ _ => True) (p.alternatives s' v)
      (p.alternatives s (u ++ '|' :: v)) := by
  obtain ⟨r, t, starred, hrun, hphase, halike⟩ := alike_behind h s'
  have hmove : Reader.Move p r '|' _ := .split hphase
  have hbehind := halike (r.inner.push t).split
  rw [alternatives_append_of_run hrun, Reader.readAll_cons_of_move hmove]
  refine Reader.Alike.bind_finish rfl ?_ v
  exact ⟨congrArg (· + 1) hbehind.position, hbehind.depth, hbehind.outer, .base⟩

theorem outcome_behind_factor {a : List (List (Regex Symbol)) × Shared}
    (h : p.alternatives s u = .ok a) (s' : Shared) (hc : startsFactor c) (cs : List Char) :
    SameOutcome u.length (fun _ _ => True) (p.alternatives s' (c :: cs))
      (p.alternatives s (u ++ c :: cs)) := by
  obtain ⟨r, t, starred, hrun, hphase, halike⟩ := alike_behind h s'
  rw [alternatives_append_of_run hrun, Reader.readAll_ready (.factor hphase) hc]
  exact (halike (r.inner.push t)).bind_finish rfl (c :: cs)

/-- What a pattern is read to, told by the alternatives of its tree: the text falls into as many pieces,
and each is the row of the factors of one. -/
structure ReadsAs (p : Parser Shared Draft Symbol) (s : Shared) (cs : List Char)
    (as : List (List (Regex Symbol))) (s' : Shared) : Prop where
  yields : p.Yields s cs (.ofAlternatives as) s'
  rows : Rows p.maker s (Nesting.pieces {} cs) as s'

theorem ReadsAs.unique (h : p.ReadsAs s cs as s₁) (h' : p.ReadsAs s cs bs s₂) :
    as = bs ∧ s₁ = s₂ :=
  rows_unique h.rows h'.rows

theorem rows_of_alternatives (h : p.alternatives s cs = .ok (as, s')) :
    Rows p.maker s (Nesting.pieces {} cs) as s' := by
  obtain ⟨us, v, bs, fs, s₁, hrows, hrow, hfs, rfl, hpieces⟩ := opened_rows_of_alternatives h
  have hcut := hpieces []
  rw [List.append_nil] at hcut
  rw [hcut]
  simpa [Nesting.pieces] using hrows.append (.single hrow hfs)

theorem readsAs_of_alternatives (h : p.alternatives s cs = .ok (as, s')) :
    p.ReadsAs s cs as s' :=
  ⟨yields_of_alternatives h, rows_of_alternatives h⟩

theorem pieces_behind_bar (h : p.alternatives s u = .ok (as, s')) (v : List Char) :
    Nesting.pieces {} (u ++ '|' :: v) = Nesting.pieces {} u ++ Nesting.pieces {} v := by
  obtain ⟨us, w, -, -, -, -, -, -, -, hpieces⟩ := opened_rows_of_alternatives h
  have hcut := hpieces []
  rw [List.append_nil] at hcut
  rw [hpieces, hcut, Nesting.pieces_bar]
  simp [Nesting.pieces]

theorem readsAs_of_rows {k : Nat} {a : List (List (Regex Symbol)) × Shared}
    (hv : p.alternatives s₁ v = .ok a)
    (hread : SameOutcome k (fun _ _ => True) (p.alternatives s₁ v) (p.alternatives s cs))
    (hrows : Rows p.maker s (Nesting.pieces {} cs) as s') : p.ReadsAs s cs as s' := by
  rw [hv] at hread
  cases hcs : p.alternatives s cs with
  | error halt =>
      rw [hcs] at hread
      contradiction
  | ok b =>
      obtain ⟨bs, s''⟩ := b
      -- The outcome only tells that there is a reading. Which one it is, its rows tell.
      have hreads := readsAs_of_alternatives hcs
      obtain ⟨rfl, rfl⟩ := rows_unique hreads.rows hrows
      exact hreads

theorem readsAs_behind_bar (hu : p.alternatives s u = .ok (as, s₁))
    (hv : p.alternatives s₁ v = .ok (bs, s₂)) : p.ReadsAs s (u ++ '|' :: v) (as ++ bs) s₂ := by
  refine readsAs_of_rows hv (outcome_behind_bar hu s₁ v) ?_
  rw [pieces_behind_bar hu]
  exact (rows_of_alternatives hu).append (rows_of_alternatives hv)

theorem readsAs_behind_factor (hu : p.alternatives s u = .ok (as, s₁))
    (hv : p.alternatives s₁ v = .ok (bs, s₂)) : p.ReadsAs s (u ++ v) (splice as bs) s₂ := by
  rcases startsFactor_or_refused p s₁ v with ⟨c, cs, rfl, hc⟩ | ⟨halt, hrefused, -⟩
  · refine readsAs_of_rows hv (outcome_behind_factor hu s₁ hc cs) ?_
    obtain ⟨us, w, init, fs, s₀, hrows, hrow, hfs, rfl, hpieces⟩ := opened_rows_of_alternatives hu
    rw [hpieces, splice_concat]
    exact hrows.splice hrow hfs (rows_of_alternatives hv) (Nesting.pieces_ne_nil _ _)
  · rw [hv] at hrefused
    contradiction

theorem read_behind_bar {a : List (List (Regex Symbol)) × Shared} (h : p.alternatives s u = .ok a)
    (s' : Shared) (v : List Char) :
    ((∃ t, (p.read s (u ++ '|' :: v)).1 = .ok t) ↔ ∃ t, (p.read s' v).1 = .ok t) ∧
      ∀ e, (p.read s' v).1 = .error e →
        (p.read s (u ++ '|' :: v)).1 = .error (e.shift (u.length + 1)) := by
  rcases read_of_sameOutcome (outcome_behind_bar h s' v) with ⟨t, t', ht, ht'⟩ | ⟨e, he, he'⟩
  · simp [ht, ht']
  · simp [he, he']

theorem read_behind_factor {a : List (List (Regex Symbol)) × Shared}
    (h : p.alternatives s u = .ok a) {e : ParseError} (he : (p.read s' v).1 = .error e)
    (hposition : 1 < e.position) : (p.read s (u ++ v)).1 = .error (e.shift u.length) := by
  rcases startsFactor_or_refused p s' v with ⟨c, cs, rfl, hc⟩ | ⟨halt, hrefused, hone⟩
  · rcases read_of_sameOutcome (outcome_behind_factor h s' hc cs) with ⟨t, t', ht, -⟩ | ⟨e', hv, hwhole⟩
    · rw [ht] at he
      contradiction
    · rw [hv] at he
      cases he
      exact hwhole
  · rw [read_eq_of_error hrefused] at he
    cases he
    omega

theorem read_append {t : Regex Symbol} (h : (p.read s u).1 = .ok t) :
    (∀ s cs as bs s₁ s₂, p.ReadsAs s cs as s₁ → p.ReadsAs s cs bs s₂ → as = bs ∧ s₁ = s₂) ∧
      ∃ as s₁, p.ReadsAs s u as s₁ ∧
        (∀ v s', ((∃ t, (p.read s (u ++ '|' :: v)).1 = .ok t) ↔ ∃ t, (p.read s' v).1 = .ok t) ∧
          ∀ e, (p.read s' v).1 = .error e →
            (p.read s (u ++ '|' :: v)).1 = .error (e.shift (u.length + 1)) ∧
            (1 < e.position → (p.read s (u ++ v)).1 = .error (e.shift u.length))) ∧
        ∀ v t', (p.read s₁ v).1 = .ok t' → ∃ bs s₂, p.ReadsAs s₁ v bs s₂ ∧
          p.ReadsAs s (u ++ '|' :: v) (as ++ bs) s₂ ∧ p.ReadsAs s (u ++ v) (splice as bs) s₂ := by
  obtain ⟨⟨as, s₁⟩, hu⟩ := alternatives_of_read h
  refine ⟨fun _ _ _ _ _ _ => ReadsAs.unique, as, s₁, readsAs_of_alternatives hu, ?_, ?_⟩
  · intro v s'
    obtain ⟨hsame, herror⟩ := read_behind_bar hu s' v
    exact ⟨hsame, fun e he => ⟨herror e he, read_behind_factor hu he⟩⟩
  · intro v t' hread
    obtain ⟨⟨bs, s₂⟩, hv⟩ := alternatives_of_read hread
    exact ⟨bs, s₂, readsAs_of_alternatives hv, readsAs_behind_bar hu hv, readsAs_behind_factor hu hv⟩

theorem read_append_of_alternation :
    (∃ t, ((transcribing (some 1)).read () "a|(b)".toList).1 = .ok t) ∧
      (∃ as bs, (transcribing (some 1)).ReadsAs () "a|(b)".toList as () ∧
        (transcribing (some 1)).ReadsAs () "∅|d".toList bs () ∧
        (transcribing (some 1)).ReadsAs () "a|(b)|∅|d".toList (as ++ bs) () ∧
        (transcribing (some 1)).ReadsAs () "a|(b)∅|d".toList (splice as bs) ()) ∧
      ((transcribing (some 1)).read () "c((".toList).1 = .error (.tooDeep 3) ∧
      ((transcribing (some 1)).read () "a|(b)|c((".toList).1 = .error (.tooDeep 9) ∧
      ((transcribing (some 1)).read () "a|(b)c((".toList).1 = .error (.tooDeep 8) := by
  obtain ⟨-, as, s₁, hfirst, herrors, hreads⟩ :=
    read_append (p := transcribing (some 1)) (s := ()) (u := "a|(b)".toList) rfl
  obtain ⟨bs, s₂, hsecond, hbar, hjoined⟩ := hreads "∅|d".toList _ rfl
  have hdeep : ((transcribing (some 1)).read () "c((".toList).1 = .error (.tooDeep 3) := by decide
  obtain ⟨hbehind, hbeside⟩ := (herrors "c((".toList ()).2 _ hdeep
  exact ⟨⟨_, rfl⟩, ⟨as, bs, hfirst, hsecond, hbar, hjoined⟩, hdeep, hbehind, hbeside (by decide)⟩

end Parser

end RegexTree
