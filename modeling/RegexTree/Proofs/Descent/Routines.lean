import RegexTree.Proofs.Descent.Classes

namespace RegexTree

namespace Pattern

variable {Shared Draft Symbol : Type} {p : Parser Shared Draft Symbol} {start : Shared}
  {cs rest : List Char} {s s' : Course Shared} {r r' b : Reader Shared Draft Symbol}
  {t u : Regex Symbol} {starred : Bool} {n : Nat}

open Reader

def FactorRead (p : Parser Shared Draft Symbol) (start : Shared) (cs : List Char)
    (b : Reader Shared Draft Symbol) (t : Regex Symbol) (s : Course Shared) : Prop :=
  ∃ r starred, At p start cs s 10 r ∧ s.cursor.shared = r.shared ∧ r.outer = b.outer ∧
    r.inner = b.inner ∧ r.phase = .factor t starred ∧
    (s.cursor.rest.head? = some '*' → starred = true)

def ConcatenationRead (p : Parser Shared Draft Symbol) (start : Shared) (cs : List Char)
    (b : Reader Shared Draft Symbol) (t : Regex Symbol) (s : Course Shared) : Prop :=
  ∃ r u starred, At p start cs s 9 r ∧ s.cursor.shared = r.shared ∧ r.outer = b.outer ∧
    r.inner.alternatives = b.inner.alternatives ∧ r.phase = .factor u starred ∧
    Regex.concat (u :: r.inner.factors).reverse = t ∧
    ∀ c, s.cursor.rest.head? = some c → c = ')' ∨ c = '|'

def ExpressionRead (p : Parser Shared Draft Symbol) (start : Shared) (cs : List Char)
    (outer : List (Expression Symbol)) (t : Regex Symbol) (s : Course Shared) : Prop :=
  ∃ r u starred, At p start cs s 8 r ∧ s.cursor.shared = r.shared ∧ r.outer = outer ∧
    r.phase = .factor u starred ∧ (r.inner.push u).tree = t ∧
    ∀ c, s.cursor.rest.head? = some c → c = ')'

theorem Expression.tree_push_of_split {e e' : Expression Symbol}
    (h : e'.alternatives = e.split.alternatives) (t : Regex Symbol) :
    (e'.push t).tree = .alternation e.tree (Regex.concat (t :: e'.factors).reverse) := by
  rw [Expression.tree, Expression.toAlternatives, Expression.split, List.reverse_cons]
  simp only [Expression.push]
  rw [h, Regex.ofAlternatives_concat (by simp [Expression.split])]
  rfl

namespace Descent

def ReadsBase (p : Parser Shared Draft Symbol) (start : Shared) (cs : List Char) (n : Nat) : Prop :=
  ∀ (s : Course Shared) (r b : Reader Shared Draft Symbol), 11 * s.cursor.rest.length + 5 < n →
    At p start cs s 5 r → s.cursor.shared = r.shared → r.Ready b → r.Startable s.cursor.rest →
    Ends (base p n) s (BaseRead p start cs b) (Fails p start cs)

def ReadsFactor (p : Parser Shared Draft Symbol) (start : Shared) (cs : List Char) (n : Nat) : Prop :=
  ∀ (s : Course Shared) (r b : Reader Shared Draft Symbol), 11 * s.cursor.rest.length + 6 < n →
    At p start cs s 6 r → s.cursor.shared = r.shared → r.Ready b → r.Startable s.cursor.rest →
    Ends (factor p n) s (FactorRead p start cs b) (Fails p start cs)

def ReadsFactors (p : Parser Shared Draft Symbol) (start : Shared) (cs : List Char) (n : Nat) : Prop :=
  ∀ (s : Course Shared) (r : Reader Shared Draft Symbol) (t u : Regex Symbol) (starred : Bool),
    11 * s.cursor.rest.length + 10 < n → At p start cs s 10 r → s.cursor.shared = r.shared →
    r.phase = .factor u starred → Regex.concat (u :: r.inner.factors).reverse = t →
    (s.cursor.rest.head? = some '*' → starred = true) →
    Ends (factors p n t) s (ConcatenationRead p start cs r) (Fails p start cs)

def ReadsConcatenation (p : Parser Shared Draft Symbol) (start : Shared) (cs : List Char) (n : Nat) :
    Prop :=
  ∀ (s : Course Shared) (r : Reader Shared Draft Symbol), 11 * s.cursor.rest.length + 7 < n →
    At p start cs s 7 r → s.cursor.shared = r.shared → r.phase = .base → r.inner.factors = [] →
    Ends (concatenation p n) s (ConcatenationRead p start cs r) (Fails p start cs)

def ReadsAlternatives (p : Parser Shared Draft Symbol) (start : Shared) (cs : List Char) (n : Nat) :
    Prop :=
  ∀ (s : Course Shared) (r : Reader Shared Draft Symbol) (t u : Regex Symbol) (starred : Bool),
    11 * s.cursor.rest.length + 9 < n → At p start cs s 9 r → s.cursor.shared = r.shared →
    r.phase = .factor u starred → (r.inner.push u).tree = t →
    (∀ c, s.cursor.rest.head? = some c → c = ')' ∨ c = '|') →
    Ends (alternatives p n t) s (ExpressionRead p start cs r.outer) (Fails p start cs)

def ReadsExpression (p : Parser Shared Draft Symbol) (start : Shared) (cs : List Char) (n : Nat) :
    Prop :=
  ∀ (s : Course Shared) (r : Reader Shared Draft Symbol), 11 * s.cursor.rest.length + 8 < n →
    At p start cs s 8 r → s.cursor.shared = r.shared → r.phase = .base → r.inner = {} →
    Ends (expression p n) s (ExpressionRead p start cs r.outer) (Fails p start cs)

def ReadsGroup (p : Parser Shared Draft Symbol) (start : Shared) (cs : List Char) (n : Nat) : Prop :=
  ∀ (s : Course Shared) (r b : Reader Shared Draft Symbol), 11 * s.cursor.rest.length + 4 < n →
    At p start cs s 4 r → s.cursor.shared = r.shared → r.Ready b → s.cursor.rest.head? = some '(' →
    Ends (group p n) s (BaseRead p start cs b) (Fails p start cs)

theorem group_reads (hexpression : ReadsExpression p start cs n) (hshort : cs.length < UInt32.size) :
    ReadsGroup p start cs (n + 1) := by
  intro s r b hn h hshared hready hhead
  obtain ⟨rest, hrest⟩ := List.head?_eq_some_iff.mp hhead
  have hlength : s.cursor.rest.length = rest.length + 1 := by rw [hrest, List.length_cons]
  have hbegun : At p start cs (s.mark (.begins .group)) 0 r := h.mark rfl (by decide)
  rw [group]
  simp only [ends_bind, ends_mark, ends_openGroup, ends_advance, ends_expect, ends_closeGroup,
    ends_pure, hbegun.mayOpen_eq hready]
  split
  · next hopen =>
      have hopened := hbegun.openGroup hshort hrest hready hopen
      have hcursor := Course.cursor_advance (s := (s.mark (.begins .group)).openGroup) hrest
      refine (hexpression _ _ ?_ (hopened.mono (by decide)) ?_ rfl rfl).imp (fun t s' hinner => ?_)
        fun _ _ => id
      · rw [hcursor]
        simp only
        omega
      · rw [hcursor]
        exact hshared.trans hready.shared.symm
      · obtain ⟨r', u, starred, hat, hsame, houter, hphase, htree, hend⟩ := hinner
        split
        · next hnone =>
            refine hat.ended hnone ?_
            rw [finish, hphase, hat.position, hsame, houter]
            rfl
        · next d rest' hclose =>
            obtain rfl : d = ')' := hend d (by rw [hclose]; rfl)
            rw [if_pos rfl]
            refine ⟨_, hat.closeGroup hclose hphase houter, ?_, rfl, rfl, ?_⟩
            · rw [Course.cursor_closeGroup, Course.cursor_advance hclose]
              exact hsame
            · rw [← htree]
              rfl
  · next hfull =>
      refine hbegun.refused hrest ?_
      rw [step_of_ready hready (by decide), readBase, if_pos rfl, if_neg hfull, halt, hready.position,
        hready.shared, hbegun.position, Course.cursor_mark, hshared]

theorem literal_reads {c : Char} (h : At p start cs s n r) (hshared : s.cursor.shared = r.shared)
    (hready : r.Ready b) (hrest : s.cursor.rest = c :: rest) (hc : isLiteral c) :
    Ends (advance >>= fun _ => literal p c) s (BaseRead p start cs b) (Fails p start cs) := by
  have hmove : Move p r c (b.literal p c) := .literal hready hc
  have hread := h.advance hrest hmove hready.depth
  have hsame : s.advance.cursor.shared = b.shared := by
    rw [Course.cursor_advance hrest, hready.shared]
    exact hshared
  simp only [literal, ends_bind, ends_advance, ends_ask, ends_pure]
  refine ⟨_, ((hread.withShared _).withShared _).withShared _, ?_, rfl, rfl, ?_⟩ <;>
    simp only [Course.withShared, hsame] <;> rfl

theorem base_reads (hgroup : ReadsGroup p start cs n) : ReadsBase p start cs (n + 1) := by
  intro s r b hn h hshared hready hstart
  have hbegun : At p start cs (s.mark (.begins .base)) 4 r := h.mark rfl (by decide)
  have hless : 11 * s.cursor.rest.length + 4 < n := by omega
  rw [base]
  simp only [ends_bind, ends_mark, ends_peek, Course.cursor_mark]
  cases hrest : s.cursor.rest with
  | nil =>
      rw [hrest] at hstart
      refine hbegun.unexpected_end hshared hrest ?_
      rw [finish, hstart.base_of_nil]
  | cons c rest =>
      rw [hrest] at hstart
      simp only [List.head?_cons]
      split
      · next hc =>
          have hhead : s.cursor.rest.head? = some '(' := by rw [hrest, hc, List.head?_cons]
          exact hgroup (s.mark (.begins .base)) r b hless hbegun hshared hready hhead
      · next hopen =>
          split
          · next hc =>
              subst hc
              exact charClass_reads (s := s.mark (.begins .base)) hless hbegun hshared hready hrest
          · next hclass =>
              split
              · next hc => exact literal_reads hbegun hshared hready hrest hc
              · next hplain =>
                  have hnone : startsFactor c = false := by simp [startsFactor, hopen, hclass, hplain]
                  have hphase : r.phase = .base := hstart.base_of_cons hnone
                  exact hbegun.unexpected hshared hrest (step_eq_unexpected_of_base hphase hnone)

theorem factor_reads (hbase : ReadsBase p start cs n) : ReadsFactor p start cs (n + 1) := by
  intro s r b hn h hshared hready hstart
  have hbegun : At p start cs (s.mark (.begins .factor)) 5 r := h.mark rfl (by decide)
  have hread := hbase (s.mark (.begins .factor)) r b (Nat.lt_of_succ_lt_succ hn) hbegun hshared hready
    hstart
  rw [factor]
  simp only [ends_bind, ends_mark, ends_peek]
  refine hread.imp (fun t s' hread => ?_) fun _ _ => id
  obtain ⟨r', hat, hsame, houter, hinner, hphase⟩ := hread
  cases hrest : s'.cursor.rest with
  | nil => exact ⟨r', false, hat, hsame, houter, hinner, hphase, by simp [hrest]⟩
  | cons c rest =>
      simp only [List.head?_cons]
      split
      · next hc =>
          subst hc
          have hmove : Move p r' '*' _ := .star hphase
          simp only [ends_bind, ends_advance, ends_pure]
          refine ⟨_, true, hat.advance hrest hmove rfl, ?_, houter, hinner, rfl, fun _ => rfl⟩
          rw [Course.cursor_advance hrest]
          exact hsame
      · next hstar =>
          have hlone : s'.cursor.rest.head? = some '*' → false = true := by simp [hrest, hstar]
          split
          · exact ⟨r', false, hat, hsame, houter, hinner, hphase, hlone⟩
          · next hother =>
              simp only [Bool.or_eq_true, decide_eq_true_eq, not_or, Bool.not_eq_true] at hother
              exact hat.unexpected hsame hrest (step_eq_unexpected_of_factor hphase hother.2 hother.1.2
                hother.1.1 fun hc => absurd hc hstar)

theorem factors_reads (hfactor : ReadsFactor p start cs n) (hfactors : ReadsFactors p start cs n)
    (hshort : cs.length < UInt32.size) : ReadsFactors p start cs (n + 1) := by
  intro s r t u starred hn h hshared hphase htree hstar
  have hturned : At p start cs (s.mark (.turns .factors)) 9 r := h.mark rfl (by decide)
  simp only [factors, ends_bind, ends_mark, ends_peek, Course.cursor_mark]
  cases hrest : s.cursor.rest with
  | nil => exact ⟨r, u, starred, hturned, hshared, rfl, rfl, hphase, htree, by simp [hrest]⟩
  | cons c rest =>
      simp only [List.head?_cons]
      split
      · next hc =>
          have hready : r.Ready { r with inner := r.inner.push u } := .factor hphase
          have hnext : At p start cs (s.mark (.turns .factors)) 6 r := hturned.mono (by decide)
          have hstart : r.Startable s.cursor.rest := .inr ⟨c, by rw [hrest, List.head?_cons], hc⟩
          have hless : 11 * s.cursor.rest.length + 6 < n := by omega
          have hread := (hfactor (s.mark (.turns .factors)) _ _ hless hnext hshared hready hstart).and
            ((allRun p n).factor _ hless (hnext.roomy hshort))
          rw [ends_bind]
          refine hread.imp (fun v s' hread => ?_) fun _ _ hend => hend.1
          obtain ⟨⟨r', starred', hat, hsame, houter, hinner, hphase', hstar'⟩, hgains⟩ := hread
          have hshorter : s'.cursor.rest.length < s.cursor.rest.length := hgains.length_lt
          have htree' : Regex.concat (v :: r'.inner.factors).reverse = .concatenation t v := by
            rw [hinner, Expression.push, List.reverse_cons, Regex.concat_concat (by simp), htree]
          refine (hfactors s' r' _ v starred' (by omega) hat hsame hphase' htree' hstar').imp
            (fun t' s'' hrow => ?_) fun _ _ => id
          obtain ⟨r'', w, starred'', hat', hsame', houter', hinner', hlast⟩ := hrow
          refine ⟨r'', w, starred'', hat', hsame', houter'.trans houter, ?_, hlast⟩
          rw [hinner', hinner]
          rfl
      · next hstarts =>
          split
          · next hc =>
              refine ⟨r, u, starred, hturned, hshared, rfl, rfl, hphase, htree, fun d hd => ?_⟩
              rw [Course.cursor_mark, hrest] at hd
              cases hd
              simpa using hc
          · next hother =>
              simp only [Bool.or_eq_true, decide_eq_true_eq, not_or] at hother
              refine hturned.unexpected hshared hrest (step_eq_unexpected_of_factor hphase
                (Bool.not_eq_true _ ▸ hstarts) hother.2 hother.1 fun hc => hstar ?_)
              rw [hrest, hc, List.head?_cons]

theorem concatenation_reads (hfactor : ReadsFactor p start cs n)
    (hfactors : ReadsFactors p start cs n) (hshort : cs.length < UInt32.size) :
    ReadsConcatenation p start cs (n + 1) := by
  intro s r hn h hshared hphase hinner
  have hbegun : At p start cs (s.mark (.begins .concatenation)) 6 r := h.mark rfl (by decide)
  have hless : 11 * s.cursor.rest.length + 6 < n := by omega
  have hread := (hfactor (s.mark (.begins .concatenation)) _ _ hless hbegun hshared (.base hphase)
    (.inl hphase)).and ((allRun p n).factor _ hless (hbegun.roomy hshort))
  rw [concatenation]
  simp only [ends_bind, ends_mark]
  refine hread.imp (fun t s' hread => ?_) fun _ _ hend => hend.1
  obtain ⟨⟨r', starred, hat, hsame, houter, hinner', hphase', hstar⟩, hgains⟩ := hread
  have hshorter : s'.cursor.rest.length < s.cursor.rest.length := hgains.length_lt
  have htree : Regex.concat (t :: r'.inner.factors).reverse = t := by
    rw [hinner', hinner]
    rfl
  refine (hfactors s' r' t t starred (by omega) hat hsame hphase' htree hstar).imp
    (fun t' s'' hrow => ?_) fun _ _ => id
  obtain ⟨r'', w, starred', hat', hsame', houter', halternatives, hlast⟩ := hrow
  refine ⟨r'', w, starred', hat', hsame', houter'.trans houter, ?_, hlast⟩
  rw [halternatives, hinner']

theorem alternatives_reads (hconcatenation : ReadsConcatenation p start cs n)
    (halternatives : ReadsAlternatives p start cs n) (hshort : cs.length < UInt32.size) :
    ReadsAlternatives p start cs (n + 1) := by
  intro s r t u starred hn h hshared hphase htree hend
  have hturned : At p start cs (s.mark (.turns .alternatives)) 8 r := h.mark rfl (by decide)
  simp only [alternatives, ends_bind, ends_mark, ends_peek, Course.cursor_mark]
  cases hrest : s.cursor.rest with
  | nil => exact ⟨r, u, starred, hturned, hshared, rfl, hphase, htree, by simp [hrest]⟩
  | cons c rest =>
      simp only [List.head?_cons]
      split
      · next hc =>
          subst hc
          have hmove : Move p r '|' _ := .split hphase
          have hbar := hturned.advance hrest hmove rfl
          have hsame : (s.mark (.turns .alternatives)).advance.cursor.shared = r.shared := by
            rw [Course.cursor_advance (s := s.mark (.turns .alternatives)) hrest]
            exact hshared
          have hshorter : (s.mark (.turns .alternatives)).advance.cursor.rest.length <
              s.cursor.rest.length :=
            (Course.gains_advance (s := s.mark (.turns .alternatives)) hrest).length_lt
          have hless : 11 * (s.mark (.turns .alternatives)).advance.cursor.rest.length + 7 < n := by omega
          have hread := (hconcatenation _ _ hless (hbar.mono (by decide)) hsame rfl rfl).and
            ((allRun p n).concatenation _ hless (hbar.roomy hshort))
          simp only [ends_bind, ends_advance]
          refine hread.imp (fun v s' hrow => ?_) fun _ _ hfails => hfails.1
          obtain ⟨⟨r', w, starred', hat, hsame', houter, hinner, hphase', hlast, hend'⟩, hgains⟩ := hrow
          have hleft := hgains.length_lt
          have htree' : (r'.inner.push w).tree = .alternation t v := by
            rw [Expression.tree_push_of_split hinner, htree, hlast]
          have houter : r'.outer = r.outer := houter
          rw [← houter]
          exact halternatives s' r' _ w starred' (by omega) hat hsame' hphase' htree' hend'
      · next hbar =>
          have hclose : c = ')' := (hend c (by rw [hrest]; rfl)).resolve_right hbar
          rw [if_pos hclose]
          refine ⟨r, u, starred, hturned, hshared, rfl, hphase, htree, fun d hd => ?_⟩
          rw [Course.cursor_mark, hrest] at hd
          cases hd
          exact hclose

theorem alternation_reads (hconcatenation : ReadsConcatenation p start cs n)
    (halternatives : ReadsAlternatives p start cs n) (hshort : cs.length < UInt32.size)
    (hn : 11 * s.cursor.rest.length + 7 < n) (h : At p start cs s 7 r)
    (hshared : s.cursor.shared = r.shared) (hphase : r.phase = .base) (hinner : r.inner = {}) :
    Ends (concatenation p n >>= alternatives p n) s (ExpressionRead p start cs r.outer)
      (Fails p start cs) := by
  have hread := (hconcatenation s r hn h hshared hphase (by rw [hinner])).and
    ((allRun p n).concatenation s hn (h.roomy hshort))
  rw [ends_bind]
  refine hread.imp (fun t s' hrow => ?_) fun _ _ hfails => hfails.1
  obtain ⟨⟨r', u, starred, hat, hsame, houter, hinner', hphase', hlast, hend⟩, hgains⟩ := hrow
  have hshorter : s'.cursor.rest.length < s.cursor.rest.length := hgains.length_lt
  have htree : (r'.inner.push u).tree = t := by
    rw [← hlast, Expression.tree, Expression.toAlternatives, Expression.split, Expression.push, hinner',
      hinner]
    rfl
  rw [← houter]
  exact halternatives s' r' t u starred (by omega) hat hsame hphase' htree hend

theorem expression_reads (hconcatenation : ReadsConcatenation p start cs n)
    (halternatives : ReadsAlternatives p start cs n) (hshort : cs.length < UInt32.size) :
    ReadsExpression p start cs (n + 1) := by
  intro s r hn h hshared hphase hinner
  have hbegun : At p start cs (s.mark (.begins .expression)) 7 r := h.mark rfl (by decide)
  have hless : 11 * s.cursor.rest.length + 7 < n := by omega
  rw [expression, ends_bind, ends_mark]
  exact alternation_reads hconcatenation halternatives hshort hless hbegun hshared hphase hinner

structure AllRead (p : Parser Shared Draft Symbol) (start : Shared) (cs : List Char) (n : Nat) :
    Prop where
  expression : ReadsExpression p start cs n
  alternatives : ReadsAlternatives p start cs n
  concatenation : ReadsConcatenation p start cs n
  factors : ReadsFactors p start cs n
  factor : ReadsFactor p start cs n
  base : ReadsBase p start cs n
  group : ReadsGroup p start cs n

theorem allRead (p : Parser Shared Draft Symbol) (start : Shared) (hshort : cs.length < UInt32.size)
    (n : Nat) : AllRead p start cs n := by
  induction n with
  | zero => constructor <;> intro s r <;> intros <;> contradiction
  | succ n ih =>
      exact {
        expression := expression_reads ih.concatenation ih.alternatives hshort
        alternatives := alternatives_reads ih.concatenation ih.alternatives hshort
        concatenation := concatenation_reads ih.factor ih.factors hshort
        factors := factors_reads ih.factor ih.factors hshort
        factor := factor_reads ih.base
        base := base_reads ih.group
        group := group_reads ih.expression hshort }

theorem whole_reads (p : Parser Shared Draft Symbol) (start : Shared) (hshort : cs.length < UInt32.size) :
    Ends (whole p (11 * cs.length + 11)) { cursor := { shared := start, rest := cs } }
      (fun t s => s.Sound p.limit start cs ∧ s.cursor.rest = [] ∧ s.cursor.depth = 0 ∧
        ∃ alternatives, t = Regex.ofAlternatives alternatives ∧
          p.alternatives start cs = .ok (alternatives, s.cursor.shared))
      (Fails p start cs) := by
  have hall := allRead p start hshort (11 * cs.length + 10)
  have hfuel : 11 * cs.length + 7 < 11 * cs.length + 10 := by omega
  rw [whole, ends_bind, expression, ends_bind, ends_mark]
  refine (alternation_reads hall.concatenation hall.alternatives hshort hfuel
    (At.beginning p start cs) rfl rfl rfl).imp (fun t s hread => ?_) fun _ _ => id
  rw [ends_bind, ends_peek]
  obtain ⟨r, u, starred, hat, hshared, houter, hphase, htree, hend⟩ := hread
  cases hrest : s.cursor.rest with
  | nil =>
      have hdepth : s.cursor.depth.toNat = 0 := by
        rw [hat.depth, ← (hat.tracks _ hat.sound.text).outer, houter]
        rfl
      refine ⟨hat.sound, hrest, UInt32.toNat_inj.mp hdepth, (r.inner.push u).toAlternatives,
        htree.symm, ?_⟩
      rw [hat.reading, hrest, hshared]
      change r.finish p = _
      rw [finish, hphase, houter]
      rfl
  | cons c rest =>
      obtain rfl : c = ')' := hend c (by rw [hrest]; rfl)
      refine hat.unexpected hshared hrest ?_
      simp [step, hphase, readBehindFactor, Reader.closeGroup, houter]

end Descent

end Pattern

open Pattern

variable {Shared Draft Symbol : Type}

theorem Parser.descend_reads (p : Parser Shared Draft Symbol) (start : Shared) {cs : List Char}
    (hshort : cs.length < UInt32.size) :
    ∃ result s, p.descend start cs = some (result, s) ∧ (result, s.cursor.shared) = p.read start cs ∧
      ((cs = ['ε'] ∨ cs = ['∅']) ∧ s.moments = [] ∨
        s.Sound p.limit start cs ∧ s.Concludes p.limit cs result) := by
  rw [descend, read]
  split
  · next hword => exact ⟨_, _, rfl, rfl, .inl ⟨.inl hword, rfl⟩⟩
  · split
    · next hset => exact ⟨_, _, rfl, rfl, .inl ⟨.inr hset, rfl⟩⟩
    · rcases (Descent.whole_reads p start hshort).exists_outcome with
        ⟨t, s, hrun, hsound, hrest, hdepth, alternatives, rfl, hread⟩ | ⟨e, s, hrun, hfails⟩
      · exact ⟨_, s, hrun, by rw [hread], .inr ⟨hsound, hsound.concludes_ok hrest hdepth⟩⟩
      · exact ⟨_, s, hrun, by rw [hfails.reading],
          .inr ⟨hfails.sound, hfails.sound.concludes_error hfails.position⟩⟩

end RegexTree
