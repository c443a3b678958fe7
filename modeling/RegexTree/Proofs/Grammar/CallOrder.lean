import RegexTree.Proofs.Grammar.Language
import RegexTree.Proofs.Reader.Stop
import RegexTree.Proofs.Symbol.Logging

namespace RegexTree

variable {Shared Draft Symbol : Type} {m : SymbolMaker Shared Draft Symbol}
  {p : Parser Shared Draft Symbol} {s s' s'' : Shared} {u cs : List Char}

namespace Pattern

theorem Derives.valid {part : Part} {t : Regex Leaf} (h : Derives part u t) :
    ∀ l ∈ t.literals, l.Valid := by
  induction h with
  | alternative _ ih | single _ ih | once _ ih | star _ ih | group _ ih => exact ih
  | alternation _ _ ihl ihr | concatenation _ _ ihl ihr =>
      intro l hl
      simp only [Regex.literals_alternation, Regex.literals_concatenation] at hl
      rcases List.mem_append.mp hl with hl | hl
      · exact ihl l hl
      · exact ihr l hl
  | leaf hvalid =>
      intro l hl
      rw [Regex.literals_literal, List.mem_singleton] at hl
      exact hl ▸ hvalid

def Made (m : SymbolMaker Shared Draft Symbol) (s s' : Shared) : Prop :=
  ∃ ls : List Leaf, (∀ l ∈ ls, l.Valid) ∧ m.makeAll (ls.map Leaf.edits) s = s'

def Drafted (m : SymbolMaker Shared Draft Symbol) (s s' : Shared) : Prop :=
  ∃ (s₁ : Shared) (negated : Bool) (items : List Item), Made m s s₁ ∧
    (m.editAll (m.start s₁) (items.map (Item.edit negated))).2 = s'

theorem Made.refl (m : SymbolMaker Shared Draft Symbol) (s : Shared) : Made m s s :=
  ⟨[], nofun, rfl⟩

theorem Made.trans (h : Made m s s') (h' : Made m s' s'') : Made m s s'' := by
  obtain ⟨ls, hls, rfl⟩ := h
  obtain ⟨ls', hls', rfl⟩ := h'
  refine ⟨ls ++ ls', ?_, ?_⟩
  · intro l hl
    rcases List.mem_append.mp hl with hl | hl
    · exact hls l hl
    · exact hls' l hl
  · rw [List.map_append, SymbolMaker.makeAll_append]

theorem Builds.made {part : Part} {t : Regex Symbol} (h : Builds m part u s t s') : Made m s s' := by
  obtain ⟨l, hl, hmade⟩ := h
  refine ⟨l.literals, hl.valid, ?_⟩
  rw [← SymbolMaker.shared_makeTree, hmade]

theorem Factors.made {fs : List (Regex Symbol)} (h : Factors m s u fs s') : Made m s s' := by
  induction h with
  | nil => exact .refl m s
  | cons _ hlast ih => exact ih.trans hlast.made

theorem Alternatives.made {as : List (List (Regex Symbol))} (h : Alternatives m s u as s') :
    Made m s s' := by
  induction h with
  | nil => exact .refl m s
  | cons _ hlast _ ih => exact ih.trans hlast.made

theorem Opened.made {e : Expression Symbol} (h : Opened m s e s' u) : Made m s s' := by
  obtain ⟨has, hfs⟩ := h
  exact has.made.trans hfs.made

theorem Enclosed.made {outer : List (Expression Symbol)} (h : Enclosed m s u outer s') :
    Made m s s' := by
  induction h with
  | nil => exact .refl m s
  | cons _ hlast ih => exact ih.trans hlast.made

namespace Reader

variable {r : Reader Shared Draft Symbol} {halt : Halt Shared}

theorem Spells.made (h : r.Spells m s u) (hout : r.phase.isInClass = false) :
    Made m s r.shared := by
  obtain ⟨houter, hinner, hbegun⟩ := h
  have hmade := houter.made.trans hinner.made
  cases hphase : r.phase with
  | base =>
      rw [hphase] at hbegun
      cases hbegun
      exact hmade
  | factor t starred =>
      rw [hphase] at hbegun
      exact hmade.trans hbegun.builds.made
  | inClass negated draft place =>
      rw [hphase] at hout
      contradiction

theorem Spells.collects {negated : Bool} {draft : Draft} {place : Place} (h : r.Spells m s u)
    (hphase : r.phase = .inClass negated draft place) :
    ∃ s₁ items, Made m s s₁ ∧ Collects m s₁ negated items draft r.shared ∧
      place.Follows negated items := by
  obtain ⟨houter, hinner, hbegun⟩ := h
  rw [hphase] at hbegun
  cases hbegun with
  | inClass _ items _ hitems hplace =>
      exact ⟨_, items, houter.made.trans hinner.made, hitems, hplace⟩

theorem Spells.drafted {negated : Bool} {draft : Draft} {place : Place}
    (h : r.Spells p.maker s u) (hstops : r.Stops p halt)
    (hphase : r.phase = .inClass negated draft place) : Drafted p.maker s halt.shared := by
  obtain ⟨s₁, items, hmade, hitems, hplace⟩ := h.collects hphase
  rcases hstops.shared_inClass hphase with hshared | ⟨first, rfl, hshared⟩
  · refine ⟨s₁, negated, items, hmade, ?_⟩
    rw [hshared, hitems.made]
  · have hmore := hitems.concat (i := .member first) hplace.1 hplace.2
    refine ⟨s₁, negated, items ++ [.member first], hmade, ?_⟩
    rw [hshared, hmore.made]
    rfl

end Reader

end Pattern

namespace Parser

open Pattern

variable {halt : Halt Shared}

theorem made_or_drafted (h : p.alternatives s cs = .error halt) :
    if (Nesting.behind (cs.take (halt.error.position - 1))).inClass
    then Drafted p.maker s halt.shared else Made p.maker s halt.shared := by
  obtain ⟨r, hrun, hstops⟩ := stops_of_alternatives h
  have hspells := spells_of_run hrun
  rw [(tracks_of_run hrun).inClass]
  cases hphase : r.phase with
  | base | factor t starred =>
      have hout : r.phase.isInClass = false := by rw [hphase]; rfl
      have hmade := hspells.made hout
      rw [← hstops.shared_outside hout] at hmade
      exact hmade
  | inClass negated draft place => exact hspells.drafted hstops hphase

end Parser

namespace Pattern

theorem oneWay_items (negated : Bool) (items : List Item) :
    Edit.OneWay (items.map (Item.edit negated)) := by
  refine ⟨negated, ?_⟩
  intro e he
  obtain ⟨i, -, rfl⟩ := List.mem_map.mp he
  exact ⟨i.codePoints, rfl⟩

theorem Leaf.oneWay_edits (l : Leaf) : Edit.OneWay l.edits := by
  cases l with
  | plain c => exact ⟨false, fun e he => ⟨.single c, List.mem_singleton.mp he⟩⟩
  | charClass negated items => exact oneWay_items negated items

theorem Leaf.edits_ne_nil {l : Leaf} (h : l.Valid) : l.edits ≠ [] := by
  cases l with
  | plain c => simp [edits]
  | charClass negated items =>
      obtain ⟨hitems, -, -⟩ := h
      simpa [edits] using hitems

theorem Leaf.complete {ls : List Leaf} (h : ∀ l ∈ ls, l.Valid) :
    ∀ edits ∈ ls.map Leaf.edits, edits ≠ [] ∧ Edit.OneWay edits := by
  intro edits hedits
  obtain ⟨l, hl, rfl⟩ := List.mem_map.mp hedits
  exact ⟨edits_ne_nil (h l hl), l.oneWay_edits⟩

variable {log : CallLog}

theorem calls_of_made (h : Made .logging {} log) :
    ∃ blocks, (∀ edits ∈ blocks, edits ≠ [] ∧ Edit.OneWay edits) ∧
      log = CallLog.extend {} blocks.length (Call.blocks 1 blocks) := by
  obtain ⟨ls, hls, rfl⟩ := h
  exact ⟨ls.map Leaf.edits, Leaf.complete hls, SymbolMaker.makeAll_logging _ _⟩

theorem calls_of_drafted (h : Drafted .logging {} log) :
    ∃ blocks edits, (∀ edits ∈ blocks, edits ≠ [] ∧ Edit.OneWay edits) ∧ Edit.OneWay edits ∧
      log.calls.toList = Call.blocks 1 blocks ++ Call.opening (blocks.length + 1) edits := by
  obtain ⟨s₁, negated, items, hmade, rfl⟩ := h
  obtain ⟨blocks, hblocks, rfl⟩ := calls_of_made hmade
  refine ⟨blocks, items.map (Item.edit negated), hblocks, oneWay_items negated items, ?_⟩
  rw [SymbolMaker.open_logging, CallLog.toList_extend, CallLog.toList_extend]
  simp

theorem calls_of_builds {part : Part} {t : Regex Nat} (h : Builds .logging part cs {} t log) :
    ∃ blocks, (∀ edits ∈ blocks, edits ≠ [] ∧ Edit.OneWay edits) ∧
      log.calls.toList = Call.blocks 1 blocks ∧ t.literals = List.range' 1 blocks.length := by
  obtain ⟨l, hl, hmade⟩ := h
  have hlog := SymbolMaker.shared_makeTree_logging l {}
  have hliterals := SymbolMaker.literals_makeTree_logging l {}
  rw [hmade] at hlog hliterals
  obtain rfl : log = _ := hlog
  refine ⟨l.literals.map Leaf.edits, Leaf.complete hl.valid, ?_, ?_⟩
  · rw [CallLog.toList_extend]
    rfl
  · rw [List.length_map]
    exact hliterals

end Pattern

namespace Parser

open Pattern

variable {limit : Option Nat} {log : CallLog}

theorem calls_of_ok {t : Regex Nat} (h : (Parser.mk .logging limit).read {} cs = (.ok t, log)) :
    ∃ blocks, (∀ edits ∈ blocks, edits ≠ [] ∧ Edit.OneWay edits) ∧
      log.calls.toList = Call.blocks 1 blocks ∧ t.literals = List.range' 1 blocks.length := by
  by_cases hword : cs = ['ε']
  · rw [read, if_pos hword] at h
    cases h
    exact ⟨[], by simp, rfl, rfl⟩
  by_cases hset : cs = ['∅']
  · rw [read, if_neg hword, if_pos hset] at h
    cases h
    exact ⟨[], by simp, rfl, rfl⟩
  obtain ⟨a, ha, rfl, rfl⟩ := (read_eq_ok_iff_of_ne hword hset).mp h
  exact calls_of_builds (builds_of_alternatives ha)

theorem calls_of_error {e : ParseError} (h : (Parser.mk .logging limit).read {} cs = (.error e, log)) :
    ∃ (blocks : List (List Edit)) (pending : Option (List Edit)),
      (∀ edits ∈ blocks, edits ≠ [] ∧ Edit.OneWay edits) ∧
      (∀ edits ∈ pending, Edit.OneWay edits) ∧
      log.calls.toList =
        Call.blocks 1 blocks ++ (pending.map (Call.opening (blocks.length + 1))).getD [] ∧
      (pending.isSome ↔ (Nesting.behind (cs.take (e.position - 1))).inClass) := by
  obtain ⟨halt, herror, rfl⟩ := read_eq_error_iff.mp (congrArg Prod.fst h)
  rw [read_eq_of_error herror] at h
  cases h
  have hleft := made_or_drafted herror
  split at hleft
  · next hin =>
      obtain ⟨blocks, edits, hblocks, hedits, hcalls⟩ := calls_of_drafted hleft
      exact ⟨blocks, some edits, hblocks, by simpa using hedits, hcalls, by simp [hin]⟩
  · next hout =>
      obtain ⟨blocks, hblocks, hcalls⟩ := calls_of_made hleft
      exact ⟨blocks, none, hblocks, by simp, by simp [hcalls], by simp [hout]⟩

theorem read_logging (limit : Option Nat) (cs : List Char) :
    ∃ (blocks : List (List Edit)) (pending : Option (List Edit)),
      (∀ edits ∈ blocks, edits ≠ [] ∧ Edit.OneWay edits) ∧
      (∀ edits ∈ pending, Edit.OneWay edits) ∧
      ((Parser.mk .logging limit).read {} cs).2.calls.toList =
        Call.blocks 1 blocks ++ (pending.map (Call.opening (blocks.length + 1))).getD [] ∧
      (∀ t, ((Parser.mk .logging limit).read {} cs).1 = .ok t →
        pending = none ∧ t.literals = List.range' 1 blocks.length) ∧
      ∀ e, ((Parser.mk .logging limit).read {} cs).1 = .error e →
        (pending.isSome ↔ (Nesting.behind (cs.take (e.position - 1))).inClass) := by
  rcases hread : (Parser.mk .logging limit).read {} cs with ⟨outcome, log⟩
  cases outcome with
  | ok t =>
      obtain ⟨blocks, hblocks, hcalls, hliterals⟩ := calls_of_ok hread
      refine ⟨blocks, none, hblocks, by simp, by simpa using hcalls, ?_, by simp⟩
      intro t' ht
      cases ht
      exact ⟨rfl, hliterals⟩
  | error e =>
      obtain ⟨blocks, pending, hblocks, hpending, hcalls, hinside⟩ := calls_of_error hread
      refine ⟨blocks, pending, hblocks, hpending, hcalls, by simp, ?_⟩
      intro e' he
      cases he
      exact hinside

example : ((Parser.mk .logging none).read {} "a[^b-d*".toList).2.calls.toList =
    Call.blocks 1 [[.including [.single 'a']]] ++
      Call.opening 2 [.excluding [.between 'b' 'd']] := by decide

end Parser

end RegexTree
