import RegexTree.CodePoint.Set

namespace RegexTree

variable {u v : List Char}

def digitValue (c : Char) : Nat :=
  if c.isDigit then c.toNat - '0'.toNat else c.toNat - 'A'.toNat + 10

def hexValue (cs : List Char) : Nat := cs.foldl (fun n c => 16 * n + digitValue c) 0

theorem digitValue_digitChar : ∀ d < 16, digitValue (Nat.digitChar d).toUpper = d := by decide

theorem hexValue_concat (cs : List Char) (c : Char) :
    hexValue (cs ++ [c]) = 16 * hexValue cs + digitValue c := by
  simp [hexValue]

theorem hexValue_toDigits (n : Nat) : hexValue ((Nat.toDigits 16 n).map Char.toUpper) = n := by
  induction n using Nat.strongRecOn with
  | ind n ih =>
      by_cases hn : n < 16
      · rw [Nat.toDigits_of_lt_base hn]
        simpa [hexValue] using digitValue_digitChar n hn
      · rw [Nat.toDigits_of_base_le (by decide) (Nat.le_of_not_lt hn), List.map_append,
          List.map_singleton, hexValue_concat, ih (n / 16) (by omega),
          digitValue_digitChar _ (Nat.mod_lt _ (by decide))]
        omega

theorem hexValue_leftpad (k : Nat) (cs : List Char) :
    hexValue (cs.leftpad k '0') = hexValue cs := by
  have hzeros : ∀ m, (List.replicate m '0').foldl (fun n c => 16 * n + digitValue c) 0 = 0 := by
    intro m
    induction m with
    | zero => rfl
    | succ m ih => exact ih
  rw [hexValue, List.leftpad, List.foldl_append, hzeros, hexValue]

theorem hexValue_hexDigits (n : Nat) : hexValue (hexDigits n) = n := by
  rw [hexDigits, hexValue_leftpad, hexValue_toDigits]

theorem mem_toDigits {n : Nat} {c : Char} (h : c ∈ Nat.toDigits 16 n) :
    ∃ d < 16, c = Nat.digitChar d := by
  induction n using Nat.strongRecOn with
  | ind n ih =>
      by_cases hn : n < 16
      · rw [Nat.toDigits_of_lt_base hn, List.mem_singleton] at h
        exact ⟨n, hn, h⟩
      · rw [Nat.toDigits_of_base_le (by decide) (Nat.le_of_not_lt hn), List.mem_append,
          List.mem_singleton] at h
        rcases h with h | h
        · exact ih (n / 16) (by omega) h
        · exact ⟨n % 16, Nat.mod_lt _ (by decide), h⟩

def marks : List Char := ['-', '\\', ']']

theorem digitChar_notMem_marks : ∀ d < 16, (Nat.digitChar d).toUpper ∉ marks := by decide

theorem notMem_marks_of_mem_hexDigits {n : Nat} {c : Char} (h : c ∈ hexDigits n) : c ∉ marks := by
  rw [hexDigits, List.leftpad, List.mem_append] at h
  rcases h with h | h
  · rw [List.eq_of_mem_replicate h]
    decide
  · obtain ⟨d, hd, rfl⟩ := List.mem_map.mp h
    obtain ⟨k, hk, rfl⟩ := mem_toDigits hd
    exact digitChar_notMem_marks k hk

theorem takeWhile_digits {ds : List Char} (hds : ∀ c ∈ ds, c ∉ marks)
    (hu : ∀ c ∈ u.head?, c ∈ marks) : (ds ++ u).takeWhile (· ∉ marks) = ds := by
  rw [List.takeWhile_append_of_pos (by simpa using hds)]
  cases u with
  | nil => simp
  | cons c u => simp [hu c rfl]

theorem hexDigits_append_inj {m n : Nat} (hu : ∀ c ∈ u.head?, c ∈ marks)
    (hv : ∀ c ∈ v.head?, c ∈ marks) (h : hexDigits m ++ u = hexDigits n ++ v) : m = n ∧ u = v := by
  have hdigits : hexDigits m = hexDigits n := by
    rw [← takeWhile_digits (fun _ => notMem_marks_of_mem_hexDigits) hu, h,
      takeWhile_digits (fun _ => notMem_marks_of_mem_hexDigits) hv]
  refine ⟨?_, List.append_cancel_left (hdigits ▸ h)⟩
  rw [← hexValue_hexDigits m, hdigits, hexValue_hexDigits]

theorem escaped_append_inj {x y : UInt32} (hu : ∀ c ∈ u.head?, c ∈ marks)
    (hv : ∀ c ∈ v.head?, c ∈ marks) (h : escaped x ++ u = escaped y ++ v) : x = y ∧ u = v := by
  simp only [escaped, List.cons_append, List.cons.injEq, true_and] at h
  obtain ⟨heq, hrest⟩ := hexDigits_append_inj hu hv h
  exact ⟨UInt32.toNat_inj.mp heq, hrest⟩

namespace CodePointRange

variable {r s : CodePointRange} {rs ss : List CodePointRange}

def Behind (u : List Char) : Prop := ∃ c v, u = c :: v ∧ (c = '\\' ∨ c = ']')

theorem Behind.head (h : Behind u) : ∀ c ∈ u.head?, c ∈ marks := by
  obtain ⟨c, v, rfl, rfl | rfl⟩ := h <;> simp [marks]

theorem Behind.ne_hyphen (h : Behind u) (v : List Char) : u ≠ '-' :: v := by
  obtain ⟨c, w, rfl, rfl | rfl⟩ := h <;> simp

theorem exists_chars_eq (r : CodePointRange) : ∃ cs, r.chars = '\\' :: cs := by
  rw [chars]
  split <;> exact ⟨_, rfl⟩

theorem behind_flatMap (rs : List CodePointRange) (u : List Char) :
    Behind (rs.flatMap chars ++ ']' :: u) := by
  cases rs with
  | nil => exact ⟨']', u, rfl, .inr rfl⟩
  | cons r rs =>
      obtain ⟨cs, hcs⟩ := r.exists_chars_eq
      exact ⟨'\\', cs ++ (rs.flatMap chars ++ ']' :: u), by simp [hcs], .inl rfl⟩

theorem chars_append (r : CodePointRange) (u : List Char) :
    r.chars ++ u =
      escaped r.first ++ if r.first = r.last then u else '-' :: (escaped r.last ++ u) := by
  rw [chars]
  split <;> simp

theorem head_behind_first (r : CodePointRange) (hu : Behind u) :
    ∀ c ∈ (if r.first = r.last then u else '-' :: (escaped r.last ++ u)).head?, c ∈ marks := by
  split
  · exact hu.head
  · simp [marks]

theorem chars_append_inj (hu : Behind u) (hv : Behind v) (h : r.chars ++ u = s.chars ++ v) :
    r = s ∧ u = v := by
  rw [chars_append, chars_append] at h
  obtain ⟨hfirst, hrest⟩ := escaped_append_inj (head_behind_first r hu) (head_behind_first s hv) h
  split at hrest
  · next hr =>
      split at hrest
      · next hs => exact ⟨CodePointRange.ext hfirst (by rw [← hr, ← hs, hfirst]), hrest⟩
      · exact absurd hrest (hu.ne_hyphen _)
  · split at hrest
    · exact absurd hrest.symm (hv.ne_hyphen _)
    · obtain ⟨hlast, hrest⟩ := escaped_append_inj hu.head hv.head (List.cons.inj hrest).2
      exact ⟨CodePointRange.ext hfirst hlast, hrest⟩

theorem flatMap_chars_append_inj (h : rs.flatMap chars ++ ']' :: u = ss.flatMap chars ++ ']' :: v) :
    rs = ss ∧ u = v := by
  induction rs generalizing ss with
  | nil =>
      cases ss with
      | nil => exact ⟨rfl, (List.cons.inj h).2⟩
      | cons s ss =>
          obtain ⟨cs, hcs⟩ := s.exists_chars_eq
          simp [hcs] at h
  | cons r rs ih =>
      cases ss with
      | nil =>
          obtain ⟨cs, hcs⟩ := r.exists_chars_eq
          simp [hcs] at h
      | cons s ss =>
          rw [List.flatMap_cons, List.flatMap_cons, List.append_assoc, List.append_assoc] at h
          obtain ⟨rfl, hrest⟩ := chars_append_inj (behind_flatMap rs u) (behind_flatMap ss v) h
          obtain ⟨rfl, hbehind⟩ := ih hrest
          exact ⟨rfl, hbehind⟩

end CodePointRange

theorem CodePointSet.chars_append_inj {s t : CodePointSet} (h : s.chars ++ u = t.chars ++ v) :
    s = t ∧ u = v := by
  simp only [chars, List.cons_append, List.append_assoc, List.nil_append, List.cons.injEq,
    true_and] at h
  obtain ⟨hranges, hrest⟩ := CodePointRange.flatMap_chars_append_inj h
  exact ⟨congrArg CodePointSet.mk (Array.toList_inj.mp hranges), hrest⟩

end RegexTree
