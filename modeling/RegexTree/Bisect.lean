namespace RegexTree

def bisectWindow {α : Type} (side : α → Ordering) (xs : Array α) (low high : Nat)
    (h : high ≤ xs.size) : Bool :=
  if hlt : low < high then
    let middle := low + (high - low) / 2
    have hmiddle : low ≤ middle ∧ middle < high := by omega
    match side xs[middle] with
    | .eq => true
    | .lt => bisectWindow side xs (middle + 1) high h
    | .gt => bisectWindow side xs low middle (by omega)
  else false
termination_by high - low

def bisect {α : Type} (side : α → Ordering) (xs : Array α) : Bool :=
  bisectWindow side xs 0 xs.size (Nat.le_refl _)

end RegexTree
