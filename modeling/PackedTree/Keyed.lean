/-! # Canonical lists of pairs

A list of pairs is made canonical by sorting it by key, with equal keys in the order in which
they came, and keeping of each key only the last pair.  So the pair written last wins, and the
keys that remain ascend strictly.  `overwritten` counts the pairs that go;
`length_canonical_add_overwritten` says that no others do. -/

namespace PackedTree.Keyed

variable {κ α : Type} (cmp : κ → κ → Ordering)

/-- Of neighbours with one key, the last. -/
def lastOfRuns : List (κ × α) → List (κ × α)
  | [] => []
  | [p] => [p]
  | p :: q :: rest =>
      if cmp p.1 q.1 = .eq then lastOfRuns (q :: rest) else p :: lastOfRuns (q :: rest)

/-- The number of neighbours with one key. -/
def repeats : List (κ × α) → Nat
  | [] => 0
  | [_] => 0
  | p :: q :: rest => (if cmp p.1 q.1 = .eq then 1 else 0) + repeats (q :: rest)

/-- The pairs in ascending order of their keys, those with one key in the given order. -/
def sorted (pairs : List (κ × α)) : List (κ × α) :=
  pairs.mergeSort fun p q => (cmp p.1 q.1).isLE

/-- The canonical form of a list of pairs. -/
def canonical (pairs : List (κ × α)) : List (κ × α) := lastOfRuns cmp (sorted cmp pairs)

/-- The number of pairs that a later one with the same key replaces. -/
def overwritten (pairs : List (κ × α)) : Nat := repeats cmp (sorted cmp pairs)

theorem lastOfRuns_sublist (pairs : List (κ × α)) : (lastOfRuns cmp pairs).Sublist pairs := by
  fun_induction lastOfRuns cmp pairs with
  | case1 => exact List.Sublist.refl _
  | case2 p => exact List.Sublist.refl _
  | case3 p q rest h ih => exact ih.cons p
  | case4 p q rest h ih => exact ih.cons_cons p

theorem length_lastOfRuns_add_repeats (pairs : List (κ × α)) :
    (lastOfRuns cmp pairs).length + repeats cmp pairs = pairs.length := by
  fun_induction lastOfRuns cmp pairs with
  | case1 => rfl
  | case2 p => rfl
  | case3 p q rest h ih =>
      rw [repeats, if_pos h, List.length_cons, ← ih]
      omega
  | case4 p q rest h ih =>
      rw [repeats, if_neg h, List.length_cons, List.length_cons, ← ih]
      omega

theorem mem_of_mem_canonical {pairs : List (κ × α)} {p : κ × α} (h : p ∈ canonical cmp pairs) :
    p ∈ pairs :=
  List.mem_mergeSort.mp ((lastOfRuns_sublist cmp _).mem h)

theorem length_canonical_add_overwritten (pairs : List (κ × α)) :
    (canonical cmp pairs).length + overwritten cmp pairs = pairs.length := by
  rw [canonical, overwritten, length_lastOfRuns_add_repeats, sorted, List.length_mergeSort]

end PackedTree.Keyed
