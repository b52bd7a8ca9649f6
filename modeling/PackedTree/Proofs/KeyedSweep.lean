import PackedTree.Bytes.KeyOrder
import PackedTree.Proofs.KeyedCanonical

/-! # Canonical pairs in one sweep

The canonical form of a list of pairs can be gathered in one sweep over the sorted list: a pair goes
over the one kept last if they have the same key, and else behind it (`Keyed.sweep`).  The sweep
compares keys for equality and counts the pairs that it drops.  For an order of keys in which only
equal keys rank the same (`Keyed.IsLinear`), what it keeps and what it counts are `Keyed.canonical`
and `Keyed.overwritten` (`sweep_sorted`).

`keeps_last_of_each_key` says what that comes to for pairs with byte strings as keys: of each key
the pair that stands last in the given list, in ascending order of the keys. -/

namespace PackedTree.Keyed

variable {κ α : Type}

/-- Different keys rank one before the other, in either direction and transitively. -/
structure IsLinear (cmp : κ → κ → Ordering) : Prop where
  eq_iff : ∀ k l, cmp k l = .eq ↔ k = l
  swap : ∀ k l, cmp l k = (cmp k l).swap
  lt_trans : ∀ k l m, cmp k l = .lt → cmp l m = .lt → cmp k m = .lt

theorem isLinear_keyCompare : IsLinear Bytes.keyCompare where
  eq_iff := fun _ _ => Bytes.keyCompare_eq_iff
  swap := fun _ _ => Std.OrientedCmp.eq_swap
  lt_trans := fun _ _ _ => Std.TransCmp.lt_trans

/-! ### The sweep -/

/-- One more pair for the kept ones, last one first, and for the number of dropped ones. -/
def place [DecidableEq κ] (swept : List (κ × α) × Nat) (p : κ × α) : List (κ × α) × Nat :=
  match swept with
  | ([], dropped) => ([p], dropped)
  | (q :: kept, dropped) =>
      if q.1 = p.1 then (p :: kept, dropped + 1) else (p :: q :: kept, dropped)

/-- The pairs that are kept of a sorted list, and the number of those that are dropped. -/
def sweep [DecidableEq κ] (pairs : List (κ × α)) : List (κ × α) × Nat :=
  let (kept, dropped) := pairs.foldl place ([], 0)
  (kept.reverse, dropped)

section Sweep

variable [DecidableEq κ] {cmp : κ → κ → Ordering} (h : IsLinear cmp)
include h

/-- From any pair on, the sweep keeps the last of neighbours with one key and counts the others. -/
theorem foldl_place (p : κ × α) (kept pairs : List (κ × α)) (dropped : Nat) :
    pairs.foldl place (p :: kept, dropped) =
      ((lastOfRuns cmp (p :: pairs)).reverse ++ kept, dropped + repeats cmp (p :: pairs)) := by
  induction pairs generalizing p kept dropped with
  | nil => rfl
  | cons q pairs ih =>
      have heq := h.eq_iff p.1 q.1
      by_cases hk : p.1 = q.1
      · rw [List.foldl_cons, place, if_pos hk, ih, lastOfRuns, repeats, if_pos (heq.mpr hk),
          if_pos (heq.mpr hk), Nat.add_assoc]
      · have hne : ¬ cmp p.1 q.1 = .eq := fun hc => hk (heq.mp hc)
        rw [List.foldl_cons, place, if_neg hk, ih, lastOfRuns, repeats, if_neg hne, if_neg hne,
          List.reverse_cons, List.append_assoc, Nat.zero_add]
        rfl

theorem sweep_eq (pairs : List (κ × α)) :
    sweep pairs = (lastOfRuns cmp pairs, repeats cmp pairs) := by
  cases pairs with
  | nil => rfl
  | cons p pairs =>
      simp only [sweep, List.foldl_cons, place]
      rw [foldl_place h]
      simp

/-- Sweeping the sorted pairs keeps the canonical ones and counts those that are overwritten. -/
theorem sweep_sorted (pairs : List (κ × α)) :
    sweep (sorted cmp pairs) = (canonical cmp pairs, overwritten cmp pairs) :=
  sweep_eq h _

end Sweep

/-! ### The last pair of a key by its place -/

theorem last?_eq_some_iff (cmp : κ → κ → Ordering) {k : κ} {pairs : List (κ × α)} {p : κ × α} :
    last? cmp k pairs = some p ↔
      cmp p.1 k = .eq ∧ ∃ l r, pairs = l ++ p :: r ∧ ∀ q ∈ r, cmp q.1 k ≠ .eq := by
  induction pairs using List.reverseRecOn with
  | nil => simp [last?_nil]
  | append_singleton pairs q ih =>
      rw [last?_concat]
      constructor
      · intro hl
        split at hl
        · next hq =>
            cases hl
            exact ⟨hq, pairs, [], rfl, List.forall_mem_nil _⟩
        · next hq =>
            obtain ⟨hp, l, r, rfl, hr⟩ := ih.mp hl
            refine ⟨hp, l, r ++ [q], by simp, ?_⟩
            intro s hs
            rcases List.mem_append.mp hs with hs | hs
            · exact hr s hs
            · rw [List.mem_singleton.mp hs]
              exact hq
      · rintro ⟨hp, l, r, heq, hr⟩
        rcases r.eq_nil_or_concat with rfl | ⟨r, s, rfl⟩
        · obtain ⟨-, rfl⟩ := List.append_singleton_inj.mp heq
          rw [if_pos hp]
        · rw [List.concat_eq_append, ← List.cons_append, ← List.append_assoc] at heq
          obtain ⟨rfl, rfl⟩ := List.append_singleton_inj.mp heq
          rw [List.concat_eq_append, List.forall_mem_append] at hr
          rw [if_neg (hr.2 q List.mem_cons_self)]
          exact ih.mpr ⟨hp, l, r, rfl, hr.1⟩

theorem exists_last? (cmp : κ → κ → Ordering) [Std.ReflCmp cmp] {pairs : List (κ × α)} {p : κ × α}
    (hp : p ∈ pairs) : ∃ q, last? cmp p.1 pairs = some q := by
  have hmem : p ∈ pairs.filter fun q => cmp q.1 p.1 == .eq := by
    apply List.mem_filter.mpr
    exact ⟨hp, by simp [Std.ReflCmp.compare_self]⟩
  exact ⟨_, List.getLast?_eq_some_getLast (List.ne_nil_of_mem hmem)⟩

variable {cmp : κ → κ → Ordering} [Std.TransCmp cmp]

theorem mem_canonical_iff_split (h : IsLinear cmp) (pairs : List (κ × α)) (p : κ × α) :
    p ∈ canonical cmp pairs ↔ ∃ l r, pairs = l ++ p :: r ∧ p.1 ∉ r.map Prod.fst := by
  have hkey (q : κ × α) : cmp q.1 p.1 = .eq ↔ q.1 = p.1 := h.eq_iff q.1 p.1
  rw [mem_canonical_iff, last?_eq_some_iff]
  simp only [hkey, true_and, List.mem_map, not_exists, not_and, ne_eq]

theorem mem_keys_canonical_iff (h : IsLinear cmp) (pairs : List (κ × α)) (k : κ) :
    k ∈ (canonical cmp pairs).map Prod.fst ↔ k ∈ pairs.map Prod.fst := by
  constructor
  · intro hk
    obtain ⟨p, hp, rfl⟩ := List.mem_map.mp hk
    exact List.mem_map_of_mem (mem_of_mem_canonical cmp hp)
  · intro hk
    obtain ⟨p, hp, rfl⟩ := List.mem_map.mp hk
    obtain ⟨q, hq⟩ := exists_last? cmp hp
    have hkey : q.1 = p.1 := (h.eq_iff q.1 p.1).mp (mem_of_last? cmp hq).2
    rw [← hkey] at hq ⊢
    exact List.mem_map_of_mem ((mem_canonical_iff cmp pairs q).mpr hq)

/-- Keys are linearly ordered, and only equal ones rank the same.  The canonical pairs ascend
strictly and have the keys of the given pairs; a pair is among them if and only if it stands in the
given list and its key does not come again behind it.  All others are counted as overwritten.  One
sweep over the sorted pairs gathers both. -/
theorem keeps_last_of_each_key (pairs : List (Bytes × α)) :
    let kept := canonical Bytes.keyCompare pairs
    let dropped := overwritten Bytes.keyCompare pairs
    IsLinear Bytes.keyCompare ∧
      sweep (sorted Bytes.keyCompare pairs) = (kept, dropped) ∧
      Ascending Bytes.keyCompare kept ∧
      (∀ k, k ∈ kept.map Prod.fst ↔ k ∈ pairs.map Prod.fst) ∧
      (∀ p, p ∈ kept ↔ ∃ l r, pairs = l ++ p :: r ∧ p.1 ∉ r.map Prod.fst) ∧
      kept.length ≤ pairs.length ∧ dropped = pairs.length - kept.length := by
  intro kept dropped
  have hlinear := isLinear_keyCompare
  have hcount : kept.length + dropped = pairs.length :=
    length_canonical_add_overwritten Bytes.keyCompare pairs
  refine ⟨hlinear, sweep_sorted hlinear pairs, ascending_canonical _ pairs,
    mem_keys_canonical_iff hlinear pairs, mem_canonical_iff_split hlinear pairs, ?_, ?_⟩
  · omega
  · omega

/-- The later one of two pairs with one key is kept. -/
example :
    let pairs : List (Bytes × Nat) := [([98], 0), ([97, 97], 1), ([98], 2), ([97], 3)]
    canonical Bytes.keyCompare pairs = [([97], 3), ([98], 2), ([97, 97], 1)] ∧
      overwritten Bytes.keyCompare pairs = 1 := by
  cbv

end PackedTree.Keyed
