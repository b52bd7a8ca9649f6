import PackedTree.Keyed
import Mathlib.Data.List.Induction
import Mathlib.Data.List.Nodup
import Mathlib.Data.List.Permutation
import Mathlib.Data.List.Sort

/-! # What a canonical list of pairs holds

`Keyed.canonical` sorts and then drops all but the last pair of each key.  The plain account of
the same list is `Keyed.written`: the pairs are written one after the other into an ascending
list, each in its place or over the pair that has its key.  The two agree
(`canonical_eq_written`), because both are strictly ascending (`ascending_canonical`,
`ascending_written`) and hold exactly the pairs that are the last of their key
(`mem_canonical_iff`, `mem_written_iff`). -/

namespace PackedTree.Keyed

variable {κ α β : Type} (cmp : κ → κ → Ordering)

/-- Each key comes before the next one. -/
def Ascending (pairs : List (κ × α)) : Prop := pairs.Pairwise fun p q => cmp p.1 q.1 = .lt

theorem ascending_iff_keys {pairs : List (κ × α)} :
    Ascending cmp pairs ↔ (pairs.map Prod.fst).Pairwise fun k l => cmp k l = .lt := by
  rw [List.pairwise_map]
  rfl

/-- The pair that was written last with the given key. -/
def last? (k : κ) (pairs : List (κ × α)) : Option (κ × α) :=
  (pairs.filter fun p => cmp p.1 k == .eq).getLast?

/-- Writes a pair into an ascending list: in its place, or over the pair with the same key. -/
def put (p : κ × α) : List (κ × α) → List (κ × α)
  | [] => [p]
  | q :: rest =>
      match cmp p.1 q.1 with
      | .lt => p :: q :: rest
      | .eq => p :: rest
      | .gt => q :: put p rest

/-- The list that results when all pairs are written in the given order. -/
def written (pairs : List (κ × α)) : List (κ × α) := pairs.foldl (fun acc p => put cmp p acc) []

theorem written_concat (pairs : List (κ × α)) (p : κ × α) :
    written cmp (pairs ++ [p]) = put cmp p (written cmp pairs) := by
  unfold written
  rw [List.foldl_append, List.foldl_cons, List.foldl_nil]

/-! ### The last pair of a key -/

theorem last?_nil (k : κ) : last? cmp k ([] : List (κ × α)) = none := rfl

theorem last?_concat (k : κ) (pairs : List (κ × α)) (p : κ × α) :
    last? cmp k (pairs ++ [p]) = if cmp p.1 k = .eq then some p else last? cmp k pairs := by
  unfold last?
  rw [List.filter_append]
  by_cases h : cmp p.1 k = .eq <;> simp [h]

theorem last?_cons (k : κ) (p : κ × α) (pairs : List (κ × α)) :
    last? cmp k (p :: pairs) =
      (last? cmp k pairs).or (if cmp p.1 k = .eq then some p else none) := by
  unfold last?
  by_cases h : cmp p.1 k = .eq
  · rw [List.filter_cons_of_pos (by simpa using h), if_pos h, List.getLast?_cons]
    cases (pairs.filter fun p => cmp p.1 k == .eq).getLast? <;> rfl
  · rw [List.filter_cons_of_neg (by simpa using h), if_neg h, Option.or_none]

theorem mem_of_last? {k : κ} {pairs : List (κ × α)} {p : κ × α} (h : last? cmp k pairs = some p) :
    p ∈ pairs ∧ cmp p.1 k = .eq := by
  have hm := List.mem_filter.mp (List.mem_of_getLast? h)
  exact ⟨hm.1, by simpa using hm.2⟩

theorem last?_eq_none {k : κ} {pairs : List (κ × α)} (h : ∀ p ∈ pairs, cmp p.1 k ≠ .eq) :
    last? cmp k pairs = none := by
  unfold last?
  rw [List.filter_eq_nil_iff.mpr (fun p hp => by simpa using h p hp)]
  rfl

/-! ### Ascending lists -/

section Ascending

variable [Std.TransCmp cmp]

theorem ne_of_lt {a b : κ} (h : cmp a b = .lt) : cmp a b ≠ .eq ∧ cmp b a ≠ .eq := by
  have swap : cmp b a = (cmp a b).swap := Std.OrientedCmp.eq_swap
  rw [h] at swap
  exact ⟨by simp [h], by simp [swap]⟩

theorem nodup_of_pairwise {keys : List κ} (h : keys.Pairwise fun k l => cmp k l = .lt) :
    keys.Nodup := by
  refine List.Pairwise.imp (fun {k l} hlt heq => ?_) h
  exact (ne_of_lt cmp hlt).1 (heq ▸ Std.ReflCmp.compare_self)

theorem nodup_keys {pairs : List (κ × α)} (h : Ascending cmp pairs) :
    (pairs.map Prod.fst).Nodup :=
  nodup_of_pairwise cmp ((ascending_iff_keys cmp).mp h)

theorem last?_of_ascending {pairs : List (κ × α)} (h : Ascending cmp pairs) (p : κ × α) :
    last? cmp p.1 pairs = some p ↔ p ∈ pairs := by
  induction pairs with
  | nil => simp [last?_nil]
  | cons q rest ih =>
      obtain ⟨hq, hr⟩ := List.pairwise_cons.mp h
      rw [last?_cons]
      constructor
      · intro hl
        rcases hc : last? cmp p.1 rest with _ | r
        · rw [hc, Option.none_or] at hl
          split at hl
          · exact List.mem_cons.mpr (.inl (Option.some.inj hl).symm)
          · cases hl
        · rw [hc, Option.some_or] at hl
          cases hl
          exact List.mem_cons_of_mem _ (mem_of_last? cmp hc).1
      · intro hm
        rcases List.mem_cons.mp hm with rfl | hm
        · have hn : last? cmp p.1 rest = none :=
            last?_eq_none cmp fun r hr => (ne_of_lt cmp (hq r hr)).2
          rw [hn, if_pos Std.ReflCmp.compare_self, Option.none_or]
        · rw [(ih hr).mpr hm, Option.some_or]

/-- Ascending lists that hold the same pairs are the same list. -/
theorem eq_of_ascending {ps qs : List (κ × α)} (hp : Ascending cmp ps) (hq : Ascending cmp qs)
    (h : ∀ p, p ∈ ps ↔ p ∈ qs) : ps = qs := by
  have nodup {l : List (κ × α)} (hl : Ascending cmp l) : l.Nodup :=
    List.Nodup.of_map Prod.fst (nodup_keys cmp hl)
  have perm := (List.perm_ext_iff_of_nodup (nodup hp) (nodup hq)).mpr h
  refine List.Perm.eq_of_pairwise ?_ hp hq perm
  intro a b _ _ hab hba
  have swap : cmp b.1 a.1 = (cmp a.1 b.1).swap := Std.OrientedCmp.eq_swap
  rw [hab, hba] at swap
  cases swap

end Ascending

/-! ### Writing pairs one by one -/

section Written

theorem mem_of_mem_put {p q : κ × α} {pairs : List (κ × α)} (h : q ∈ put cmp p pairs) :
    q = p ∨ q ∈ pairs := by
  fun_induction put cmp p pairs with
  | case1 => exact .inl (List.mem_singleton.mp h)
  | case2 r rest hc => exact (List.mem_cons.mp h)
  | case3 r rest hc => exact (List.mem_cons.mp h).imp_right (List.mem_cons_of_mem _)
  | case4 r rest hc ih =>
      rcases List.mem_cons.mp h with rfl | h
      · exact .inr List.mem_cons_self
      · exact (ih h).imp_right (List.mem_cons_of_mem _)

variable [Std.TransCmp cmp]

theorem ascending_put {pairs : List (κ × α)} (h : Ascending cmp pairs) (p : κ × α) :
    Ascending cmp (put cmp p pairs) := by
  fun_induction put cmp p pairs with
  | case1 => exact List.pairwise_singleton _ _
  | case2 r rest hc =>
      refine List.pairwise_cons.mpr ⟨fun q hq => ?_, h⟩
      rcases List.mem_cons.mp hq with rfl | hq
      · exact hc
      · exact Std.TransCmp.lt_trans hc ((List.pairwise_cons.mp h).1 q hq)
  | case3 r rest hc =>
      obtain ⟨hr, ht⟩ := List.pairwise_cons.mp h
      exact List.pairwise_cons.mpr ⟨fun q hq => Std.TransCmp.lt_of_eq_of_lt hc (hr q hq), ht⟩
  | case4 r rest hc ih =>
      obtain ⟨hr, ht⟩ := List.pairwise_cons.mp h
      refine List.pairwise_cons.mpr ⟨fun q hq => ?_, ih ht⟩
      rcases mem_of_mem_put cmp hq with rfl | hq
      · exact Std.OrientedCmp.lt_of_gt hc
      · exact hr q hq

theorem ascending_written (pairs : List (κ × α)) : Ascending cmp (written cmp pairs) := by
  induction pairs using List.reverseRecOn with
  | nil => exact List.Pairwise.nil
  | append_singleton pairs p ih =>
      rw [written_concat]
      exact ascending_put cmp ih p

theorem mem_put_iff {pairs : List (κ × α)} (h : Ascending cmp pairs) (p q : κ × α) :
    q ∈ put cmp p pairs ↔ q = p ∨ (q ∈ pairs ∧ cmp p.1 q.1 ≠ .eq) := by
  fun_induction put cmp p pairs with
  | case1 => simp
  | case2 r rest hc =>
      have hne : ∀ s ∈ r :: rest, cmp p.1 s.1 ≠ .eq := by
        intro s hs
        rcases List.mem_cons.mp hs with rfl | hs
        · simp [hc]
        · simp [Std.TransCmp.lt_trans hc ((List.pairwise_cons.mp h).1 s hs)]
      rw [List.mem_cons]
      exact or_congr_right ⟨fun hq => ⟨hq, hne q hq⟩, And.left⟩
  | case3 r rest hc =>
      have hr := (List.pairwise_cons.mp h).1
      rw [List.mem_cons, List.mem_cons]
      refine or_congr_right ⟨fun hq => ⟨.inr hq, ?_⟩, ?_⟩
      · simp [Std.TransCmp.lt_of_eq_of_lt hc (hr q hq)]
      · rintro ⟨rfl | hq, hn⟩
        · exact absurd hc hn
        · exact hq
  | case4 r rest hc ih =>
      rw [List.mem_cons, List.mem_cons, ih (List.pairwise_cons.mp h).2]
      constructor
      · rintro (rfl | rfl | ⟨hq, hn⟩)
        · exact .inr ⟨.inl rfl, by simp [hc]⟩
        · exact .inl rfl
        · exact .inr ⟨.inr hq, hn⟩
      · rintro (rfl | ⟨rfl | hq, hn⟩)
        · exact .inr (.inl rfl)
        · exact .inl rfl
        · exact .inr (.inr ⟨hq, hn⟩)

/-- Writing keeps of each key the pair that was written last. -/
theorem mem_written_iff (pairs : List (κ × α)) (p : κ × α) :
    p ∈ written cmp pairs ↔ last? cmp p.1 pairs = some p := by
  induction pairs using List.reverseRecOn with
  | nil => simp [written, last?_nil]
  | append_singleton pairs q ih =>
      rw [written_concat, mem_put_iff cmp (ascending_written cmp pairs), last?_concat, ih]
      constructor
      · rintro (rfl | ⟨hp, hn⟩)
        · rw [if_pos Std.ReflCmp.compare_self]
        · rw [if_neg hn, hp]
      · intro hp
        split at hp
        · exact .inl (Option.some.inj hp).symm
        · next hn => exact .inr ⟨hp, hn⟩

end Written

/-! ### Sorting and dropping -/

section Canonical

variable [Std.TransCmp cmp]

theorem isLE_trans_keys (p q r : κ × α) (h₁ : (cmp p.1 q.1).isLE = true)
    (h₂ : (cmp q.1 r.1).isLE = true) : (cmp p.1 r.1).isLE = true :=
  Std.TransCmp.isLE_trans h₁ h₂

theorem isLE_total_keys (p q : κ × α) :
    ((cmp p.1 q.1).isLE || (cmp q.1 p.1).isLE) = true := by
  have swap : cmp q.1 p.1 = (cmp p.1 q.1).swap := Std.OrientedCmp.eq_swap
  rw [swap]
  cases cmp p.1 q.1 <;> rfl

theorem pairwise_sorted (pairs : List (κ × α)) :
    (sorted cmp pairs).Pairwise fun p q => (cmp p.1 q.1).isLE = true :=
  List.pairwise_mergeSort (isLE_trans_keys cmp) (isLE_total_keys cmp) pairs

/-- Sorting keeps the pairs of one key in the order in which they came. -/
theorem filter_sorted (k : κ) (pairs : List (κ × α)) :
    (sorted cmp pairs).filter (fun p => cmp p.1 k == .eq) =
      pairs.filter fun p => cmp p.1 k == .eq := by
  have run : (pairs.filter fun p => cmp p.1 k == .eq).Pairwise
      fun p q => (cmp p.1 q.1).isLE = true := by
    refine List.pairwise_of_forall_mem_list fun p hp q hq => ?_
    have hpk : cmp p.1 k = .eq := by simpa using (List.mem_filter.mp hp).2
    have hqk : cmp q.1 k = .eq := by simpa using (List.mem_filter.mp hq).2
    rw [Std.TransCmp.congr_left hpk, Std.OrientedCmp.eq_symm hqk]
    rfl
  have sub := (List.sublist_mergeSort (isLE_trans_keys cmp) (isLE_total_keys cmp) run
    List.filter_sublist).filter fun p => cmp p.1 k == .eq
  rw [List.filter_filter] at sub
  simp only [Bool.and_self] at sub
  have len := ((List.mergeSort_perm pairs fun p q => (cmp p.1 q.1).isLE).filter
    fun p => cmp p.1 k == .eq).length_eq
  exact (sub.eq_of_length len.symm).symm

theorem last?_sorted (k : κ) (pairs : List (κ × α)) :
    last? cmp k (sorted cmp pairs) = last? cmp k pairs := by
  unfold last?
  rw [filter_sorted]

theorem ascending_lastOfRuns {pairs : List (κ × α)}
    (h : pairs.Pairwise fun p q => (cmp p.1 q.1).isLE = true) :
    Ascending cmp (lastOfRuns cmp pairs) := by
  fun_induction lastOfRuns cmp pairs with
  | case1 => exact List.Pairwise.nil
  | case2 p => exact List.pairwise_singleton _ _
  | case3 p q rest he ih => exact ih (List.pairwise_cons.mp h).2
  | case4 p q rest hne ih =>
      obtain ⟨hp, hr⟩ := List.pairwise_cons.mp h
      refine List.pairwise_cons.mpr ⟨fun r hm => ?_, ih hr⟩
      have hpq : cmp p.1 q.1 = .lt := by
        have := hp q List.mem_cons_self
        cases hc : cmp p.1 q.1 <;> simp_all
      rcases List.mem_cons.mp ((lastOfRuns_sublist cmp _).mem hm) with rfl | hm
      · exact hpq
      · exact Std.TransCmp.lt_of_lt_of_isLE hpq ((List.pairwise_cons.mp hr).1 r hm)

theorem last?_lastOfRuns {pairs : List (κ × α)} (k : κ) :
    last? cmp k (lastOfRuns cmp pairs) = last? cmp k pairs := by
  fun_induction lastOfRuns cmp pairs with
  | case1 => rfl
  | case2 p => rfl
  | case3 p q rest he ih =>
      rw [ih, last?_cons cmp k p, last?_cons cmp k q, Std.TransCmp.congr_left he]
      cases last? cmp k rest <;> by_cases hq : cmp q.1 k = .eq <;> simp [hq]
  | case4 p q rest hne ih => rw [last?_cons, last?_cons cmp k p, ih]

theorem ascending_canonical (pairs : List (κ × α)) : Ascending cmp (canonical cmp pairs) :=
  ascending_lastOfRuns cmp (pairwise_sorted cmp pairs)

/-- Sorting and dropping keeps of each key the pair that came last. -/
theorem mem_canonical_iff (pairs : List (κ × α)) (p : κ × α) :
    p ∈ canonical cmp pairs ↔ last? cmp p.1 pairs = some p := by
  rw [← last?_of_ascending cmp (ascending_canonical cmp pairs), canonical, last?_lastOfRuns,
    last?_sorted]

theorem canonical_eq_written (pairs : List (κ × α)) : canonical cmp pairs = written cmp pairs := by
  refine eq_of_ascending cmp (ascending_canonical cmp pairs) (ascending_written cmp pairs) ?_
  intro p
  rw [mem_canonical_iff, mem_written_iff]

theorem canonical_of_ascending {pairs : List (κ × α)} (h : Ascending cmp pairs) :
    canonical cmp pairs = pairs := by
  refine eq_of_ascending cmp (ascending_canonical cmp pairs) h ?_
  intro p
  rw [mem_canonical_iff, last?_of_ascending cmp h]

end Canonical

/-! ### Changing the values -/

theorem put_map (f : α → β) (p : κ × α) (pairs : List (κ × α)) :
    put cmp (p.1, f p.2) (pairs.map fun q => (q.1, f q.2)) =
      (put cmp p pairs).map fun q => (q.1, f q.2) := by
  fun_induction put cmp p pairs with
  | case1 => rfl
  | case2 r rest hc => simp [put, hc]
  | case3 r rest hc => simp [put, hc]
  | case4 r rest hc ih => simp [put, hc, ih]

theorem written_map (f : α → β) (pairs : List (κ × α)) :
    written cmp (pairs.map fun q => (q.1, f q.2)) =
      (written cmp pairs).map fun q => (q.1, f q.2) := by
  induction pairs using List.reverseRecOn with
  | nil => rfl
  | append_singleton pairs p ih =>
      rw [List.map_append, List.map_singleton, written_concat, written_concat, ih, put_map]

end PackedTree.Keyed
