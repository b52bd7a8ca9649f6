import Mathlib.Logic.Relation
import PackedTree.Proofs.ContainerWalk

/-! # Containers that can be read to their end

A container that validates has a trace without a fault.  What it holds can then be listed: the
values of an array (`Container.HoldsElems`), or the keys and values of an object
(`Container.HoldsPairs`), each of them a scalar or a container that validates as well.
`IsWhole` is that as an inductive predicate, so that proofs go by induction over what is held.

`Container.Holds` relates a container to those packed in it, and `Container.NestsWithin` bounds how
deep they are packed. -/

namespace PackedTree

theorem Trace.fault?_append_eq_none {t u : Trace} (h : (t.append u).fault? = none) :
    t.fault? = none ∧ u.fault? = none := by
  induction t with
  | finished => exact ⟨rfl, h⟩
  | failed f => cases h
  | next e t ih => exact ih h

namespace Value

open Container

/-- The telling of the values of an array, and its end. -/
def tellElems : List Value → Trace
  | [] => .next .endArray .finished
  | v :: vs => (v.told entered .elem).append (tellElems vs)

/-- The telling of the keys and values of an object, and its end. -/
def tellPairs : List (Bytes × Value) → Trace
  | [] => .next .endObject .finished
  | (k, v) :: ps => .next (.key k) ((v.told entered .value).append (tellPairs ps))

end Value

namespace Container

variable {c n : Container}

/-- One container is packed directly inside another. -/
def Holds (c n : Container) : Prop := ∃ i, c.child i = .ok (.binary n)

/-- A container and those packed in it, at any depth, are at most so many deep. -/
def NestsWithin : Nat → Container → Prop
  | 0, _ => False
  | depth + 1, c => ∀ n, c.Holds n → NestsWithin depth n

theorem validate_eq_ok_iff : c.validate = .ok () ↔ c.trace.fault? = none := by
  unfold validate
  cases c.trace.fault? <;> simp

/-! ### The values of an array -/

/-- The container is an array of the given values, and it tells them. -/
structure HoldsElems (c : Container) (vs : List Value) : Prop where
  shape : c.isObject = false
  len : vs.length = c.len
  child : ∀ v ∈ vs, ∃ i, c.child i = .ok v
  mem : ∀ n, c.Holds n → .binary n ∈ vs
  trace : c.trace = .next (.beginArray c.len c.isRaw) (Value.tellElems vs)

/-- The container is an object of the given pairs, and it tells them. -/
structure HoldsPairs (c : Container) (ps : List (Bytes × Value)) : Prop where
  shape : c.isObject = true
  len : ps.length = c.len
  key : ∀ p ∈ ps, ∃ i, c.child i = .ok (.string p.1)
  child : ∀ p ∈ ps, ∃ i, c.child i = .ok p.2
  mem : ∀ n, c.Holds n → ∃ p ∈ ps, p.2 = .binary n
  trace : c.trace = .next (.beginObject c.len) (Value.tellPairs ps)

theorem lt_of_child {i : Nat} {v : Value} (h : c.child i = .ok v) : i < c.entryCount := by
  obtain ⟨o, -, h⟩ := childAt_of_child h
  obtain ⟨d, hd⟩ := entry_of_childAt h
  exact lt_of_entry hd

theorem elems_of_fault {is : List Nat} (h : (c.elemsFrom entered is).fault? = none) :
    ∃ vs : List Value, vs.length = is.length ∧ (∀ v ∈ vs, ∃ i, c.child i = .ok v) ∧
      (∀ i ∈ is, ∃ v ∈ vs, c.child i = .ok v) ∧
      c.elemsFrom entered is = Value.tellElems vs := by
  induction is with
  | nil => exact ⟨[], rfl, nofun, nofun, rfl⟩
  | cons i is ih =>
      rw [elemsFrom_cons] at h ⊢
      cases hv : c.child i with
      | error f => rw [hv] at h; cases h
      | ok v =>
          rw [hv] at h
          obtain ⟨vs, hlen, hchild, hmem, ht⟩ := ih (Trace.fault?_append_eq_none h).2
          refine ⟨v :: vs, congrArg (· + 1) hlen, List.forall_mem_cons.mpr ⟨⟨i, hv⟩, hchild⟩,
            List.forall_mem_cons.mpr ⟨⟨v, List.mem_cons_self, hv⟩, fun j hj => ?_⟩, ?_⟩
          · obtain ⟨w, hw, hcw⟩ := hmem j hj
            exact ⟨w, List.mem_cons_of_mem v hw, hcw⟩
          · rw [Value.tellElems, ← ht]

theorem pairs_of_fault {is : List Nat} (h : (c.pairsFrom entered is).fault? = none) :
    ∃ ps : List (Bytes × Value), ps.length = is.length ∧
      (∀ p ∈ ps, ∃ i, c.child i = .ok (.string p.1) ∧ c.child (i + c.len) = .ok p.2) ∧
      (∀ i ∈ is, ∃ p ∈ ps, c.child i = .ok (.string p.1) ∧ c.child (i + c.len) = .ok p.2) ∧
      c.pairsFrom entered is = Value.tellPairs ps := by
  induction is with
  | nil => exact ⟨[], rfl, nofun, nofun, rfl⟩
  | cons i is ih =>
      rw [pairsFrom_cons] at h ⊢
      cases hk : c.child i with
      | error f => rw [hk] at h; cases h
      | ok k =>
          rw [hk] at h
          cases k with
          | string k =>
              have h : (c.valueFrom entered i is).fault? = none := h
              unfold valueFrom at h ⊢
              cases hv : c.child (i + c.len) with
              | error f => rw [hv] at h; cases h
              | ok v =>
                  rw [hv] at h
                  obtain ⟨ps, hlen, hchild, hmem, ht⟩ := ih (Trace.fault?_append_eq_none h).2
                  refine ⟨(k, v) :: ps, congrArg (· + 1) hlen,
                    List.forall_mem_cons.mpr ⟨⟨i, hk, hv⟩, hchild⟩,
                    List.forall_mem_cons.mpr ⟨⟨(k, v), List.mem_cons_self, hk, hv⟩, fun j hj => ?_⟩,
                    ?_⟩
                  · obtain ⟨p, hp, hcp⟩ := hmem j hj
                    exact ⟨p, List.mem_cons_of_mem _ hp, hcp⟩
                  · rw [Value.tellPairs, ← ht]
          | _ => cases h

theorem entryCount_of_array (h : c.isObject = false) : c.entryCount = c.len := by
  have hs : c.header.shape ≠ .object := by
    intro hs
    rw [isObject, hs] at h
    cases h
  exact if_neg hs

theorem entryCount_of_object (h : c.isObject = true) : c.entryCount = 2 * c.len := by
  have hs : c.header.shape = .object := by simpa [isObject] using h
  exact if_pos hs

theorem array_of_isRaw (h : c.isRaw = true) : c.isObject = false ∧ c.len = 1 := by
  have hs : c.header.shape = .raw := by simpa [isRaw] using h
  refine ⟨?_, c.header.len_raw hs⟩
  rw [isObject, hs]
  rfl

/-- An array that can be read to its end holds the values that it tells. -/
theorem exists_holdsElems (ho : c.isObject = false) (h : c.trace.fault? = none) :
    ∃ vs, c.HoldsElems vs := by
  have ht := c.trace_eq_walkWith.trans (walkWith_of_array ho entered)
  rw [ht] at h
  obtain ⟨vs, hlen, hchild, hmem, hvs⟩ := elems_of_fault h
  rw [List.length_range] at hlen
  refine ⟨vs, ho, hlen, hchild, fun n hn => ?_, by rw [ht, hvs]⟩
  obtain ⟨i, hi⟩ := hn
  have hlt := lt_of_child hi
  rw [entryCount_of_array ho] at hlt
  obtain ⟨v, hv, hcv⟩ := hmem i (List.mem_range.mpr hlt)
  cases hi.symm.trans hcv
  exact hv

/-- An object that can be read to its end holds the pairs that it tells. -/
theorem exists_holdsPairs (ho : c.isObject = true) (h : c.trace.fault? = none) :
    ∃ ps, c.HoldsPairs ps := by
  have ht := c.trace_eq_walkWith.trans (walkWith_of_object ho entered)
  rw [ht] at h
  cases hs : c.start c.len with
  | error f => rw [hs] at h; cases h
  | ok o =>
      rw [hs] at h ht
      obtain ⟨ps, hlen, hchild, hmem, hps⟩ := pairs_of_fault h
      rw [List.length_range] at hlen
      have hkey : ∀ p ∈ ps, ∃ i, c.child i = .ok (.string p.1) := fun p hp =>
        (hchild p hp).imp fun _ => And.left
      have hvalue : ∀ p ∈ ps, ∃ i, c.child i = .ok p.2 := fun p hp =>
        let ⟨i, _, hv⟩ := hchild p hp
        ⟨i + c.len, hv⟩
      refine ⟨ps, ho, hlen, hkey, hvalue, fun n hn => ?_, by rw [ht, hps]⟩
      obtain ⟨i, hi⟩ := hn
      have hlt := lt_of_child hi
      rw [entryCount_of_object ho] at hlt
      by_cases hl : i < c.len
      · -- The first children of an object are its keys.
        obtain ⟨p, hp, hk, -⟩ := hmem i (List.mem_range.mpr hl)
        cases hi.symm.trans hk
      · obtain ⟨p, hp, -, hv⟩ := hmem (i - c.len) (List.mem_range.mpr (by omega))
        rw [Nat.sub_add_cancel (Nat.le_of_not_lt hl)] at hv
        exact ⟨p, hp, Except.ok.inj (hv.symm.trans hi)⟩

/-! ### Nested containers -/

theorem size_lt_of_holds (h : c.Holds n) : n.size < c.size :=
  let ⟨_, hi⟩ := h
  size_lt_of_child hi

theorem isScalar_or_holds {v : Value} (h : ∃ i, c.child i = .ok v) :
    v.isScalar = true ∨ ∃ n, v = .binary n ∧ c.Holds n := by
  obtain ⟨i, hi⟩ := h
  refine (child_cases hi).imp_right ?_
  rintro ⟨n, rfl, -⟩
  exact ⟨n, rfl, i, hi⟩

theorem fault?_of_mem_elems {vs : List Value} (h : (Value.tellElems vs).fault? = none)
    (hn : .binary n ∈ vs) : n.trace.fault? = none := by
  induction vs with
  | nil => cases hn
  | cons v vs ih =>
      obtain ⟨hv, hvs⟩ := Trace.fault?_append_eq_none h
      rcases List.mem_cons.mp hn with rfl | hn
      · exact hv
      · exact ih hvs hn

theorem fault?_of_mem_pairs {ps : List (Bytes × Value)} (h : (Value.tellPairs ps).fault? = none)
    {p : Bytes × Value} (hp : p ∈ ps) (hn : p.2 = .binary n) : n.trace.fault? = none := by
  induction ps with
  | nil => cases hp
  | cons q ps ih =>
      obtain ⟨k, v⟩ := q
      obtain ⟨hv, hps⟩ := Trace.fault?_append_eq_none h
      rcases List.mem_cons.mp hp with rfl | hp
      · obtain rfl : v = .binary n := hn
        exact hv
      · exact ih hps hp

/-- What is packed in a container that can be read to its end can be read to its end. -/
theorem fault?_of_holds (h : c.trace.fault? = none) (hn : c.Holds n) : n.trace.fault? = none := by
  cases ho : c.isObject with
  | false =>
      obtain ⟨vs, hvs⟩ := exists_holdsElems ho h
      rw [hvs.trace] at h
      exact fault?_of_mem_elems h (hvs.mem n hn)
  | true =>
      obtain ⟨ps, hps⟩ := exists_holdsPairs ho h
      rw [hps.trace] at h
      obtain ⟨p, hp, hpn⟩ := hps.mem n hn
      exact fault?_of_mem_pairs h hp hpn

theorem fault?_of_transGen (h : c.trace.fault? = none) (hn : Relation.TransGen Holds c n) :
    n.trace.fault? = none := by
  induction hn with
  | single hn => exact fault?_of_holds h hn
  | tail _ hn ih => exact fault?_of_holds ih hn

/-- A container that can be read to its end, as can all that it holds. -/
inductive IsWhole : Container → Prop
  | array {c : Container} {vs : List Value} (h : c.HoldsElems vs)
      (hn : ∀ n, c.Holds n → IsWhole n) : IsWhole c
  | object {c : Container} {ps : List (Bytes × Value)} (h : c.HoldsPairs ps)
      (hn : ∀ n, c.Holds n → IsWhole n) : IsWhole c

theorem isWhole_of_validate (h : c.validate = .ok ()) : c.IsWhole := by
  have h := validate_eq_ok_iff.mp h
  induction hs : c.size using Nat.strongRecOn generalizing c with
  | ind s ih =>
      have hnested : ∀ n, c.Holds n → n.IsWhole := fun n hn =>
        ih n.size (hs ▸ size_lt_of_holds hn) (validate_eq_ok_iff.mpr (fault?_of_holds h hn))
          (fault?_of_holds h hn) rfl
      cases ho : c.isObject with
      | false =>
          obtain ⟨vs, hvs⟩ := exists_holdsElems ho h
          exact .array hvs hnested
      | true =>
          obtain ⟨ps, hps⟩ := exists_holdsPairs ho h
          exact .object hps hnested

theorem nestsWithin_of_level {level max : Nat} (h : c.NestsWithin (max - level)) :
    level < max ∧ ∀ n, c.Holds n → n.NestsWithin (max - (level + 1)) := by
  cases hm : max - level with
  | zero =>
      rw [hm] at h
      exact h.elim
  | succ depth =>
      rw [hm] at h
      have hd : max - (level + 1) = depth := by omega
      rw [hd]
      exact ⟨by omega, h⟩

theorem IsWhole.of_holds (h : c.IsWhole) (hn : c.Holds n) : n.IsWhole := by
  cases h with
  | array _ ih => exact ih n hn
  | object _ ih => exact ih n hn

/-- What a raw container holds is one value, which it tells. -/
theorem trace_of_isRaw (h : c.IsWhole) (hr : c.isRaw = true) :
    ∃ v : Value, (∃ i, c.child i = .ok v) ∧ (∀ n, c.Holds n → v = .binary n) ∧
      c.trace = .next (.beginArray 1 true)
        ((v.told entered .elem).append (.next .endArray .finished)) := by
  obtain ⟨ho, hone⟩ := array_of_isRaw hr
  cases h with
  | @array c vs h hn =>
      obtain ⟨v, rfl⟩ := List.length_eq_one_iff.mp (h.len.trans hone)
      refine ⟨v, h.child v List.mem_cons_self, fun n hn => ?_, ?_⟩
      · exact (List.mem_singleton.mp (h.mem n hn)).symm
      · rw [h.trace, hone, hr, Value.tellElems, Value.tellElems]
  | object h => cases ho.symm.trans h.shape

end Container

end PackedTree
