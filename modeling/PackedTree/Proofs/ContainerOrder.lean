import PackedTree.Proofs.ReplayTrace
import PackedTree.Proofs.TraceOrder

/-! # The order of containers

`Replay.Lockstep r s o` compares two readings step by step: both are stepped, a fault or a
difference of the events ends the comparison, and so does the common end; `compareWithin` is that
loop with a bound on its turns.  Comparing two containers is the same thing as comparing their
readings in lockstep (`lockstep_compare`), and it is over when the shorter trace is
(`compareWithin_before`).

`compare_total_preorder` says that the comparison is a total preorder on the containers that can
be read, and what it says of the others: where two comparisons decide, so do those that follow
from them, and a container compares with itself as its reading ends. -/

namespace PackedTree

/-! ### Lockstep -/

/-- Two readings are stepped together until their events differ or one of them fails. -/
inductive Replay.Lockstep : Replay → Replay → Except Fault Ordering → Prop
  | left {r r' s : Replay} {f : Fault} (hr : r.next = (.error f, r')) : Lockstep r s (.error f)
  | right {r r' s s' : Replay} {e : Event} {f : Fault} (hr : r.next = (.ok e, r'))
      (hs : s.next = (.error f, s')) : Lockstep r s (.error f)
  | done {r r' s s' : Replay} (hr : r.next = (.ok .done, r')) (hs : s.next = (.ok .done, s')) :
      Lockstep r s (.ok .eq)
  | differ {r r' s s' : Replay} {e d : Event} (hr : r.next = (.ok e, r'))
      (hs : s.next = (.ok d, s')) (h : e.compare d ≠ .eq) : Lockstep r s (.ok (e.compare d))
  | same {r r' s s' : Replay} {e d : Event} {o : Except Fault Ordering} (hr : r.next = (.ok e, r'))
      (hs : s.next = (.ok d, s')) (hd : ¬ (e = .done ∧ d = .done)) (h : e.compare d = .eq)
      (ht : Lockstep r' s' o) : Lockstep r s o

namespace Replay

/-- The outcome of such a comparison if it comes within `n` turns. -/
def compareWithin : Nat → Replay → Replay → Option (Except Fault Ordering)
  | 0, _, _ => none
  | n + 1, r, s =>
      match r.next with
      | (.error f, _) => some (.error f)
      | (.ok e, r) =>
          match s.next with
          | (.error f, _) => some (.error f)
          | (.ok d, s) =>
              match e, d with
              | .done, .done => some (.ok .eq)
              | e, d => if e.compare d = .eq then compareWithin n r s else some (.ok (e.compare d))

section Turn

variable {r r' s s' : Replay} {e d : Event} {n : Nat} {o : Except Fault Ordering}

theorem compareWithin_left {f : Fault} (hr : r.next = (.error f, r')) :
    compareWithin (n + 1) r s = some (.error f) := by
  rw [compareWithin, hr]

theorem compareWithin_right {f : Fault} (hr : r.next = (.ok e, r')) (hs : s.next = (.error f, s')) :
    compareWithin (n + 1) r s = some (.error f) := by
  rw [compareWithin, hr, hs]

theorem compareWithin_done (hr : r.next = (.ok .done, r')) (hs : s.next = (.ok .done, s')) :
    compareWithin (n + 1) r s = some (.ok .eq) := by
  rw [compareWithin, hr, hs]

theorem compareWithin_events (hr : r.next = (.ok e, r')) (hs : s.next = (.ok d, s'))
    (hd : ¬ (e = .done ∧ d = .done)) :
    compareWithin (n + 1) r s =
      if e.compare d = .eq then compareWithin n r' s' else some (.ok (e.compare d)) := by
  simp only [compareWithin, hr, hs]
  split
  · exact absurd ⟨rfl, rfl⟩ hd
  · rfl

theorem Lockstep.of_compareWithin (h : compareWithin n r s = some o) : r.Lockstep s o := by
  induction n generalizing r s with
  | zero => cases h
  | succ n ih =>
      rcases hr : r.next with ⟨_ | e, r'⟩
      · rw [compareWithin_left hr] at h
        cases h
        exact .left hr
      rcases hs : s.next with ⟨_ | d, s'⟩
      · rw [compareWithin_right hr hs] at h
        cases h
        exact .right hr hs
      by_cases hd : e = .done ∧ d = .done
      · obtain ⟨rfl, rfl⟩ := hd
        rw [compareWithin_done hr hs] at h
        cases h
        exact .done hr hs
      · rw [compareWithin_events hr hs hd] at h
        split at h
        · next heq => exact .same hr hs hd heq (ih h)
        · next hne => cases h; exact .differ hr hs hne

end Turn

theorem next_of_rest {r : Replay} (h : r.Valid) : r.next = (r.rest.head, r.next.2) := by
  rw [← (next_tells h).event]

end Replay

namespace Trace

variable {st : List Due} {t u : Trace}

/-- Readings compare as the traces that they still tell, in as many turns as the shorter one has
events and one more. -/
theorem compareWithin_of_fits (ht : t.Fits st) (hu : u.Fits st) {r s : Replay}
    (hr : r.rest = t) (hs : s.rest = u) (vr : r.Valid) (vs : s.Valid) {n : Nat}
    (hn : min t.events.length u.events.length < n) :
    r.compareWithin n s = some (t.compare u) := by
  have nr := Replay.next_of_rest vr
  have ns := Replay.next_of_rest vs
  rw [hr] at nr
  rw [hs] at ns
  obtain ⟨n, rfl⟩ : ∃ k, n = k + 1 := ⟨n - 1, by omega⟩
  induction ht generalizing u r s n with
  | failed => exact Replay.compareWithin_left nr
  | finished =>
      cases hu with
      | failed => exact Replay.compareWithin_right nr ns
      | finished => exact Replay.compareWithin_done nr ns
      | next hd _ => exact hd.not_at_end.elim
  | @next st st₁ e t he ht ih =>
      cases hu with
      | failed => exact Replay.compareWithin_right nr ns
      | finished => exact he.not_at_end.elim
      | @next _ st₂ d u hd hu =>
          rw [Replay.compareWithin_events nr ns
            fun h => (Fits.next he ht).ne_done e List.mem_cons_self h.1]
          by_cases heq : e.compare d = .eq
          · obtain rfl := he.due_eq hd heq
            have tr := Replay.next_tells vr
            have ts := Replay.next_tells vs
            rw [hr] at tr
            rw [hs] at ts
            rw [compare_next_of_eq heq, if_pos heq]
            simp only [events, List.length_cons] at hn
            obtain ⟨n, rfl⟩ : ∃ k, n = k + 1 := ⟨n - 1, by omega⟩
            refine ih hu tr.rest ts.rest tr.valid ts.valid ?_ ?_ n (by omega)
            · rw [Replay.next_of_rest tr.valid, tr.rest]
              rfl
            · rw [Replay.next_of_rest ts.valid, ts.rest]
              rfl
          · rw [compare_next_of_ne heq, if_neg heq]

end Trace

namespace Container

/-- Comparing two containers takes as many turns as the shorter trace has events, and one more. -/
theorem compareWithin_before (c d : Container) {n : Nat}
    (hn : min c.trace.events.length d.trace.events.length < n) :
    (Replay.before c false).compareWithin n (.before d false) = some (c.compare d) :=
  Trace.compareWithin_of_fits c.fits_trace d.fits_trace c.rest_before d.rest_before
    (Replay.valid_before c false) (Replay.valid_before d false) hn

theorem lockstep_compare (c d : Container) :
    (Replay.before c false).Lockstep (Replay.before d false) (c.compare d) :=
  .of_compareWithin (c.compareWithin_before d (Nat.lt_succ_self _))

/-! ### The laws of the order -/

variable {a b c : Container} {o x y : Ordering}

theorem decides_compare (h : a.compare b = .ok o) :
    Trace.Decides [.elems 1] a.trace b.trace o :=
  Trace.decides_of_compare a.fits_trace b.fits_trace h

theorem compare_swap (h : a.compare b = .ok o) : b.compare a = .ok o.swap :=
  Trace.compare_of_decides (decides_compare h).swap

theorem compare_then (hab : a.compare b = .ok x) (hbc : b.compare c = .ok y) (hx : x ≠ .gt)
    (hy : y ≠ .gt) : a.compare c = .ok (x.then y) :=
  Trace.compare_of_decides ((decides_compare hab).trans (decides_compare hbc) hx hy)

/-- A container compares with itself as its reading ends. -/
theorem compare_self (a : Container) : a.compare a = a.validate.map fun _ => .eq := by
  cases h : a.trace.fault? with
  | none =>
      unfold compare validate
      rw [Trace.compare_of_decides (Trace.decides_self a.fits_trace h), h]
      rfl
  | some f =>
      unfold compare validate
      rw [Trace.compare_self_of_fault a.fits_trace h, h]
      rfl

/-- Comparison reverses with its sides and is transitive, and it relates a container to itself
exactly if reading it in steps comes to `done`. -/
theorem compare_total_preorder (a b c : Container) :
    (∀ o, a.compare b = .ok o → b.compare a = .ok o.swap) ∧
    (∀ x y, a.compare b = .ok x → b.compare c = .ok y → x ≠ .gt → y ≠ .gt →
      ∃ z, a.compare c = .ok z ∧ z ≠ .gt ∧ (x = .lt ∨ y = .lt → z = .lt)) ∧
    ∃ es r, (Replay.before a false).Runs es r ∧ a.compare a = r.map fun _ => .eq := by
  refine ⟨fun o => compare_swap, fun x y hab hbc hx hy => ?_, ?_⟩
  · refine ⟨x.then y, compare_then hab hbc hx hy, ?_⟩
    cases x <;> cases y <;> simp_all
  · exact ⟨_, _, a.runs_trace, a.compare_self⟩

/-- Null comes before 1.5, which equals 1.50; so null comes before 1.50. -/
theorem compare_total_preorder_null :
    ∃ a b c : Container, a.compare b = .ok .lt ∧ b.compare c = .ok .eq ∧
      b.compare a = .ok .gt ∧ a.compare c = .ok .lt ∧
      ∃ es r, (Replay.before a false).Runs es r ∧ a.compare a = r.map fun _ => .eq := by
  have hab : Container.compare ⟨⟨.raw, 1, by decide, fun _ => rfl⟩, [3221225472], [], rfl⟩
      ⟨⟨.raw, 1, by decide, fun _ => rfl⟩, [2415919113], [1, 0, 0, 0, 0, 0, 0, 0, 15], rfl⟩ =
        .ok .lt := by
    decide +kernel
  have hbc : Container.compare
      ⟨⟨.raw, 1, by decide, fun _ => rfl⟩, [2415919113], [1, 0, 0, 0, 0, 0, 0, 0, 15], rfl⟩
      ⟨⟨.raw, 1, by decide, fun _ => rfl⟩, [2415919114], [2, 0, 0, 0, 0, 0, 0, 0, 150, 0], rfl⟩ =
        .ok .eq := by
    decide +kernel
  obtain ⟨hswap, htrans, hself⟩ := compare_total_preorder _ _ _
  obtain ⟨z, hac, -, hz⟩ := htrans .lt .eq hab hbc (by decide) (by decide)
  exact ⟨_, _, _, hab, hbc, hswap .lt hab, hz (.inl rfl) ▸ hac, hself⟩

end Container

end PackedTree
