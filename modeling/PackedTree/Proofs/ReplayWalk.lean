import PackedTree.Proofs.ReplayTrace

/-! # Stepping is walking

A `Replay` keeps running offsets and a stack of cursors; `Container.walk` goes through the children
by their positions and recovers the start of each from the directory.  `runs_iff_account` says that
they tell the same of every container, whatever its bytes: the same events in the same order, and
the same fault at the end if there is one.  It covers readings that enter nested containers and
readings that leave them packed. -/

namespace PackedTree

namespace Trace

variable {P : Event → Prop} {t u : Trace}

theorem forall_mem_events_append (ht : ∀ e ∈ t.events, P e) (hu : ∀ e ∈ u.events, P e) :
    ∀ e ∈ (t.append u).events, P e := by
  induction t with
  | finished => exact hu
  | failed f => nofun
  | next e t ih =>
      obtain ⟨he, ht⟩ := List.forall_mem_cons.mp ht
      exact List.forall_mem_cons.mpr ⟨he, ih ht⟩

theorem forall_mem_events_next {e : Event} (he : P e) (ht : ∀ d ∈ t.events, P d) :
    ∀ d ∈ (Trace.next e t).events, P d :=
  List.forall_mem_cons.mpr ⟨he, ht⟩

end Trace

namespace Container

/-- What the children of a container tell when they are visited by position: nested containers in
full, or left packed. -/
def account (c : Container) (shallow : Bool) : Trace :=
  if shallow then c.shallowTrace else c.trace

theorem walkWith_telling (c : Container) (shallow : Bool) :
    c.walkWith (telling shallow) = c.account shallow := by
  cases shallow with
  | true => rfl
  | false => exact (c.trace_eq_walkWith).symm

/-! ### No event of a walk is `done` -/

section NeDone

variable {c : Container} {enter : Slot → Container → Trace}
  (hn : ∀ slot n, ∀ e ∈ (enter slot n).events, e ≠ .done)
include hn

theorem ne_done_told {i : Nat} {v : Value} (h : c.child i = .ok v) (slot : Slot) :
    ∀ e ∈ (v.told enter slot).events, e ≠ .done := by
  rcases child_cases h with hv | ⟨n, rfl, -⟩
  · rw [Value.told_of_isScalar hv]
    refine Trace.forall_mem_events_next ?_ nofun
    cases slot <;> nofun
  · exact hn slot n

theorem ne_done_elemsFrom (is : List Nat) :
    ∀ e ∈ (c.elemsFrom enter is).events, e ≠ .done := by
  induction is with
  | nil => exact Trace.forall_mem_events_next nofun nofun
  | cons i is ih =>
      rw [elemsFrom_cons]
      split
      · nofun
      · next v h => exact Trace.forall_mem_events_append (ne_done_told hn h .elem) ih

theorem ne_done_pairsFrom (is : List Nat) :
    ∀ e ∈ (c.pairsFrom enter is).events, e ≠ .done := by
  induction is with
  | nil => exact Trace.forall_mem_events_next nofun nofun
  | cons i is ih =>
      rw [pairsFrom_cons]
      split
      · nofun
      · refine Trace.forall_mem_events_next nofun ?_
        unfold valueFrom
        split
        · nofun
        · next v h => exact Trace.forall_mem_events_append (ne_done_told hn h .value) ih
      · nofun

theorem ne_done_walkWith (c : Container) : ∀ e ∈ (c.walkWith enter).events, e ≠ .done := by
  cases ho : c.isObject with
  | false =>
      rw [walkWith_of_array ho]
      exact Trace.forall_mem_events_next nofun (ne_done_elemsFrom hn _)
  | true =>
      rw [walkWith_of_object ho]
      split
      · nofun
      · exact Trace.forall_mem_events_next nofun (ne_done_pairsFrom hn _)

end NeDone

theorem ne_done_telling (shallow : Bool) (slot : Slot) (n : Container) :
    ∀ e ∈ (telling shallow slot n).events, e ≠ .done := by
  cases shallow with
  | true =>
      refine Trace.forall_mem_events_next ?_ nofun
      cases slot <;> nofun
  | false => exact n.fits_trace.ne_done

theorem runs_account (c : Container) (shallow : Bool) :
    (Replay.before c shallow).Runs (c.account shallow).events (c.account shallow).outcome := by
  refine Replay.runs_rest ?_ (Replay.valid_before c shallow) ?_
  · rw [Replay.rest_before, walkWith_telling]
  · rw [← walkWith_telling]
    exact ne_done_walkWith (ne_done_telling shallow) c

/-- A reading hands out the events of the walk over the container, and then `done` or the fault that
the walk ends with; it has no other run. -/
theorem runs_iff_account (c : Container) (shallow : Bool) (es : List Event)
    (o : Except Fault Unit) :
    (Replay.before c shallow).Runs es o ↔
      es = (c.account shallow).events ∧ o = (c.account shallow).outcome := by
  constructor
  · intro h
    exact h.det (c.runs_account shallow)
  · rintro ⟨rfl, rfl⟩
    exact c.runs_account shallow

end Container

end PackedTree
