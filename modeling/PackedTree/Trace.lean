import PackedTree.Event

/-! # Traces

A trace is the whole telling of something: events in order, and at the end either nothing more
or the fault that cut it short.  Traces are what the readers produce and what comparison,
hashing, building and the bridge to documents consume.

Traces are joined by `append`, in which a fault swallows what would have followed. -/

namespace PackedTree

/-- A sequence of events that ends regularly or with a fault. -/
inductive Trace where
  | finished
  | failed (f : Fault)
  | next (e : Event) (rest : Trace)
deriving Repr

namespace Trace

/-- The second trace after the first one. -/
def append : Trace → Trace → Trace
  | finished, u => u
  | failed f, _ => failed f
  | next e t, u => next e (t.append u)

/-- The events of a trace, without the `done` that stands for its regular end. -/
def events : Trace → List Event
  | finished => []
  | failed _ => []
  | next e t => e :: t.events

/-- The fault that a trace ends with. -/
def fault? : Trace → Option Fault
  | finished => none
  | failed f => some f
  | next _ t => t.fault?

@[simp] theorem append_finished (t : Trace) : t.append finished = t := by
  induction t with
  | finished => rfl
  | failed f => rfl
  | next e t ih => rw [append, ih]

theorem append_assoc (t u v : Trace) : (t.append u).append v = t.append (u.append v) := by
  induction t with
  | finished => rfl
  | failed f => rfl
  | next e t ih => rw [append, append, append, ih]

theorem fault?_append_of_fault {t u : Trace} (h : t.fault? = none) :
    (t.append u).fault? = u.fault? := by
  induction t with
  | finished => rfl
  | failed f => cases h
  | next e t ih => exact ih h

theorem events_append_of_fault {t u : Trace} (h : t.fault? = none) :
    (t.append u).events = t.events ++ u.events := by
  induction t with
  | finished => rfl
  | failed f => cases h
  | next e t ih => rw [append, events, ih h]; rfl

end Trace

end PackedTree
