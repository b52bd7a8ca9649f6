import PackedTree.Container.Replay
import PackedTree.Proofs.TraceShape

/-! # Reading in steps tells the trace

A `Replay` keeps a cursor for every container that it is inside.  `Replay.rest` is the trace that
is still to come in such a state, and `Replay.Valid` is the invariant of the states that occur:
the offsets of a cursor are those that the directory tells.  A step hands out the head of what is
still to come and leaves its tail (`next_tells`), for shallow readings and full ones alike.

`Replay.Runs r es o` says that stepping from `r` hands out the events `es` and then `done` or a
fault.  The reading of a container from its beginning runs through the container's trace
(`runs_trace`), and it has no other run (`Runs.det`). -/

namespace PackedTree

namespace Container

/-- How a reading treats nested containers. -/
def telling (shallow : Bool) : Slot → Container → Trace := if shallow then packed else entered

end Container

namespace Trace

/-- What one step of a reading hands out. -/
def head : Trace → Except Fault Event
  | finished => .ok .done
  | failed f => .error f
  | next e _ => .ok e

/-- What is left after that step; the end and a fault stay. -/
def tail : Trace → Trace
  | finished => finished
  | failed f => failed f
  | next _ t => t

/-- How a trace ends. -/
def outcome (t : Trace) : Except Fault Unit :=
  match t.fault? with
  | none => .ok ()
  | some f => .error f

end Trace

/-! ### Cursors -/

namespace Cursor

/-- What is still to be told of the container of a cursor. -/
def rest (shallow : Bool) (cur : Cursor) : Trace :=
  let c := cur.container
  let enter := Container.telling shallow
  match cur.phase with
  | .start => c.walkWith enter
  | .member =>
      if c.isObject then c.pairsFrom enter (List.range' cur.index (c.len - cur.index))
      else c.elemsFrom enter (List.range' cur.index (c.len - cur.index))
  | .value =>
      c.valueFrom enter cur.index (List.range' (cur.index + 1) (c.len - (cur.index + 1)))

/-- The offsets of a cursor are those that the directory tells, and a value is due only after
its key. -/
structure Valid (cur : Cursor) : Prop where
  offset : cur.container.start cur.index = .ok cur.offset
  valueOffset : cur.phase ≠ .start → cur.container.isObject = true →
    cur.container.start (cur.index + cur.container.len) = .ok cur.valueOffset
  start : cur.phase = .start → cur.index = 0
  value : cur.phase = .value → cur.container.isObject = true ∧
    cur.index < cur.container.len ∧ ∃ d, cur.container.entry cur.index = .ok d

theorem valid_before (c : Container) : (before c).Valid where
  offset := rfl
  valueOffset := fun h => absurd rfl h
  start := fun _ => rfl
  value := nofun

theorem rest_before (shallow : Bool) (c : Container) :
    (before c).rest shallow = c.walkWith (Container.telling shallow) := rfl

theorem range'_ahead {i n : Nat} (h : i < n) :
    List.range' i (n - i) = i :: List.range' (i + 1) (n - (i + 1)) := by
  rw [show n - i = n - (i + 1) + 1 by omega]
  rfl

variable {cur : Cursor} (shallow : Bool)

theorem rest_of_start (hp : cur.phase = .start) :
    cur.rest shallow = cur.container.walkWith (Container.telling shallow) := by
  simp only [rest, hp]

theorem rest_of_array (hp : cur.phase = .member) (ho : cur.container.isObject = false) :
    cur.rest shallow = cur.container.elemsFrom (Container.telling shallow)
      (List.range' cur.index (cur.container.len - cur.index)) := by
  simp only [rest, hp, ho]
  rfl

theorem rest_of_object (hp : cur.phase = .member) (ho : cur.container.isObject = true) :
    cur.rest shallow = cur.container.pairsFrom (Container.telling shallow)
      (List.range' cur.index (cur.container.len - cur.index)) := by
  simp only [rest, hp, ho]
  rfl

theorem enter_of_array (ho : cur.container.isObject = false) :
    cur.enter = (.ok (.beginArray cur.container.len cur.container.isRaw),
      { cur with phase := .member }) := by
  simp only [enter, ho]
  rfl

theorem enter_of_object (ho : cur.container.isObject = true) :
    cur.enter =
      match cur.container.start cur.container.len with
      | .error f => (.error f, cur)
      | .ok o => (.ok (.beginObject cur.container.len),
          { cur with valueOffset := o, phase := .member }) := by
  simp only [enter, ho]
  rfl

theorem enter_cases (hv : cur.Valid) (hp : cur.phase = .start) :
    (∃ f, cur.enter = (.error f, cur) ∧ cur.rest shallow = .failed f) ∨
    ∃ e cur', cur.enter = (.ok e, cur') ∧ cur'.Valid ∧
      cur.rest shallow = .next e (cur'.rest shallow) := by
  have hi := hv.start hp
  have hr : List.range cur.container.len =
      List.range' cur.index (cur.container.len - cur.index) := by
    rw [hi, Nat.sub_zero, List.range_eq_range']
  rw [rest_of_start shallow hp]
  cases ho : cur.container.isObject with
  | false =>
      refine .inr ⟨_, _, enter_of_array ho, ⟨hv.offset, fun _ h => ?_, nofun, nofun⟩, ?_⟩
      · exact absurd (ho.symm.trans h) nofun
      · simp [Container.walkWith_of_array ho, rest, ho, hr]
  | true =>
      rw [enter_of_object ho, Container.walkWith_of_object ho]
      cases hs : cur.container.start cur.container.len with
      | error f => exact .inl ⟨f, rfl, rfl⟩
      | ok o =>
          refine .inr ⟨_, _, rfl, ⟨hv.offset, fun _ _ => ?_, nofun, nofun⟩, ?_⟩
          · show cur.container.start (cur.index + cur.container.len) = _
            rw [hi, Nat.zero_add, hs]
          · simp [rest, ho, hr]

theorem takeElem_cases (hv : cur.Valid) (hp : cur.phase = .member)
    (ho : cur.container.isObject = false) (hi : cur.index < cur.container.len) :
    (∃ f, cur.takeElem = .error f ∧ cur.rest shallow = .failed f) ∨
    ∃ v cur', cur.takeElem = .ok (v, cur') ∧ cur'.Valid ∧
      (v.isScalar = true ∨ ∃ n, v = .binary n) ∧ cur.rest shallow =
        (v.told (Container.telling shallow) .elem).append (cur'.rest shallow) := by
  rw [rest_of_array shallow hp ho, range'_ahead hi, Container.elemsFrom_cons,
    Container.child_of_start hv.offset]
  unfold takeElem
  cases h : cur.container.childAt cur.index cur.offset with
  | error f => exact .inl ⟨f, rfl, rfl⟩
  | ok v =>
      obtain ⟨d, hd⟩ := Container.entry_of_childAt h
      rw [hd]
      refine .inr ⟨_, _, rfl, ⟨?_, fun _ h => ?_, fun h => ?_, fun h => ?_⟩,
        Container.isScalar_or_binary_of_childAt h, ?_⟩
      · exact Container.start_succ hv.offset hd
      · exact absurd (ho.symm.trans h) nofun
      · exact absurd (hp.symm.trans h) nofun
      · exact absurd (hp.symm.trans h) nofun
      · simp [rest, hp, ho]

theorem peekKey_cases (hv : cur.Valid) (hp : cur.phase = .member)
    (ho : cur.container.isObject = true) (hi : cur.index < cur.container.len) :
    (∃ f, cur.peekKey = .error f ∧ cur.rest shallow = .failed f) ∨
    ∃ k, cur.peekKey = .ok k ∧ Valid { cur with phase := .value } ∧
      cur.rest shallow = .next (.key k) (rest shallow { cur with phase := .value }) := by
  rw [rest_of_object shallow hp ho, range'_ahead hi, Container.pairsFrom_cons,
    Container.child_of_start hv.offset]
  unfold peekKey
  cases h : cur.container.childAt cur.index cur.offset with
  | error f => exact .inl ⟨f, rfl, rfl⟩
  | ok v =>
      cases v with
      | string k =>
          refine .inr ⟨k, rfl, ⟨hv.offset, fun _ _ => ?_, nofun, fun _ => ?_⟩, rfl⟩
          · exact hv.valueOffset (by rw [hp]; nofun) ho
          · exact ⟨ho, hi, Container.entry_of_childAt h⟩
      | _ => exact .inl ⟨_, rfl, rfl⟩

theorem takeValue_cases (hv : cur.Valid) (hp : cur.phase = .value) :
    (∃ f, cur.takeValue = .error f ∧ cur.rest shallow = .failed f) ∨
    ∃ v cur', cur.takeValue = .ok (v, cur') ∧ cur'.Valid ∧
      (v.isScalar = true ∨ ∃ n, v = .binary n) ∧ cur.rest shallow =
        (v.told (Container.telling shallow) .value).append (cur'.rest shallow) := by
  obtain ⟨ho, hi, dk, hdk⟩ := hv.value hp
  have hvo := hv.valueOffset (by rw [hp]; nofun) ho
  unfold takeValue
  simp only [rest, hp, Container.valueFrom, Container.child_of_start hvo]
  cases h : cur.container.childAt (cur.index + cur.container.len) cur.valueOffset with
  | error f => exact .inl ⟨f, rfl, rfl⟩
  | ok v =>
      obtain ⟨dv, hdv⟩ := Container.entry_of_childAt h
      rw [hdk, hdv]
      refine .inr ⟨_, _, rfl, ⟨?_, fun _ _ => ?_, nofun, nofun⟩,
        Container.isScalar_or_binary_of_childAt h, ?_⟩
      · exact Container.start_succ hv.offset hdk
      · show cur.container.start (cur.index + 1 + cur.container.len) = _
        rw [Nat.add_right_comm]
        exact Container.start_succ hvo hdv
      · simp [ho]

end Cursor

/-! ### Steps -/

namespace Replay

/-- What is still to come when the given cursors are left, innermost first. -/
def restOf (shallow : Bool) : List Cursor → Trace
  | [] => .finished
  | cur :: below => (cur.rest shallow).append (restOf shallow below)

/-- What is still to come. -/
def rest (r : Replay) : Trace := restOf r.shallow r.stack

/-- Every cursor of a reading is valid. -/
def Valid (r : Replay) : Prop := ∀ cur ∈ r.stack, cur.Valid

theorem valid_before (c : Container) (shallow : Bool) : (before c shallow).Valid := by
  intro cur h
  rw [List.mem_singleton.mp h]
  exact Cursor.valid_before c

theorem rest_before (c : Container) (shallow : Bool) :
    (before c shallow).rest = c.walkWith (Container.telling shallow) := by
  show ((Cursor.before c).rest shallow).append .finished = _
  rw [Trace.append_finished, Cursor.rest_before]

/-- A step from `r` with result `out` hands out the head of the trace `t` and leaves its tail. -/
structure Tells (r : Replay) (t : Trace) (out : Except Fault Event × Replay) : Prop where
  event : out.1 = t.head
  rest : out.2.rest = t.tail
  valid : out.2.Valid
  shallow : out.2.shallow = r.shallow

variable {r : Replay}

theorem tells_fault {cur : Cursor} {below : List Cursor} {shallow : Bool} {f : Fault}
    (hr : cur.rest shallow = .failed f) (h : (Replay.mk (cur :: below) shallow).Valid) :
    Tells ⟨cur :: below, shallow⟩ ((cur.rest shallow).append (restOf shallow below))
      (.error f, ⟨cur :: below, shallow⟩) := by
  rw [hr]
  refine ⟨rfl, ?_, h, rfl⟩
  show (cur.rest shallow).append _ = _
  rw [hr]
  rfl

theorem enter_tells {cur : Cursor} {below : List Cursor} (hv : cur.Valid) (hp : cur.phase = .start)
    (hb : ∀ cur ∈ below, cur.Valid) :
    r.Tells ((cur.rest r.shallow).append (restOf r.shallow below))
      (cur.enter.1, { r with stack := cur.enter.2 :: below }) := by
  rcases Cursor.enter_cases r.shallow hv hp with ⟨f, he, hr⟩ | ⟨e, cur', he, hv', hr⟩
  · rw [he, hr]
    refine ⟨rfl, ?_, List.forall_mem_cons.mpr ⟨hv, hb⟩, rfl⟩
    show (cur.rest r.shallow).append _ = _
    rw [hr]
    rfl
  · rw [he, hr]
    exact ⟨rfl, rfl, List.forall_mem_cons.mpr ⟨hv', hb⟩, rfl⟩

/-- A member whose remaining cursors are `below`. -/
theorem deliver_tells (slot : Slot) {v : Value} (hv : v.isScalar = true ∨ ∃ n, v = .binary n)
    {below : List Cursor} (hb : ∀ cur ∈ below, cur.Valid) :
    r.Tells ((v.told (Container.telling r.shallow) slot).append (restOf r.shallow below))
      (r.deliver slot v below) := by
  rcases hv with hv | ⟨n, rfl⟩
  · rw [Value.told_of_isScalar hv]
    cases v with
    | array | object | binary => cases hv
    | _ => exact ⟨rfl, rfl, hb, rfl⟩
  · obtain ⟨stack, shallow⟩ := r
    cases shallow with
    | true => exact ⟨rfl, rfl, hb, rfl⟩
    | false =>
        show Tells _ (n.trace.append _) _
        rw [n.trace_eq_walkWith]
        exact enter_tells (r := ⟨stack, false⟩) (Cursor.valid_before n) rfl hb

section Phases

variable {cur : Cursor} {below : List Cursor} {shallow : Bool}

theorem next_tells_elem (hp : cur.phase = .member) (ho : cur.container.isObject = false)
    (h : (Replay.mk (cur :: below) shallow).Valid) :
    Tells ⟨cur :: below, shallow⟩ ((cur.rest shallow).append (restOf shallow below))
      (next ⟨cur :: below, shallow⟩) := by
  obtain ⟨hv, hb⟩ := List.forall_mem_cons.mp h
  by_cases hi : cur.index < cur.container.len
  · simp only [next, hp, ho, if_pos hi]
    rcases Cursor.takeElem_cases shallow hv hp ho hi with ⟨f, he, hr⟩ | ⟨v, cur', he, hv', hs, hr⟩
    · rw [he]
      exact tells_fault hr h
    · rw [he, hr, Trace.append_assoc]
      exact deliver_tells .elem hs (List.forall_mem_cons.mpr ⟨hv', hb⟩)
  · have hr : cur.rest shallow = .next .endArray .finished := by
      rw [Cursor.rest_of_array shallow hp ho, Nat.sub_eq_zero_of_le (by omega)]
      rfl
    simp only [next, hp, ho, if_neg hi, hr]
    exact ⟨rfl, rfl, hb, rfl⟩

theorem next_tells_key (hp : cur.phase = .member) (ho : cur.container.isObject = true)
    (h : (Replay.mk (cur :: below) shallow).Valid) :
    Tells ⟨cur :: below, shallow⟩ ((cur.rest shallow).append (restOf shallow below))
      (next ⟨cur :: below, shallow⟩) := by
  obtain ⟨hv, hb⟩ := List.forall_mem_cons.mp h
  by_cases hi : cur.index < cur.container.len
  · simp only [next, hp, ho, if_pos hi]
    rcases Cursor.peekKey_cases shallow hv hp ho hi with ⟨f, he, hr⟩ | ⟨k, he, hv', hr⟩
    · rw [he]
      exact tells_fault hr h
    · rw [he, hr]
      exact ⟨rfl, rfl, List.forall_mem_cons.mpr ⟨hv', hb⟩, rfl⟩
  · have hr : cur.rest shallow = .next .endObject .finished := by
      rw [Cursor.rest_of_object shallow hp ho, Nat.sub_eq_zero_of_le (by omega)]
      rfl
    simp only [next, hp, ho, if_neg hi, hr]
    exact ⟨rfl, rfl, hb, rfl⟩

theorem next_tells_value (hp : cur.phase = .value)
    (h : (Replay.mk (cur :: below) shallow).Valid) :
    Tells ⟨cur :: below, shallow⟩ ((cur.rest shallow).append (restOf shallow below))
      (next ⟨cur :: below, shallow⟩) := by
  obtain ⟨hv, hb⟩ := List.forall_mem_cons.mp h
  simp only [next, hp]
  rcases Cursor.takeValue_cases shallow hv hp with ⟨f, he, hr⟩ | ⟨v, cur', he, hv', hs, hr⟩
  · rw [he]
    exact tells_fault hr h
  · rw [he, hr, Trace.append_assoc]
    exact deliver_tells .value hs (List.forall_mem_cons.mpr ⟨hv', hb⟩)

end Phases

/-- A step hands out the head of what is still to come and leaves its tail. -/
theorem next_tells (h : r.Valid) : r.Tells r.rest r.next := by
  obtain ⟨stack, shallow⟩ := r
  cases stack with
  | nil => exact ⟨rfl, rfl, h, rfl⟩
  | cons cur below =>
      cases hp : cur.phase with
      | start =>
          obtain ⟨hv, hb⟩ := List.forall_mem_cons.mp h
          have hn : next ⟨cur :: below, shallow⟩ =
              (cur.enter.1, ⟨cur.enter.2 :: below, shallow⟩) := by
            simp only [next, hp]
          rw [hn]
          exact enter_tells hv hp hb
      | member =>
          cases ho : cur.container.isObject with
          | false => exact next_tells_elem hp ho h
          | true => exact next_tells_key hp ho h
      | value => exact next_tells_value hp h

/-! ### Runs -/

/-- Stepping from a state hands out the given events, and then `done` or a fault. -/
inductive Runs : Replay → List Event → Except Fault Unit → Prop
  | done {r r' : Replay} (h : r.next = (.ok .done, r')) : Runs r [] (.ok ())
  | fault {r r' : Replay} {f : Fault} (h : r.next = (.error f, r')) : Runs r [] (.error f)
  | step {r r' : Replay} {e : Event} {es : List Event} {o : Except Fault Unit}
      (h : r.next = (.ok e, r')) (he : e ≠ .done) (ht : Runs r' es o) : Runs r (e :: es) o

theorem Runs.det {es fs : List Event} {o p : Except Fault Unit} (h₁ : r.Runs es o)
    (h₂ : r.Runs fs p) : es = fs ∧ o = p := by
  induction h₁ generalizing fs with
  | done h =>
      cases h₂ with
      | done h' => exact ⟨rfl, rfl⟩
      | fault h' => cases h.symm.trans h'
      | step h' he => cases h.symm.trans h'; exact absurd rfl he
  | fault h =>
      cases h₂ with
      | done h' => cases h.symm.trans h'
      | fault h' => cases h.symm.trans h'; exact ⟨rfl, rfl⟩
      | step h' => cases h.symm.trans h'
  | step h he ht ih =>
      cases h₂ with
      | done h' => cases h.symm.trans h'; exact absurd rfl he
      | fault h' => cases h.symm.trans h'
      | step h' he' ht' =>
          cases h.symm.trans h'
          obtain ⟨rfl, rfl⟩ := ih ht'
          exact ⟨rfl, rfl⟩

/-- A reading runs through what is still to come. -/
theorem runs_rest {t : Trace} (hr : r.rest = t) (h : r.Valid) (hd : ∀ e ∈ t.events, e ≠ .done) :
    r.Runs t.events t.outcome := by
  have hn : r.next = (r.next.1, r.next.2) := rfl
  have ht := next_tells h
  rw [hr] at ht
  induction t generalizing r with
  | finished => exact .done (hn.trans (by rw [ht.event]; rfl))
  | failed f => exact .fault (hn.trans (by rw [ht.event]; rfl))
  | next e t ih =>
      have hv := ht.valid
      obtain ⟨he, hd⟩ := List.forall_mem_cons.mp hd
      refine .step (hn.trans (by rw [ht.event]; rfl)) he (ih ht.rest hv hd rfl ?_)
      have h' := next_tells hv
      rwa [ht.rest] at h'

end Replay

theorem Trace.Fits.ne_done {st : List Due} {t : Trace} (h : t.Fits st) :
    ∀ e ∈ t.events, e ≠ .done := by
  induction h with
  | finished => nofun
  | failed => nofun
  | next he ht ih =>
      refine List.forall_mem_cons.mpr ⟨?_, ih⟩
      rintro rfl
      cases he with
      | member hd he =>
          generalize hq : Event.done = q at he
          cases he with
          | scalar hv => cases hd <;> cases hq
          | _ => cases hq

namespace Container

theorem rest_before (c : Container) : (Replay.before c false).rest = c.trace := by
  rw [Replay.rest_before, trace_eq_walkWith]
  rfl

theorem runs_trace (c : Container) :
    (Replay.before c false).Runs c.trace.events c.validate :=
  Replay.runs_rest c.rest_before (Replay.valid_before c false) c.fits_trace.ne_done

end Container

end PackedTree
