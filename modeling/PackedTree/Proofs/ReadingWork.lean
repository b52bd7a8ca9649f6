import PackedTree.Proofs.AccessSafety
import PackedTree.Proofs.ReplayWalk
import PackedTree.Proofs.WholeContainers

/-! # The work of a reading

Nothing keeps the descriptors of a container from pointing anywhere, and still no byte is read
twice: a child ends where it begins or later, inside the payload, and the next one begins there.  So
every event of a walk can be charged to two bytes of its own, those of headers and descriptors
(`two_mul_account_le`), and a container that is entered lies at least eight bytes deeper
(`Replay.Stacked`).

`Container.reads_linearly` puts this together for the containers of all byte strings.  Loops over
events are given as `Replay.foldWithin` and `Replay.compareWithin`, which count their turns. -/

namespace PackedTree

namespace Trace

theorem length_events_append_le (t u : Trace) :
    (t.append u).events.length ≤ t.events.length + u.events.length := by
  induction t with
  | finished => exact (Nat.zero_add _).ge
  | failed f => exact Nat.zero_le _
  | next e t ih =>
      simp only [append, events, List.length_cons]
      omega

end Trace

namespace Container

variable {c : Container} {i o : Nat} {v : Value}

/-! ### Children take up disjoint ranges -/

theorem four_le_size (c : Container) : 4 ≤ c.size := by
  unfold size
  omega

/-- A nested container leaves out the header of the outer one and a descriptor. -/
theorem size_add_le_of_childAt {n : Container} (h : c.childAt i o = .ok (.binary n)) :
    n.size + 8 ≤ c.size := by
  obtain ⟨d, hd, -, hstop, hsize⟩ := range_of_childAt h
  have hn := hsize n rfl
  have hi := lt_of_entry hd
  unfold size at hn ⊢
  omega

/-! ### Two bytes for each event -/

section Charge

variable {enter : Slot → Container → Trace}
  (hn : ∀ slot n, n.size < c.size → 2 * (enter slot n).events.length ≤ n.size)
include hn

theorem two_mul_told_le {d : Descriptor} (hd : c.entry i = .ok d) (h : c.childAt i o = .ok v)
    (slot : Slot) : 2 * (v.told enter slot).events.length ≤ 2 + (d.stop o - o) := by
  rcases isScalar_or_binary_of_childAt h with hv | ⟨n, rfl⟩
  · rw [Value.told_of_isScalar hv]
    exact Nat.le_add_right 2 _
  · obtain ⟨d', hd', -, -, hsize⟩ := range_of_childAt h
    cases hd.symm.trans hd'
    exact (hn slot n (size_lt_of_childAt h)).trans ((hsize n rfl).trans (Nat.le_add_left _ _))

/-- Elements are charged to their descriptors and to the payload that lies ahead. -/
theorem two_mul_elemsFrom_le (k : Nat) (ho : c.start i = .ok o) :
    2 * (c.elemsFrom enter (List.range' i k)).events.length ≤
      2 + 4 * k + (c.payload.length - o) := by
  induction k generalizing i o with
  | zero => exact Nat.le_add_right 2 _
  | succ k ih =>
      rw [List.range'_succ, elemsFrom_cons, child_of_start ho]
      cases hc : c.childAt i o with
      | error f => exact Nat.zero_le _
      | ok v =>
          obtain ⟨d, hd, hle, hstop, -⟩ := range_of_childAt hc
          have htold := two_mul_told_le hn hd hc .elem
          have hrest := ih (start_succ ho hd)
          refine (Nat.mul_le_mul_left 2 (Trace.length_events_append_le _ _)).trans ?_
          omega

/-- Pairs are charged to their two descriptors and to the payload ahead of their values. -/
theorem two_mul_pairsFrom_le (k : Nat) (ho : c.start (i + c.len) = .ok o) :
    2 * (c.pairsFrom enter (List.range' i k)).events.length ≤
      2 + 8 * k + (c.payload.length - o) := by
  induction k generalizing i o with
  | zero => exact Nat.le_add_right 2 _
  | succ k ih =>
      rw [List.range'_succ, pairsFrom_cons]
      split
      · exact Nat.zero_le _
      · simp only [valueFrom, child_of_start ho, Trace.events, List.length_cons]
        cases hc : c.childAt (i + c.len) o with
        | error f =>
            simp only [Trace.events, List.length_nil]
            omega
        | ok v =>
            obtain ⟨d, hd, hle, hstop, -⟩ := range_of_childAt hc
            have htold := two_mul_told_le hn hd hc .value
            have hnext : c.start (i + 1 + c.len) = .ok (d.stop o) := by
              rw [Nat.add_right_comm]
              exact start_succ ho hd
            have hrest := ih hnext
            have happ := Trace.length_events_append_le (v.told enter .value)
              (c.pairsFrom enter (List.range' (i + 1) k))
            show 2 * (((v.told enter .value).append _).events.length + 1) ≤ _
            omega
      · exact Nat.zero_le _

theorem two_mul_walkWith_le : 2 * (c.walkWith enter).events.length ≤ c.size := by
  cases hobj : c.isObject with
  | false =>
      rw [walkWith_of_array hobj, List.range_eq_range']
      have helems := two_mul_elemsFrom_le hn c.len (i := 0) (o := 0) rfl
      have hcount := entryCount_of_array hobj
      simp only [Trace.events, List.length_cons, size, hcount]
      omega
  | true =>
      rw [walkWith_of_object hobj, List.range_eq_range']
      cases ho : c.start c.len with
      | error f => exact Nat.zero_le _
      | ok o =>
          have hpairs := two_mul_pairsFrom_le hn c.len (i := 0) (o := o) (by rw [Nat.zero_add, ho])
          have hcount := entryCount_of_object hobj
          simp only [Trace.events, List.length_cons, size, hcount]
          omega

end Charge

theorem two_mul_trace_le (c : Container) : 2 * c.trace.events.length ≤ c.size := by
  rw [trace_eq_walkWith]
  exact two_mul_walkWith_le fun _ n _ => two_mul_trace_le n
termination_by c.size

/-- A walk tells at most one event for every two bytes. -/
theorem two_mul_account_le (c : Container) (shallow : Bool) :
    2 * (c.account shallow).events.length ≤ c.size := by
  cases shallow with
  | false => exact c.two_mul_trace_le
  | true =>
      have hpacked (slot : Slot) (n : Container) (_ : n.size < c.size) :
          2 * (packed slot n).events.length ≤ n.size :=
        Nat.le_of_succ_le (Nat.le_of_succ_le n.four_le_size)
      exact two_mul_walkWith_le hpacked

end Container

/-! ### Eight bytes for each level -/

namespace Replay

/-- The containers of a reading, innermost first: each of them leaves eight of the given bytes for
every one around it. -/
def Stacked (room : Nat) : List Cursor → Prop
  | [] => True
  | cur :: below => cur.container.size + 8 * below.length ≤ room ∧ Stacked room below

variable {room : Nat} {r : Replay} {cur : Cursor} {below : List Cursor}

theorem Stacked.depth_le (h : Stacked room r.stack) : r.depth ≤ (room + 4) / 8 := by
  unfold depth
  cases hs : r.stack with
  | nil => exact Nat.zero_le _
  | cons cur below =>
      rw [hs] at h
      have hsize := cur.container.four_le_size
      have hroom := h.1
      rw [List.length_cons]
      omega

theorem Stacked.moved {cur' : Cursor} (h : Stacked room (cur :: below))
    (hc : cur'.container = cur.container) : Stacked room (cur' :: below) := by
  refine ⟨?_, h.2⟩
  rw [hc]
  exact h.1

theorem Stacked.entered {inner : Cursor} (h : Stacked room (cur :: below))
    (hn : inner.container.size + 8 ≤ cur.container.size) :
    Stacked room (inner :: cur :: below) := by
  refine ⟨?_, h⟩
  have hroom := h.1
  rw [List.length_cons]
  omega

end Replay

namespace Cursor

variable {cur cur' : Cursor} {v : Value}

theorem container_enter (cur : Cursor) : cur.enter.2.container = cur.container := by
  cases ho : cur.container.isObject with
  | false => rw [enter_of_array ho]
  | true =>
      rw [enter_of_object ho]
      split <;> rfl

theorem takeElem_container (h : cur.takeElem = .ok (v, cur')) :
    cur'.container = cur.container ∧
      ∀ n, v = .binary n → n.size + 8 ≤ cur.container.size := by
  unfold takeElem at h
  cases hv : cur.container.childAt cur.index cur.offset with
  | error f => rw [hv] at h; cases h
  | ok w =>
      obtain ⟨d, hd⟩ := Container.entry_of_childAt hv
      rw [hv, hd] at h
      cases h
      refine ⟨rfl, ?_⟩
      rintro n rfl
      exact Container.size_add_le_of_childAt hv

theorem takeValue_container (h : cur.takeValue = .ok (v, cur')) :
    cur'.container = cur.container ∧
      ∀ n, v = .binary n → n.size + 8 ≤ cur.container.size := by
  unfold takeValue at h
  cases hv : cur.container.childAt (cur.index + cur.container.len) cur.valueOffset with
  | error f => simp only [hv] at h; cases h
  | ok w =>
      obtain ⟨d, hd⟩ := Container.entry_of_childAt hv
      cases hk : cur.container.entry cur.index with
      | error f => simp only [hv, hk] at h; cases h
      | ok dk =>
          simp only [hv, hd, hk] at h
          cases h
          refine ⟨rfl, ?_⟩
          rintro n rfl
          exact Container.size_add_le_of_childAt hv

end Cursor

namespace Replay

variable {room : Nat} {r : Replay} {cur : Cursor} {below : List Cursor}

theorem stacked_before {c : Container} (h : c.size ≤ room) (shallow : Bool) :
    Stacked room (before c shallow).stack :=
  ⟨h, trivial⟩

theorem stacked_deliver (slot : Slot) {v : Value} (h : Stacked room (cur :: below))
    (hv : ∀ n, v = .binary n → n.size + 8 ≤ cur.container.size) :
    Stacked room (r.deliver slot v (cur :: below)).2.stack := by
  cases v with
  | binary n =>
      obtain ⟨stack, shallow⟩ := r
      cases shallow with
      | true => exact h
      | false =>
          have hn : (Cursor.before n).enter.2.container.size + 8 ≤ cur.container.size := by
            rw [Cursor.container_enter]
            exact hv n rfl
          exact h.entered hn
  | _ => exact h

/-- A step moves within the innermost container, leaves it, or enters one packed in it. -/
theorem stacked_next (h : Stacked room r.stack) : Stacked room r.next.2.stack := by
  obtain ⟨stack, shallow⟩ := r
  unfold next
  cases stack with
  | nil => exact h
  | cons cur below =>
      cases hp : cur.phase with
      | start =>
          simp only [hp]
          exact Stacked.moved h (Cursor.container_enter cur)
      | member =>
          cases ho : cur.container.isObject with
          | false =>
              simp only [hp, ho]
              split
              · split
                · exact h
                · next v cur' he =>
                    obtain ⟨hc, hv⟩ := Cursor.takeElem_container he
                    exact stacked_deliver .elem (h.moved hc) (hc ▸ hv)
              · exact h.2
          | true =>
              simp only [hp, ho]
              split
              · split
                · exact h
                · exact Stacked.moved h rfl
              · exact h.2
      | value =>
          simp only [hp]
          split
          · exact h
          · next v cur' he =>
              obtain ⟨hc, hv⟩ := Cursor.takeValue_container he
              exact stacked_deliver .value (h.moved hc) (hc ▸ hv)

theorem depth_le_of_mem_steps (h : Stacked room r.stack) (n : Nat) :
    ∀ x ∈ r.steps n, x.2 ≤ (room + 4) / 8 := by
  induction n generalizing r with
  | zero => nofun
  | succ n ih =>
      have hnext := stacked_next h
      exact List.forall_mem_cons.mpr ⟨hnext.depth_le, ih hnext⟩

/-! ### Loops with a bound on their turns -/

variable {α : Type}

/-- Takes one event after the other up to `done`, in at most `n` turns; `none` if they do not
suffice. -/
def foldWithin (take : α → Event → α) : Nat → Replay → α → Option (Except Fault α)
  | 0, _, _ => none
  | n + 1, r, a =>
      match r.next with
      | (.error f, _) => some (.error f)
      | (.ok .done, _) => some (.ok a)
      | (.ok e, r) => foldWithin take n r (take a e)

/-- A run is folded in one turn for every event and one for its end. -/
theorem Runs.foldWithin {es : List Event} {o : Except Fault Unit} (h : r.Runs es o)
    (take : α → Event → α) (a : α) {n : Nat} (hn : es.length < n) :
    r.foldWithin take n a = some (o.map fun _ => es.foldl take a) := by
  obtain ⟨n, rfl⟩ : ∃ k, n = k + 1 := ⟨n - 1, by omega⟩
  induction h generalizing n a with
  | done hr => rw [Replay.foldWithin, hr]; rfl
  | fault hr => rw [Replay.foldWithin, hr]; rfl
  | @step r r' e es o hr he ht ih =>
      rw [List.length_cons] at hn
      obtain ⟨n, rfl⟩ : ∃ k, n = k + 1 := ⟨n - 1, by omega⟩
      have hturn : r.foldWithin take (n + 1 + 1) a = r'.foldWithin take (n + 1) (take a e) := by
        rw [Replay.foldWithin, hr]
        cases e with
        | done => exact absurd rfl he
        | _ => rfl
      rw [hturn]
      exact ih (take a e) n (by omega)

end Replay

namespace Container

/-- Reading a container of `size` bytes ends, and how much is done until then: at most one event for
every two bytes, at most one level for every eight of the bytes and four more, and loops that need
one turn for each event and one for the end. -/
structure ReadsLinearly (c : Container) (size : Nat) : Prop where
  ends (shallow : Bool) : ∃ es o, (Replay.before c shallow).Runs es o
  events (shallow : Bool) (es : List Event) (o : Except Fault Unit) :
    (Replay.before c shallow).Runs es o → es.length ≤ size / 2
  depth (shallow : Bool) : (Replay.before c shallow).depth ≤ (size + 4) / 8
  steps (shallow : Bool) (n : Nat) :
    ∀ x ∈ (Replay.before c shallow).steps n, x.2 ≤ (size + 4) / 8
  validate : (Replay.before c false).foldWithin (fun a _ => a) (size / 2 + 1) () = some c.validate
  hash : (Replay.before c false).foldWithin Event.hash (size / 2 + 1) 0 = some c.hash
  compare (d : Container) : (Replay.before c false).compareWithin
    (min (size / 2) (d.bytes.length / 2) + 1) (.before d false) = some (c.compare d)

/-- The reading of an accepted byte string takes work linear in its length, whatever the bytes. -/
theorem reads_linearly {b : Bytes} {c : Container} (h : ofBytes b = .ok c) :
    c.ReadsLinearly b.length := by
  have hsize := size_of_ofBytes h
  have htrace := c.two_mul_trace_le
  have hstacked (shallow : Bool) := Replay.stacked_before hsize.le shallow
  exact {
    ends := fun shallow => ⟨_, _, c.runs_account shallow⟩
    events := fun shallow es o hr => by
      have hle := c.two_mul_account_le shallow
      rw [(hr.det (c.runs_account shallow)).1]
      omega
    depth := fun shallow => (hstacked shallow).depth_le
    steps := fun shallow n => Replay.depth_le_of_mem_steps (hstacked shallow) n
    validate := by
      rw [c.runs_trace.foldWithin _ _ (by omega)]
      cases c.validate <;> rfl
    hash := by
      rw [c.runs_trace.foldWithin _ _ (by omega), Container.hash, Trace.hash_eq_foldl]
      rfl
    compare := fun d => by
      have hd := d.two_mul_trace_le
      rw [d.length_bytes]
      exact c.compareWithin_before d (by omega) }

/-- An array around an empty array is read in twelve bytes. -/
theorem reads_linearly_nested :
    ∃ c, ofBytes [1, 0, 0, 64, 4, 0, 0, 80, 0, 0, 0, 64] = .ok c ∧ c.ReadsLinearly 12 := by
  have h : ofBytes [1, 0, 0, 64, 4, 0, 0, 80, 0, 0, 0, 64] =
      .ok ⟨⟨.array, 1, by decide, by decide⟩, [1342177284], [0, 0, 0, 64], rfl⟩ := by
    cbv
  exact ⟨_, h, reads_linearly h⟩

end Container

end PackedTree
