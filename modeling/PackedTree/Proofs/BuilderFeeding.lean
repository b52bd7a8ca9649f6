import PackedTree.Proofs.BuilderRuns
import PackedTree.Proofs.TraceShape

/-! # Feeding a member to a builder

A member is told to a builder event by event.  Its trace closes exactly the containers that it
opens (`Trace.Nests`), whatever the member is (`Value.nests_trace`), so feeding it never closes the
container in which it stands.  Hence no member finishes a value (`feed_continues`), and a member
that is not refused is a run of pushes (`pushes_of_feed`).

A list of events is the stream of at most one tree, also if something follows
(`Value.stream_append_inj`), so the events tell which tree was fed. -/

namespace PackedTree

/-! ### Traces that close what they open -/

/-- What an event without containers does to a number of open containers. -/
inductive Event.Shifts : Event → Nat → Nat → Prop
  | beginArray {len n : Nat} {raw : Bool} : Shifts (.beginArray len raw) n (n + 1)
  | beginObject {len n : Nat} : Shifts (.beginObject len) n (n + 1)
  | key {k : Bytes} {n : Nat} : Shifts (.key k) n n
  | elem {v : Value} {n : Nat} (hv : v.isScalar = true) : Shifts (.elem v) n n
  | value {v : Value} {n : Nat} (hv : v.isScalar = true) : Shifts (.value v) n n
  | endArray {n : Nat} : Shifts .endArray (n + 1) n
  | endObject {n : Nat} : Shifts .endObject (n + 1) n

namespace Event.Shifts

variable {e : Event} {n n' : Nat}

theorem scalar {v : Value} (hv : v.isScalar = true) (slot : Slot) : (slot.event v).Shifts n n := by
  cases slot with
  | elem => exact .elem hv
  | value => exact .value hv

theorem isSimple (h : e.Shifts n n') : e.isSimple = true := by
  cases h with
  | elem hv | value hv => exact hv
  | _ => rfl

/-- Containers further out make no difference. -/
theorem add (h : e.Shifts n n') (m : Nat) : e.Shifts (n + m) (n' + m) := by
  cases h with
  | key => exact .key
  | elem hv => exact .elem hv
  | value hv => exact .value hv
  | beginArray => rw [Nat.add_right_comm]; exact .beginArray
  | beginObject => rw [Nat.add_right_comm]; exact .beginObject
  | endArray => rw [Nat.add_right_comm]; exact .endArray
  | endObject => rw [Nat.add_right_comm]; exact .endObject

end Event.Shifts

theorem Owes.shifts {st st' : List Due} {e : Event} (h : Owes st e st') :
    e.Shifts (st.length - 1) (st'.length - 1) := by
  cases h with
  | member hd he =>
      cases he with
      | scalar hv => exact .scalar hv _
      | array => exact .beginArray
      | object => exact .beginObject
  | key => exact .key
  | endArray => exact .endArray
  | endObject => exact .endObject

/-- With `n` containers open, the trace closes these and those that it opens itself, unless it ends
with a fault. -/
inductive Trace.Nests : Nat → Trace → Prop
  | finished : Nests 0 .finished
  | failed {n : Nat} {f : Fault} : Nests n (.failed f)
  | next {n n' : Nat} {e : Event} {t : Trace} (he : e.Shifts n n') (ht : Nests n' t) :
      Nests n (.next e t)

namespace Trace

variable {n m : Nat} {t u : Trace}

theorem Nests.append (ht : t.Nests n) (hu : u.Nests m) : (t.append u).Nests (n + m) := by
  induction ht with
  | finished => rwa [Nat.zero_add]
  | failed => exact .failed
  | next he ht ih => exact .next (he.add m) ih

theorem Nests.enclose {e e' : Event} (he : e.Shifts 0 1) (ht : t.Nests 0) (he' : e'.Shifts 1 0) :
    (Trace.next e (t.append (.next e' .finished))).Nests 0 := by
  apply Nests.next he
  have h := ht.append (.next he' .finished)
  rwa [Nat.zero_add] at h

theorem Nests.isSimple (h : t.Nests n) : ∀ e ∈ t.events, e.isSimple = true := by
  induction h with
  | finished => nofun
  | failed => nofun
  | next he ht ih => exact List.forall_mem_cons.mpr ⟨he.isSimple, ih⟩

theorem Fits.nests {st : List Due} (h : t.Fits st) : t.Nests (st.length - 1) := by
  induction h with
  | finished => exact .finished
  | failed => exact .failed
  | next he ht ih => exact .next he.shifts ih

end Trace

theorem Container.nests_trace (c : Container) : c.trace.Nests 0 := c.fits_trace.nests

theorem Container.unwrapped_cases {c : Container} {v : Value} (h : c.unwrapped = .ok v) :
    v.isScalar = true ∨ ∃ n, v = .binary n ∧ n.isRaw = false := by
  induction hs : c.size using Nat.strongRecOn generalizing c with
  | ind s ih =>
      rw [unwrapped] at h
      cases hr : c.isRaw with
      | false =>
          rw [hr] at h
          cases h
          exact .inr ⟨c, rfl, hr⟩
      | true =>
          rw [hr, if_pos rfl] at h
          split at h
          · next n hn => exact ih n.size (hs ▸ size_lt_of_child hn) h rfl
          · next hn =>
              rcases child_cases h with hv | ⟨n, rfl, -⟩
              · exact .inl hv
              · exact absurd h (hn n)

namespace Value

theorem nests_traceElems {elems : List Value} (ih : ∀ v ∈ elems, ∀ slot, (v.trace slot).Nests 0) :
    (traceElems elems).Nests 0 := by
  induction elems with
  | nil => exact .finished
  | cons v vs ih' =>
      obtain ⟨hv, hvs⟩ := List.forall_mem_cons.mp ih
      exact (hv .elem).append (ih' hvs)

theorem nests_tracePairs {pairs : List (Bytes × Value)}
    (ih : ∀ p ∈ pairs, ∀ slot, (p.2.trace slot).Nests 0) : (tracePairs pairs).Nests 0 := by
  induction pairs with
  | nil => exact .finished
  | cons p ps ih' =>
      obtain ⟨hp, hps⟩ := List.forall_mem_cons.mp ih
      exact .next .key ((hp .value).append (ih' hps))

theorem nests_scalar {v : Value} (hv : v.isScalar = true) (slot : Slot) :
    (Trace.next (slot.event v) .finished).Nests 0 :=
  .next (.scalar hv slot) .finished

theorem nests_trace (v : Value) (slot : Slot) : (v.trace slot).Nests 0 := by
  induction v using induction_on_members generalizing slot with
  | null | bool | number | string => exact nests_scalar rfl slot
  | array raw elems ih =>
      cases raw with
      | false =>
          rw [trace_array]
          exact .enclose .beginArray (nests_traceElems ih) .endArray
      | true =>
          match elems, ih with
          | [v], ih =>
              rw [trace]
              exact ih v List.mem_cons_self slot
          | [], _ => exact .failed
          | _ :: _ :: _, _ => exact .failed
  | object pairs ih =>
      rw [trace_object]
      exact .enclose .beginObject (nests_tracePairs ih) .endObject
  | binary c =>
      rw [trace]
      cases hu : c.unwrapped with
      | error f => exact .failed
      | ok v =>
          rcases Container.unwrapped_cases hu with hv | ⟨n, rfl, -⟩
          · cases v with
            | null | bool | number | string => exact nests_scalar hv slot
            | _ => cases hv
          · exact n.nests_trace

end Value

namespace Builder

variable {b b' : Builder} {n n' k : Nat} {e : Event} {t u : Trace}

/-! ### What a step can do -/

/-- What a builder can make of a finished value. -/
inductive Places (b : Builder) (v : Value) : Outcome → Prop
  | finished (hb : b.frames = []) : Places b v (.ok (some v), { b with complete := true })
  | elem {raw : Bool} {elems : List Value} {frames : List Frame}
      (hb : b.frames = .array raw elems :: frames) (hn : elems.length < b.options.limit) :
      Places b v (.ok none, { b with frames := .array raw (v :: elems) :: frames })
  | value {pairs : List (Bytes × Value)} {key : Option Bytes} {frames : List Frame}
      (hb : b.frames = .object pairs key :: frames) (hn : pairs.length < b.options.limit) :
      Places b v
        (.ok none, { b with frames := .object ((key.getD [], v) :: pairs) none :: frames })
  | fullArray {f : Fault} : Places b v (.error f, b)
  | fullObject {pairs : List (Bytes × Value)} {key : Option Bytes} {frames : List Frame}
      {f : Fault} (hb : b.frames = .object pairs key :: frames) :
      Places b v (.error f, { b with frames := .object pairs none :: frames })

theorem store_places (b : Builder) (v : Value) : b.Places v (b.store v) := by
  obtain ⟨o, _ | ⟨⟨raw, elems⟩ | ⟨pairs, key⟩, frames⟩, complete⟩ := b
  · exact .finished rfl
  · show Places _ v (if _ then _ else _)
    split
    · exact .fullArray
    · next hn => exact .elem rfl (Nat.not_le.mp hn)
  · show Places _ v (if _ then _ else _)
    split
    · exact .fullObject rfl
    · next hn => exact .value rfl (Nat.not_le.mp hn)

/-- What a builder can make of an event without containers. -/
inductive Moves (b : Builder) : Event → Outcome → Prop
  | refused {e : Event} {f : Fault} : Moves b e (.error f, b)
  | beginArray {len : Nat} {raw : Bool} (hr : raw = true → b.frames = [])
      (hw : b.frames.head?.bind Frame.closedTo = none) (hd : b.depth < maxDepth) :
      Moves b (.beginArray len raw) (.ok none, { b with frames := .array raw [] :: b.frames })
  | beginObject {len : Nat} (hw : b.frames.head?.bind Frame.closedTo = none)
      (hd : b.depth < maxDepth) :
      Moves b (.beginObject len) (.ok none, { b with frames := .object [] none :: b.frames })
  | key {pairs : List (Bytes × Value)} {frames : List Frame} {k : Bytes}
      (hb : b.frames = .object pairs none :: frames) :
      Moves b (.key k) (.ok none, { b with frames := .object pairs (some k) :: frames })
  | elem {raw : Bool} {elems : List Value} {frames : List Frame} {v : Value}
      (hb : b.frames = .array raw elems :: frames) (hv : v.isScalar = true)
      (hr : raw = true → elems = []) : Moves b (.elem v) (b.store v)
  | value {pairs : List (Bytes × Value)} {k : Bytes} {frames : List Frame} {v : Value}
      (hb : b.frames = .object pairs (some k) :: frames) (hv : v.isScalar = true) :
      Moves b (.value v) (b.store v)
  | endArray {raw : Bool} {elems : List Value} {frames : List Frame}
      (hb : b.frames = .array raw elems :: frames) (hr : raw = true → elems.length = 1) :
      Moves b .endArray (store { b with frames := frames } (.array raw elems.reverse))
  | endObject {pairs : List (Bytes × Value)} {frames : List Frame}
      (hb : b.frames = .object pairs none :: frames) :
      Moves b .endObject
        (store { b with frames := frames } (.object (Value.staying b.options pairs.reverse)))
  | repeatedKey {pairs : List (Bytes × Value)} {frames : List Frame} {f : Fault}
      (hb : b.frames = .object pairs none :: frames) :
      Moves b .endObject (.error f, { b with frames := frames })

theorem enter_moves {token : Token} {f : Frame}
    (h : b.frames.head?.bind Frame.closedTo = none → b.depth < maxDepth →
      Moves b e (.ok none, { b with frames := f :: b.frames })) :
    Moves b e (b.enter token f) := by
  unfold enter
  cases hw : b.frames.head?.bind Frame.closedTo with
  | some reason => exact .refused
  | none =>
      show Moves b e (if _ then _ else _)
      split
      · exact .refused
      · next hd => exact h hw (Nat.not_le.mp hd)

theorem step_moves (he : e.isSimple = true) : Moves b e (b.step e) := by
  cases e with
  | beginArray len raw =>
      show Moves b _ (if _ then _ else _)
      split
      · exact .refused
      · next hr =>
          apply enter_moves
          intro hw hd
          exact .beginArray (fun h => by simpa [h] using hr) hw hd
  | beginObject len => exact enter_moves .beginObject
  | elem v =>
      rcases hb : b.frames with _ | ⟨⟨raw, elems⟩ | ⟨_, _⟩, frames⟩ <;> simp only [step, hb]
      · exact .refused
      · split
        · exact .refused
        · next hr => exact .elem hb he fun h => by simpa [h] using hr
      · exact .refused
  | key k =>
      rcases hb : b.frames with _ | ⟨⟨_, _⟩ | ⟨pairs, _ | l⟩, frames⟩ <;> simp only [step, hb]
      · exact .refused
      · exact .refused
      · exact .key hb
      · exact .refused
  | value v =>
      rcases hb : b.frames with _ | ⟨⟨_, _⟩ | ⟨pairs, _ | k⟩, frames⟩ <;> simp only [step, hb]
      · exact .refused
      · exact .refused
      · exact .refused
      · exact .value hb he
  | endArray =>
      rcases hb : b.frames with _ | ⟨⟨raw, elems⟩ | ⟨_, _⟩, frames⟩ <;> simp only [step, hb]
      · exact .refused
      · split
        · exact .refused
        · next hr => exact .endArray hb fun h => by simpa [h] using hr
      · exact .refused
  | endObject =>
      rcases hb : b.frames with _ | ⟨⟨_, _⟩ | ⟨pairs, _ | k⟩, frames⟩ <;> simp only [step, hb]
      · exact .refused
      · exact .refused
      · cases hf : finishPairs b.options pairs.reverse with
        | error f => exact .repeatedKey hb
        | ok r =>
            obtain ⟨-, rfl⟩ := finishPairs_eq_ok_iff.mp hf
            exact .endObject hb
      · exact .refused
  | done => exact .refused

/-! ### Feeding -/

/-- The outcome finishes nothing, and if nothing was refused, so many containers are open. -/
def Outcome.Continues (depth : Nat) (x : Outcome) : Prop :=
  x.2.complete = false ∧ ∀ r, x.1 = .ok r → r = none ∧ x.2.depth = depth

theorem continues_ok (hc : b.complete = false) : Outcome.Continues b.depth (.ok none, b) :=
  ⟨hc, fun _ h => ⟨(Except.ok.inj h).symm, rfl⟩⟩

theorem continues_error (hc : b.complete = false) (f : Fault) (depth : Nat) :
    Outcome.Continues depth (.error f, b) := by
  refine ⟨hc, ?_⟩
  rintro r ⟨⟩

theorem store_continues (hc : b.complete = false) (hf : b.frames ≠ []) (v : Value) :
    (b.store v).Continues b.depth := by
  have hplaces := b.store_places v
  generalize b.store v = x at hplaces ⊢
  cases hplaces with
  | finished hb => exact absurd hb hf
  | elem hb | value hb =>
      refine ⟨hc, fun _ h => ⟨(Except.ok.inj h).symm, ?_⟩⟩
      rw [Builder.depth, Builder.depth, hb, List.length_cons, List.length_cons]
  | fullArray => exact continues_error hc _ _
  | fullObject =>
      refine continues_error ?_ _ _
      exact hc

/-- Behind a container that ends inside another one, its value is stored in that other one. -/
theorem store_below_continues (hc : b.complete = false) {f : Frame} {frames : List Frame}
    (hb : b.frames = f :: frames) {depth : Nat} (hd : b.depth = depth + 1) (hpos : 0 < depth)
    (v : Value) : (store { b with frames := frames } v).Continues depth := by
  have hlen : frames.length = depth := by
    rw [Builder.depth, hb, List.length_cons] at hd
    omega
  have hne : frames ≠ [] := List.ne_nil_of_length_pos (hlen ▸ hpos)
  rw [← hlen]
  exact store_continues (b := { b with frames := frames }) hc hne v

/-- As long as an event does not end the outermost container, a step finishes nothing. -/
theorem step_continues (he : e.Shifts n n') (hc : b.complete = false) (depth : Nat)
    (hd : b.depth + n' = depth + n) (hn : n < b.depth) : (b.step e).Continues depth := by
  have hmoves := step_moves (b := b) he.isSimple
  generalize b.step e = x at hmoves ⊢
  have hne {f : Frame} {frames : List Frame} (hb : b.frames = f :: frames) : b.frames ≠ [] :=
    hb ▸ List.cons_ne_nil f frames
  cases hmoves with
  | refused => exact continues_error hc _ _
  | beginArray =>
      cases he
      obtain rfl : depth = b.depth + 1 := by omega
      exact ⟨hc, fun _ h => ⟨(Except.ok.inj h).symm, rfl⟩⟩
  | beginObject =>
      cases he
      obtain rfl : depth = b.depth + 1 := by omega
      exact ⟨hc, fun _ h => ⟨(Except.ok.inj h).symm, rfl⟩⟩
  | key hb =>
      cases he
      obtain rfl : depth = b.depth := by omega
      refine ⟨hc, fun _ h => ⟨(Except.ok.inj h).symm, ?_⟩⟩
      rw [Builder.depth, Builder.depth, hb, List.length_cons, List.length_cons]
  | elem hb | value hb =>
      cases he
      obtain rfl : depth = b.depth := by omega
      exact store_continues hc (hne hb) _
  | endArray hb | endObject hb =>
      cases he
      exact store_below_continues hc hb (by omega) (by omega) _
  | repeatedKey =>
      refine continues_error ?_ _ _
      exact hc

/-- As long as a trace does not end the outermost container, feeding it finishes nothing. -/
theorem feed_continues (ht : t.Nests n) (hc : b.complete = false) {depth : Nat}
    (hd : b.depth = depth + n) (hpos : 0 < depth) : (b.feed none t).Continues depth := by
  induction ht generalizing b with
  | finished =>
      obtain rfl : depth = b.depth := by omega
      exact continues_ok hc
  | failed => exact continues_error hc _ _
  | @next n n' e t he ht ih =>
      have hstep := step_continues he hc (depth + n') (by omega) (by omega)
      rw [feed]
      cases hs : b.step e with
      | mk x b' =>
          rw [hs] at hstep
          obtain ⟨hc', hok⟩ := hstep
          cases x with
          | error f => exact continues_error hc' f _
          | ok r =>
              obtain ⟨rfl, hd'⟩ := hok r rfl
              exact ih hc' hd'

/-- A trace that is fed without a refusal has no fault, and feeding it is a run of pushes. -/
theorem pushes_of_feed (ht : t.Nests n) (hc : b.complete = false) (hn : n < b.depth)
    {r : Option Value} (h : b.feed none t = (.ok r, b')) :
    t.fault? = none ∧ Pushes b t.events b' := by
  induction ht generalizing b with
  | finished =>
      cases h
      exact ⟨rfl, .nil⟩
  | failed => cases h
  | @next n n' e t he ht ih =>
      have hstep := step_continues he hc (b.depth - n + n') (by omega) hn
      rw [feed] at h
      cases hs : b.step e with
      | mk x b₁ =>
          rw [hs] at h hstep
          cases x with
          | error f => cases h
          | ok r =>
              obtain ⟨hc', hok⟩ := hstep
              obtain ⟨rfl, hd'⟩ := hok r rfl
              obtain ⟨hf, hp⟩ := ih hc' (show n' < b₁.depth by rw [hd']; omega) h
              exact ⟨hf, .cons ((push_simple hc he.isSimple).trans hs) hp⟩

/-- Feeding inside a container what closes all that it opens finishes nothing. -/
theorem none_of_feed (ht : t.Nests 0) (hc : b.complete = false) (hpos : 0 < b.depth)
    {r : Option Value} (h : b.feed none t = (.ok r, b')) : r = none ∧ b'.complete = false := by
  have hcont := feed_continues ht hc (Nat.add_zero _).symm hpos
  rw [h] at hcont
  exact ⟨(hcont.2 r rfl).1, hcont.1⟩

end Builder

/-! ### Streams of trees -/

theorem Slot.event_ne_end (slot : Slot) (v : Value) :
    slot.event v ≠ .endArray ∧ slot.event v ≠ .endObject := by
  cases slot <;> simp [Slot.event]

namespace Value

theorem exists_stream_eq_cons (v : Value) (slot : Slot) :
    ∃ e es, v.stream slot = e :: es ∧ e ≠ .endArray ∧ e ≠ .endObject := by
  cases v with
  | array raw elems => exact ⟨_, _, stream_array raw elems slot, by simp, by simp⟩
  | object pairs => exact ⟨_, _, stream_object pairs slot, by simp, by simp⟩
  | _ =>
      simp only [stream]
      exact ⟨_, [], rfl, slot.event_ne_end _⟩

theorem streamElems_append_inj {elems elems' : List Value} {r r' : List Event}
    (ih : ∀ v ∈ elems, ∀ slot w (s s' : List Event),
      v.stream slot ++ s = w.stream slot ++ s' → v = w ∧ s = s')
    (h : streamElems elems ++ .endArray :: r = streamElems elems' ++ .endArray :: r') :
    elems = elems' ∧ r = r' := by
  induction elems generalizing elems' with
  | nil =>
      cases elems' with
      | nil => simpa [streamElems] using h
      | cons w ws =>
          obtain ⟨e, es, hw, hne, -⟩ := exists_stream_eq_cons w .elem
          rw [streamElems, streamElems, hw] at h
          exact absurd (List.cons.inj h).1.symm hne
  | cons v vs ih' =>
      obtain ⟨hv, hvs⟩ := List.forall_mem_cons.mp ih
      cases elems' with
      | nil =>
          obtain ⟨e, es, hw, hne, -⟩ := exists_stream_eq_cons v .elem
          rw [streamElems, streamElems, hw] at h
          exact absurd (List.cons.inj h).1 hne
      | cons w ws =>
          rw [streamElems, streamElems, List.append_assoc, List.append_assoc] at h
          obtain ⟨rfl, hrest⟩ := hv .elem w _ _ h
          obtain ⟨rfl, hr⟩ := ih' hvs hrest
          exact ⟨rfl, hr⟩

theorem streamPairs_append_inj {pairs pairs' : List (Bytes × Value)} {r r' : List Event}
    (ih : ∀ p ∈ pairs, ∀ slot w (s s' : List Event),
      p.2.stream slot ++ s = w.stream slot ++ s' → p.2 = w ∧ s = s')
    (h : streamPairs pairs ++ .endObject :: r = streamPairs pairs' ++ .endObject :: r') :
    pairs = pairs' ∧ r = r' := by
  induction pairs generalizing pairs' with
  | nil =>
      cases pairs' with
      | nil => simpa [streamPairs] using h
      | cons q qs => cases (List.cons.inj h).1
  | cons p ps ih' =>
      obtain ⟨k, v⟩ := p
      obtain ⟨hv, hps⟩ := List.forall_mem_cons.mp ih
      cases pairs' with
      | nil => cases (List.cons.inj h).1
      | cons q qs =>
          obtain ⟨l, w⟩ := q
          rw [streamPairs, streamPairs, List.cons_append, List.cons_append, List.append_assoc,
            List.append_assoc] at h
          obtain ⟨hk, htail⟩ := List.cons.inj h
          cases hk
          obtain ⟨hvw, hrest⟩ := hv .value w _ _ htail
          obtain rfl : v = w := hvw
          obtain ⟨rfl, hr⟩ := ih' hps hrest
          exact ⟨rfl, hr⟩

/-- The stream of a value that is no tree of others is told apart by its only event. -/
theorem leaf_append_inj {v w : Value} {slot : Slot} {s s' : List Event}
    (h : slot.event v :: s = w.stream slot ++ s') : v = w ∧ s = s' := by
  cases w with
  | array | object =>
      simp only [stream] at h
      cases slot <;> cases h
  | _ =>
      simp only [stream] at h
      cases slot <;> cases h <;> exact ⟨rfl, rfl⟩

theorem stream_append_inj {v w : Value} {slot : Slot} {s s' : List Event}
    (h : v.stream slot ++ s = w.stream slot ++ s') : v = w ∧ s = s' := by
  induction v using induction_on_members generalizing slot w s s' with
  | null | bool | number | string | binary =>
      simp only [stream] at h
      exact leaf_append_inj h
  | array raw elems ih =>
      rw [stream_array] at h
      cases w with
      | array raw' elems' =>
          rw [stream_array] at h
          simp only [List.cons_append, List.append_assoc, List.nil_append] at h
          obtain ⟨he, htail⟩ := List.cons.inj h
          cases he
          obtain ⟨rfl, hs⟩ := streamElems_append_inj (fun v hv slot w s s' h => ih v hv h) htail
          exact ⟨rfl, hs⟩
      | object pairs =>
          rw [stream_object] at h
          cases h
      | _ =>
          simp only [stream] at h
          cases slot <;> cases h
  | object pairs ih =>
      rw [stream_object] at h
      cases w with
      | array raw elems =>
          rw [stream_array] at h
          cases h
      | object pairs' =>
          rw [stream_object] at h
          simp only [List.cons_append, List.append_assoc, List.nil_append] at h
          have htail := (List.cons.inj h).2
          obtain ⟨rfl, hs⟩ := streamPairs_append_inj (fun p hp slot w s s' h => ih p hp h) htail
          exact ⟨rfl, hs⟩
      | _ =>
          simp only [stream] at h
          cases slot <;> cases h

end Value

/-- Events without containers that are the stream of a tree, whatever lengths they announce, build
only if the tree may be told, and only what it amounts to. -/
theorem Builder.buildableRoot_of_build {o : Options} {es : List Event} {t v : Value}
    (hs : ∀ e ∈ es, e.isSimple = true) (ht : es.map Event.unhinted = t.stream .elem)
    (h : build o es = .ok v) : t.BuildableRoot o ∧ v = t.settled o := by
  obtain ⟨u, s, tail, rfl, -, hu, hb, rfl⟩ := told_of_run .nothing hs h
  rw [List.map_append, ← List.nil_append (s.map Event.unhinted), hu] at ht
  have happend : u.stream .elem ++ tail.map Event.unhinted = t.stream .elem ++ [] := by
    rw [ht, List.append_nil]
  obtain ⟨rfl, -⟩ := Value.stream_append_inj happend
  exact ⟨hb, rfl⟩

end PackedTree
