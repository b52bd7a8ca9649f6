import PackedTree.Proofs.BuiltValues
import PackedTree.Proofs.PackedMembers
import PackedTree.Proofs.ReplayWalk
import PackedTree.Proofs.ValidatedBuilding

/-! # The forms in which a member may be handed over

A container reaches a builder as its events, as its events with nested containers left packed, as
one packed member or as one member that is a tree.  A member is fed by its trace, and a run over the
events of a trace is the run behind feeding it (`run_of_feed`).  So a packed member and its events
come to the same wherever the member may stand, and by a walk over the children the two tellings of
a container come to the same as well (`Container.run_shallow`).  For a tree that may be told at all,
feeding it stores it or hits the limit of depth, and nothing else (`feed_buildable`).

`agree_on_member` is the conclusion for a container that was packed from a built value. -/

namespace PackedTree

/-- The place that a container has for its members. -/
def Frame.slot : Frame → Slot
  | .array _ _ => .elem
  | .object _ _ => .value

namespace Builder

variable {o : Options} {b b' : Builder} {e : Event} {t u : Trace} {n n' : Nat} {r : Option Value}
  {v : Value} {slot : Slot}

/-! ### Runs behind a fed trace -/

/-- The run of the events that follow an outcome. -/
def Outcome.run (x : Outcome) (es : List Event) : Except Fault Value :=
  match x with
  | (.ok r, b) => b.run r es
  | (.error f, _) => .error f

/-- A run over the events of a whole trace is the run behind feeding the trace. -/
theorem run_of_feed (ht : t.Nests n) (hf : t.fault? = none) (hc : b.complete = false)
    (hn : n < b.depth) (es : List Event) :
    b.run none (t.events ++ es) = (b.feed none t).run es := by
  induction ht generalizing b with
  | finished => rfl
  | failed => cases hf
  | @next n n' e t he ht ih =>
      have hstep := step_continues he hc (b.depth - n + n') (by omega) hn
      rw [Trace.events, List.cons_append, run_none_cons, push_simple hc he.isSimple, feed]
      cases hs : b.step e with
      | mk x b₁ =>
          rw [hs] at hstep
          cases x with
          | error f => rfl
          | ok r =>
              obtain ⟨hc', hok⟩ := hstep
              obtain ⟨rfl, hd⟩ := hok r rfl
              exact ih hf hc' (by rw [hd]; omega)

/-! ### The kinds of the open containers -/

/-- The places in which the open containers hold their members, innermost first. -/
def slots (b : Builder) : List Slot := b.frames.map Frame.slot

theorem slots_of_store (h : b.store v = (.ok r, b')) : b'.slots = b.slots := by
  have hplaces := b.store_places v
  rw [h] at hplaces
  cases hplaces with
  | finished => rfl
  | elem hb | value hb =>
      rw [slots, slots, hb]
      rfl

/-- A step leaves the containers as they are that its event does not close. -/
theorem slots_of_step (he : e.Shifts n n') (h : b.step e = (.ok r, b')) :
    b'.slots.drop n' = b.slots.drop n := by
  have hmoves := step_moves (b := b) he.isSimple
  rw [h] at hmoves
  generalize hx : ((.ok r, b') : Outcome) = x at hmoves
  cases hmoves with
  | refused | repeatedKey => cases hx
  | beginArray | beginObject =>
      cases hx
      cases he
      rfl
  | key hb =>
      cases hx
      cases he
      rw [slots, slots, hb]
      rfl
  | elem | value =>
      cases he
      rw [slots_of_store hx.symm]
  | endArray hb | endObject hb =>
      cases he
      rw [slots_of_store hx.symm, slots, slots, hb]
      rfl

theorem slots_of_feed (ht : t.Nests n) {last : Option Value} (h : b.feed last t = (.ok r, b')) :
    b'.slots = b.slots.drop n := by
  induction ht generalizing b last with
  | finished =>
      cases h
      rfl
  | failed => cases h
  | next he ht ih =>
      rw [feed] at h
      split at h
      · next hs => rw [ih h, slots_of_step he hs]
      · cases h

/-- The builder is open, and its innermost container holds members in the given place. -/
structure Inside (slot : Slot) (b : Builder) : Prop where
  complete : b.complete = false
  head? : b.slots.head? = some slot

namespace Inside

theorem depth_pos (h : b.Inside slot) : 0 < b.depth := by
  have hs := h.head?
  rw [depth]
  rw [slots] at hs
  cases hb : b.frames with
  | nil =>
      rw [hb] at hs
      cases hs
  | cons f frames => exact Nat.succ_pos _

theorem push_member (h : b.Inside slot) (v : Value) :
    b.push (slot.event v) = b.feed none (v.trace slot) := by
  have hs := h.head?
  rw [slots] at hs
  have hmember : b.member slot v = b.feed none (v.trace slot) := by
    unfold member
    rcases hb : b.frames with _ | ⟨_ | _, frames⟩ <;> rw [hb] at hs <;> cases hs <;> rfl
  rw [← hmember]
  cases slot <;> rw [Slot.event, push, h.complete] <;> rfl

/-- A member that is told without a fault may be replaced by its events. -/
theorem run_member (h : b.Inside slot) (hf : (v.trace slot).fault? = none) (es : List Event) :
    b.run none (slot.event v :: es) = b.run none ((v.trace slot).events ++ es) := by
  rw [run_none_cons, h.push_member, run_of_feed (v.nests_trace slot) hf h.complete h.depth_pos]
  rfl

theorem of_feed (h : b.Inside slot) (ht : t.Nests 0) (hfeed : b.feed none t = (.ok r, b')) :
    r = none ∧ b'.Inside slot := by
  obtain ⟨hnone, hc⟩ := none_of_feed ht h.complete h.depth_pos hfeed
  have hslots := slots_of_feed ht hfeed
  rw [List.drop_zero] at hslots
  exact ⟨hnone, hc, hslots ▸ h.head?⟩

/-- Two ways to go on behind a fed trace that agree from any place like this one. -/
theorem run_congr (h : b.Inside slot) (ht : t.Nests 0) {es fs : List Event}
    (heq : ∀ b' : Builder, b'.Inside slot → b'.run none es = b'.run none fs) :
    (b.feed none t).run es = (b.feed none t).run fs := by
  cases hfeed : b.feed none t with
  | mk x b' =>
      cases x with
      | error f => rfl
      | ok r =>
          obtain ⟨rfl, h'⟩ := h.of_feed ht hfeed
          exact heq b' h'

end Inside

end Builder

/-! ### Nested containers left packed -/

namespace Container

open Builder

variable {b : Builder} {c : Container} {v : Value} {slot : Slot}

theorem told_packed (v : Value) (slot : Slot) :
    v.told packed slot = .next (slot.event v) .finished := by
  cases v <;> rfl

/-- A member that is no raw wrapper is told by a builder as its container tells it. -/
theorem told_entered (hv : v.isScalar = true ∨ ∃ n, v = .binary n ∧ n.isRaw = false)
    (slot : Slot) : v.told entered slot = v.trace slot := by
  rcases hv with hv | ⟨n, rfl, hr⟩
  · rw [Value.told_of_isScalar hv, Value.trace_of_isScalar hv]
  · rw [Value.trace, Value.unwrapped_of_not_raw hr]
    rfl

theorem child_cases_of_not_raw (hraw : ∀ n, c.Holds n → n.isRaw = false) {i : Nat}
    (h : c.child i = .ok v) : v.isScalar = true ∨ ∃ n, v = .binary n ∧ n.isRaw = false := by
  refine (child_cases h).imp_right ?_
  rintro ⟨n, rfl, -⟩
  exact ⟨n, rfl, hraw n ⟨i, h⟩⟩

section Walk

variable (hraw : ∀ n, c.Holds n → n.isRaw = false) {is : List Nat} (rest : List Event)
include hraw

/-- A run may take a member packed or event by event. -/
theorem run_told (h : b.Inside slot) {i : Nat} (hv : c.child i = .ok v) {t u : Trace}
    (hf : ((v.told entered slot).append u).fault? = none)
    (heq : ∀ b' : Builder, b'.Inside slot →
      b'.run none (t.events ++ rest) = b'.run none (u.events ++ rest)) :
    b.run none (((v.told packed slot).append t).events ++ rest) =
      b.run none (((v.told entered slot).append u).events ++ rest) := by
  have hv := child_cases_of_not_raw hraw hv
  rw [told_entered hv] at hf ⊢
  have hf := (Trace.fault?_append_eq_none hf).1
  have hn := v.nests_trace slot
  rw [told_packed, Trace.events_append_of_fault hf, List.append_assoc,
    run_of_feed hn hf h.complete h.depth_pos]
  show b.run none (slot.event v :: (t.events ++ rest)) = _
  rw [run_none_cons, h.push_member]
  exact h.run_congr hn heq

theorem run_elemsFrom (hf : (c.elemsFrom entered is).fault? = none) (h : b.Inside .elem) :
    b.run none ((c.elemsFrom packed is).events ++ rest) =
      b.run none ((c.elemsFrom entered is).events ++ rest) := by
  induction is generalizing b with
  | nil => rfl
  | cons i is ih =>
      rw [elemsFrom_cons] at hf ⊢
      rw [elemsFrom_cons]
      cases hv : c.child i with
      | error f => rfl
      | ok v =>
          rw [hv] at hf
          exact run_told hraw rest h hv hf fun b' h' =>
            ih (Trace.fault?_append_eq_none hf).2 h'

theorem run_pairsFrom (hf : (c.pairsFrom entered is).fault? = none) (h : b.Inside .value) :
    b.run none ((c.pairsFrom packed is).events ++ rest) =
      b.run none ((c.pairsFrom entered is).events ++ rest) := by
  induction is generalizing b with
  | nil => rfl
  | cons i is ih =>
      rw [pairsFrom_cons] at hf ⊢
      rw [pairsFrom_cons]
      split at hf
      · cases hf
      · next k _ =>
          have hkey : (Trace.next (.key k) .finished).Nests 0 := .next .key .finished
          have hrun := run_of_feed hkey rfl h.complete h.depth_pos
          show b.run none (.key k :: ((c.valueFrom packed i is).events ++ rest)) =
            b.run none (.key k :: ((c.valueFrom entered i is).events ++ rest))
          refine (hrun _).trans (Eq.trans ?_ (hrun _).symm)
          refine h.run_congr hkey fun b' h' => ?_
          have hf : (c.valueFrom entered i is).fault? = none := hf
          unfold valueFrom at hf ⊢
          cases hv : c.child (i + c.len) with
          | error f => rfl
          | ok v =>
              rw [hv] at hf
              exact run_told hraw rest h' hv hf fun b'' h'' =>
                ih (Trace.fault?_append_eq_none hf).2 h''
      · cases hf

/-- A run over the events of a container may leave packed what is nested in it. -/
theorem run_shallow (hf : c.trace.fault? = none) (hc : b.complete = false) :
    b.run none (c.shallowTrace.events ++ rest) = b.run none (c.trace.events ++ rest) := by
  have hshallow : c.shallowTrace = c.walkWith packed := rfl
  rw [hshallow]
  rw [trace_eq_walkWith] at hf ⊢
  cases ho : c.isObject with
  | false =>
      rw [walkWith_of_array ho] at hf ⊢
      rw [walkWith_of_array ho, Trace.events, Trace.events, List.cons_append, List.cons_append,
        run_none_cons, run_none_cons, push_simple hc rfl]
      have hmoves := step_moves (b := b) (e := .beginArray c.len c.isRaw) rfl
      generalize b.step _ = x at hmoves
      cases hmoves with
      | refused => rfl
      | beginArray => exact run_elemsFrom hraw rest hf ⟨hc, rfl⟩
  | true =>
      rw [walkWith_of_object ho] at hf ⊢
      rw [walkWith_of_object ho]
      cases hs : c.start c.len with
      | error f => rfl
      | ok _ =>
          rw [hs] at hf
          simp only
          rw [Trace.events, Trace.events, List.cons_append, List.cons_append, run_none_cons,
            run_none_cons, push_simple hc rfl]
          have hmoves := step_moves (b := b) (e := .beginObject c.len) rfl
          generalize b.step _ = x at hmoves
          cases hmoves with
          | refused => rfl
          | beginObject => exact run_pairsFrom hraw rest hf ⟨hc, rfl⟩

end Walk

/-! ### What is told without a fault is also shown without a fault -/

theorem fault?_elemsFrom_packed {is : List Nat} (h : (c.elemsFrom entered is).fault? = none) :
    (c.elemsFrom packed is).fault? = none := by
  induction is with
  | nil => rfl
  | cons i is ih =>
      rw [elemsFrom_cons] at h ⊢
      cases hv : c.child i with
      | error f => rw [hv] at h; cases h
      | ok v =>
          rw [hv] at h
          simp only
          rw [told_packed]
          exact ih (Trace.fault?_append_eq_none h).2

theorem fault?_pairsFrom_packed {is : List Nat} (h : (c.pairsFrom entered is).fault? = none) :
    (c.pairsFrom packed is).fault? = none := by
  induction is with
  | nil => rfl
  | cons i is ih =>
      rw [pairsFrom_cons] at h ⊢
      split at h
      · cases h
      · next k _ =>
          have h : (c.valueFrom entered i is).fault? = none := h
          show (c.valueFrom packed i is).fault? = none
          unfold valueFrom at h ⊢
          cases hv : c.child (i + c.len) with
          | error f => rw [hv] at h; cases h
          | ok v =>
              rw [hv] at h
              simp only
              rw [told_packed]
              exact ih (Trace.fault?_append_eq_none h).2
      · cases h

theorem fault?_shallowTrace (h : c.trace.fault? = none) : c.shallowTrace.fault? = none := by
  show (c.walkWith packed).fault? = none
  rw [trace_eq_walkWith] at h
  cases ho : c.isObject with
  | false =>
      rw [walkWith_of_array ho] at h ⊢
      exact fault?_elemsFrom_packed h
  | true =>
      rw [walkWith_of_object ho] at h ⊢
      cases hs : c.start c.len with
      | error f => rw [hs] at h; cases h
      | ok o =>
          rw [hs] at h
          exact fault?_pairsFrom_packed h

end Container

/-! ### Trees that may be told somewhere -/

namespace Builder

open Value

variable {o : Options} {level : Nat} {frames : List Frame} {v : Value} {c : Container}

theorem feed_append (b : Builder) (last : Option Value) (t u : Trace) :
    b.feed last (t.append u) =
      match b.feed last t with
      | (.ok r, b) => b.feed r u
      | (.error f, b) => (.error f, b) := by
  induction t generalizing b last with
  | finished => rfl
  | failed f => rfl
  | next e t ih =>
      rw [Trace.append, feed, feed]
      rcases b.step e with ⟨_ | r, b'⟩
      · rfl
      · exact ih b' r

/-- The outcome is the given one, unless the limit of depth was hit. -/
def Outcome.IsOrTooDeep (x y : Outcome) : Prop :=
  x = y ∨ ∃ b, x = (.error (.tooDeep maxDepth), b)

/-- Wherever the member is waited for, feeding it stores what it amounts to or hits the limit of
depth. -/
def StoredOrTooDeep (o : Options) (v : Value) : Prop :=
  ∀ {slot : Slot} {f : Frame} {frames : List Frame}, f.Waits slot →
    ((opened o (f :: frames)).feed none (v.trace slot)).IsOrTooDeep
      (store (opened o (f :: frames)) (v.settled o))

theorem feed_traceElems {elems acc : List Value} (ih : ∀ v ∈ elems, StoredOrTooDeep o v)
    (hn : acc.length + elems.length ≤ o.limit) (frames : List Frame) (u : Trace) :
    ((opened o (.array false acc :: frames)).feed none ((traceElems elems).append u)).IsOrTooDeep
      ((opened o (.array false ((elems.map (settled o)).reverse ++ acc) :: frames)).feed none
        u) := by
  induction elems generalizing acc with
  | nil => exact .inl rfl
  | cons v vs ih' =>
      obtain ⟨hv, hvs⟩ := List.forall_mem_cons.mp ih
      rw [List.length_cons] at hn
      have hnext : (v.settled o :: acc).length + vs.length ≤ o.limit := by
        rw [List.length_cons]
        omega
      have hrest := ih' hvs hnext
      rw [traceElems, Trace.append_assoc, feed_append]
      rcases hv (f := .array false acc) .elem with h | ⟨b, h⟩
      · rw [h, store_elem (by omega)]
        simpa using hrest
      · rw [h]
        exact .inr ⟨b, rfl⟩

theorem feed_tracePairs {pairs acc : List (Bytes × Value)}
    (ih : ∀ p ∈ pairs, StoredOrTooDeep o p.2) (hn : acc.length + pairs.length ≤ o.limit)
    (frames : List Frame) (u : Trace) :
    ((opened o (.object acc none :: frames)).feed none ((tracePairs pairs).append u)).IsOrTooDeep
      ((opened o (.object ((pairs.map fun p => (p.1, p.2.settled o)).reverse ++ acc) none ::
        frames)).feed none u) := by
  induction pairs generalizing acc with
  | nil => exact .inl rfl
  | cons p ps ih' =>
      obtain ⟨k, v⟩ := p
      obtain ⟨hv, hps⟩ := List.forall_mem_cons.mp ih
      rw [List.length_cons] at hn
      have hnext : ((k, v.settled o) :: acc).length + ps.length ≤ o.limit := by
        rw [List.length_cons]
        omega
      have hrest := ih' hps hnext
      have hkey (t : Trace) : (opened o (.object acc none :: frames)).feed none (.next (.key k) t) =
          (opened o (.object acc (some k) :: frames)).feed none t := rfl
      rw [tracePairs, Trace.append, Trace.append_assoc, hkey, feed_append]
      rcases hv (f := .object acc (some k)) .value with h | ⟨b, h⟩
      · rw [h, store_value (by omega)]
        simpa using hrest
      · rw [h]
        exact .inr ⟨b, rfl⟩

theorem feed_next_enter {token : Token} {f : Frame} {e : Event} {t : Trace} {y : Outcome}
    (hstep : (opened o frames).step e = (opened o frames).enter token f)
    (hw : frames.head?.bind Frame.closedTo = none)
    (h : ((opened o (f :: frames)).feed none t).IsOrTooDeep y) :
    ((opened o frames).feed none (.next e t)).IsOrTooDeep y := by
  rw [feed, hstep]
  by_cases hd : frames.length < maxDepth
  · rw [enter_opened hw hd]
    exact h
  · rw [enter_too_deep hw (Nat.not_lt.mp hd)]
    exact .inr ⟨_, rfl⟩

/-- A tree that may be told somewhere is stored anywhere, unless it nests too deep there. -/
theorem feed_buildable (h : v.Buildable o level) : StoredOrTooDeep o v := by
  induction h with
  | scalar hv =>
      intro slot f frames hw
      left
      rw [settled_of_isScalar o hv, ← push_scalar hw hv, trace_of_isScalar hv, feed_single,
        push_simple rfl (by rwa [Slot.isSimple_event])]
  | @array level elems hd hn he ih =>
      intro slot f frames hw
      have hn : ([] : List Value).length + elems.length ≤ o.limit := by
        rw [Options.limit_eq]
        simpa using hn
      have hend : (opened o (.array false (elems.map (settled o)).reverse :: f :: frames)).step
          .endArray = store (opened o (f :: frames)) (.array false (elems.map (settled o))) := by
        rw [← push_simple rfl rfl, push_endArray, List.reverse_reverse]
      have henter : (opened o (f :: frames)).step (.beginArray elems.length false) =
          (opened o (f :: frames)).enter .beginArray (.array false []) := rfl
      rw [trace_array, settled_array]
      refine feed_next_enter henter hw.closedTo ?_
      have hfed := feed_traceElems ih hn (f :: frames) (.next .endArray .finished)
      rw [feed_single, List.append_nil] at hfed
      rw [← hend]
      exact hfed
  | @object level pairs hd hn hu hp ih =>
      intro slot f frames hw
      have hn : ([] : List (Bytes × Value)).length + pairs.length ≤ o.limit := by
        rw [Options.limit_eq]
        simpa using hn
      have hkeys : o.uniqueKeys = true →
          ((pairs.map fun p => (p.1, p.2.settled o)).reverse.reverse.map Prod.fst).Nodup := by
        simpa [List.map_map, Function.comp_def] using hu
      have hend : (opened o (.object (pairs.map fun p => (p.1, p.2.settled o)).reverse none ::
          f :: frames)).step .endObject = store (opened o (f :: frames))
            (.object (staying o (pairs.map fun p => (p.1, p.2.settled o)))) := by
        rw [← push_simple rfl rfl, push_endObject hkeys, List.reverse_reverse]
      have henter : (opened o (f :: frames)).step (.beginObject pairs.length) =
          (opened o (f :: frames)).enter .beginObject (.object [] none) := rfl
      rw [trace_object, settled_object]
      refine feed_next_enter henter hw.closedTo ?_
      have hfed := feed_tracePairs ih hn (f :: frames) (.next .endObject .finished)
      rw [feed_single, List.append_nil] at hfed
      rw [← hend]
      exact hfed

/-! ### A packed container as a member -/

/-- An array or object that may be told, and a container that tells it. -/
structure Packs (v : Value) (c : Container) : Prop where
  buildable : v.Buildable {} 0
  settled : v.settled {} = v
  trace : c.trace = v.trace .elem
  isRaw : c.isRaw = false
  nestsNoRaw : c.NestsNoRaw

theorem Packs.tells (h : Packs v c) : c.trace.Tells (v.stream .elem) :=
  h.trace ▸ tells_stream h.buildable .elem

theorem packs_of_build {es : List Event} (h : build {} es = .ok v)
    (hr : ∀ elems, v ≠ .array true elems) (hc : v.pack = .ok c) : Packs v c := by
  obtain ⟨t, ht, hv⟩ := told_of_build h
  obtain ⟨hcanon, hroot⟩ := ht.settled
  rw [← hv] at hcanon hroot
  have htrace := trace_of_pack_canonical hcanon hc
  have htells := tells_rootStream hroot
  rw [← htrace] at htells
  have hraw := Container.nestsNoRaw_of_stream htells.fault? hroot htells.events
  cases hroot with
  | raw => exact absurd rfl (hr _)
  | container hs hb =>
      refine ⟨hb, settled_of_isCanonicalRoot hcanon, ?_, ?_, hraw⟩
      · cases hb with
        | scalar hv => cases hs.symm.trans hv
        | array => rw [htrace, rootTrace, trace_array]
        | object => exact htrace
      · cases hb with
        | scalar hv => cases hs.symm.trans hv
        | array =>
            rw [pack] at hc
            rw [Container.isRaw, (Container.packArray_spec hc).2.2.1]
            rfl
        | object =>
            rw [pack] at hc
            rw [Container.isRaw, (Container.packObject_spec hc).2.2.1]
            rfl

/-- The events of a member, inside an array, build the array exactly if the member may be told
inside one container. -/
theorem build_array_iff (h : Packs v c) (len : Nat) :
    build {} (.beginArray len false :: (c.trace.events ++ [.endArray])) = .ok (.array false [v]) ↔
      v.Buildable {} 1 := by
  rw [build_around_iff c.nests_trace h.tells len, h.settled, and_iff_left rfl]
  exact and_iff_right (by decide)

/-- Inside an array, all forms of the member come to the run behind feeding its trace. -/
theorem run_forms (h : Packs v c) {b : Builder} (hb : b.Inside .elem) (es : List Event) :
    ∀ member ∈ [c.trace.events, c.shallowTrace.events, [.elem (.binary c)], [.elem v]],
      b.run none (member ++ es) = (b.feed none c.trace).run es := by
  have hf := h.tells.fault?
  have hraw : ∀ n, c.Holds n → n.isRaw = false := fun n hn => h.nestsNoRaw n (.single hn)
  have hfull := run_of_feed c.nests_trace hf hb.complete hb.depth_pos es
  have hbinary : b.push (.elem (.binary c)) = b.feed none c.trace := by
    refine (hb.push_member (.binary c)).trans ?_
    rw [Value.trace, unwrapped_of_not_raw h.isRaw]
  have htree : b.push (.elem v) = b.feed none c.trace := h.trace ▸ hb.push_member v
  intro member hm
  simp only [List.mem_cons, List.not_mem_nil, or_false] at hm
  rcases hm with rfl | rfl | rfl | rfl
  · exact hfull
  · exact (Container.run_shallow hraw es hf hb.complete).trans hfull
  · rw [List.singleton_append, run_none_cons, hbinary]
    rfl
  · rw [List.singleton_append, run_none_cons, htree]
    rfl

theorem feed_cases (h : Packs v c) {x : Except Fault Value}
    (hx : x = ((opened {} [.array false []]).feed none c.trace).run [.endArray]) :
    x = .ok (.array false [v]) ∨ x = .error (.tooDeep maxDepth) := by
  rw [h.trace] at hx
  have hstored : ((opened {} [.array false []]).feed none (v.trace .elem)).IsOrTooDeep
      (store (opened {} [.array false []]) (v.settled {})) := feed_buildable h.buildable .elem
  rcases hstored with hs | ⟨b, hs⟩
  · left
    rw [h.settled, store_elem (by decide)] at hs
    rw [hx, hs]
    rfl
  · right
    rw [hx, hs]
    rfl

theorem Packs.runs (h : Packs v c) (shallow : Bool) :
    (Replay.before c shallow).Runs (c.account shallow).events (.ok ()) := by
  have hrun := c.runs_account shallow
  have hok : (c.account shallow).outcome = .ok () := by
    cases shallow with
    | true => rw [Container.account, if_pos rfl, Trace.outcome,
        Container.fault?_shallowTrace h.tells.fault?]
    | false => rw [Container.account, if_neg nofun, Trace.outcome, h.tells.fault?]
  rwa [hok] at hrun

/-- A container that was packed from a built value may be handed over inside an array event by
event, with nested containers left packed, as one packed member, or as the value itself: all four
build the array around the value, or all four nest too deep.  Its two tellings build the same
under all options, whatever follows. -/
theorem agree_on_member {es : List Event} (h : build {} es = .ok v)
    (hr : ∀ elems, v ≠ .array true elems) (hc : v.pack = .ok c) :
    ∃ full shallow r,
      (Replay.before c false).Runs full (.ok ()) ∧ (Replay.before c true).Runs shallow (.ok ()) ∧
      (r = .ok (.array false [v]) ∧ v.Buildable {} 1 ∨
        r = .error (.tooDeep maxDepth) ∧ ¬ v.Buildable {} 1) ∧
      (∀ len, ∀ member ∈ [full, shallow, [.elem (.binary c)], [.elem v]],
        build {} (.beginArray len false :: (member ++ [.endArray])) = r) ∧
      ∀ o rest, build o (shallow ++ rest) = build o (full ++ rest) := by
  have hp := packs_of_build h hr hc
  have hraw : ∀ n, c.Holds n → n.isRaw = false := fun n hn => hp.nestsNoRaw n (.single hn)
  have hforms (len : Nat) : ∀ member ∈ [c.trace.events, c.shallowTrace.events,
      [.elem (.binary c)], [.elem v]], build {} (.beginArray len false :: (member ++ [.endArray])) =
        ((opened {} [.array false []]).feed none c.trace).run [.endArray] :=
    run_forms hp ⟨rfl, rfl⟩ [.endArray]
  have hiff := build_array_iff hp 0
  rw [hforms 0 _ List.mem_cons_self] at hiff
  refine ⟨_, _, _, hp.runs false, hp.runs true, ?_, hforms, fun o rest => ?_⟩
  · rcases feed_cases hp rfl with hok | hdeep
    · exact .inl ⟨hok, hiff.mp hok⟩
    · refine .inr ⟨hdeep, fun hb => ?_⟩
      cases hdeep.symm.trans (hiff.mpr hb)
  · exact Container.run_shallow hraw rest hp.tells.fault? rfl

/-- An array that holds an object and an empty array. -/
theorem agree_on_member_nested :
    let v : Value := .array false [.object [([97], .null)], .array false []]
    ∃ c shallow, v.pack = .ok c ∧ (Replay.before c true).Runs shallow (.ok ()) ∧
      build {} (.beginArray 5 false :: (shallow ++ [.endArray])) = .ok (.array false [v]) ∧
      build {} [.beginArray 7 false, .elem (.binary c), .endArray] = .ok (.array false [v]) := by
  intro v
  have h : build {} [.beginArray 0 false, .elem (.object [([97], .null)]), .beginArray 0 false,
      .endArray, .endArray] = .ok v := by cbv
  let c : Container := ⟨⟨.array, 2, by decide, by decide⟩, [3489660941, 1342177287],
    [1, 0, 0, 32, 1, 0, 0, 128, 0, 0, 0, 64, 97, 0, 0, 0, 0, 0, 0, 64], rfl⟩
  have hc : v.pack = .ok c := by cbv
  obtain ⟨full, shallow, r, -, hshallow, -, hforms, -⟩ := agree_on_member h (by simp [v]) hc
  have hv : build {} [.beginArray 0 false, .elem v, .endArray] = .ok (.array false [v]) := by cbv
  obtain rfl : r = .ok (.array false [v]) := (hforms 0 [.elem v] (by simp)).symm.trans hv
  exact ⟨c, shallow, hc, hshallow, hforms 5 shallow (by simp),
    hforms 7 [.elem (.binary c)] (by simp)⟩

end Builder

end PackedTree
