import PackedTree.Proofs.ValueStream

/-! # Which streams build, and what they build

A builder keeps the open containers.  In one direction, the stream of a tree that may be told takes
a builder that waits for it to the one that has stored what the tree amounts to
(`pushes_stream`).  In the other, `Told o frames es` says that the events `es` have led to the
frames, each of which holds what the trees told so far amount to; a step keeps that, or it finishes
a tree that may be told, or it refuses (`step_leads`).

`build_eq_ok_iff` puts the two together: building succeeds exactly on the streams of trees that may
be told, followed by nothing or by `done`, and it yields what the tree amounts to. -/

namespace PackedTree

/-- A frame that waits for a member in the given slot, which may be a container. -/
inductive Frame.Waits : Slot → Frame → Prop
  | elem {elems : List Value} : Waits .elem (.array false elems)
  | value {pairs : List (Bytes × Value)} {k : Bytes} : Waits .value (.object pairs (some k))

theorem Frame.Waits.closedTo {slot : Slot} {f : Frame} (h : Waits slot f) : f.closedTo = none := by
  cases h <;> rfl

namespace Builder

def opened (o : Options) (frames : List Frame) : Builder := ⟨o, frames, false⟩

/-! ### Runs of events that finish nothing -/

/-- Pushing the events one by one leads from one builder to another, and none finishes a value. -/
inductive Pushes : Builder → List Event → Builder → Prop
  | nil {b : Builder} : Pushes b [] b
  | cons {b b' b'' : Builder} {e : Event} {es : List Event} (h : b.push e = (.ok none, b'))
      (ht : Pushes b' es b'') : Pushes b (e :: es) b''

variable {b b' b'' : Builder} {es fs : List Event}

theorem Pushes.append (h₁ : Pushes b es b') (h₂ : Pushes b' fs b'') : Pushes b (es ++ fs) b'' := by
  induction h₁ with
  | nil => exact h₂
  | cons h _ ih => exact .cons h (ih h₂)

theorem push_of_complete (h : b.complete = true) (e : Event) :
    b.push e = b.refuse e.token .complete :=
  if_pos h

theorem run_none_cons (b : Builder) (e : Event) (es : List Event) :
    b.run none (e :: es) =
      match b.push e with
      | (.ok r, b) => b.run r es
      | (.error f, _) => .error f := by
  show (match b.push e with
    | (.ok r, b) => b.run (r.or none) es
    | (.error f, _) => .error f) = _
  rcases b.push e with ⟨_ | r, b⟩
  · rfl
  · simp only [Option.or_none]

theorem run_some_cons {e : Event} (he : e ≠ .done) (b : Builder) (v : Value) (es : List Event) :
    b.run (some v) (e :: es) =
      match b.push e with
      | (.ok r, b) => b.run (r.or (some v)) es
      | (.error f, _) => .error f := by
  cases e with
  | done => exact absurd rfl he
  | _ => rfl

/-- A run goes on from where the events have led. -/
theorem Pushes.run_append (h : Pushes b es b') : b.run none (es ++ fs) = b'.run none fs := by
  induction h with
  | nil => rfl
  | cons h _ ih =>
      rw [List.cons_append, run_none_cons, h]
      exact ih

theorem run_complete_eq_ok_iff (h : b.complete = true) {v w : Value} :
    b.run (some v) es = .ok w ↔ w = v ∧ (es = [] ∨ es.head? = some .done) := by
  cases es with
  | nil => simp [run, eq_comm]
  | cons e es =>
      by_cases he : e = .done
      · subst he
        simp [run, eq_comm]
      · rw [run_some_cons he, push_of_complete h]
        simp [refuse, he]

/-! ### Announced lengths do not matter -/

theorem push_unhinted (b : Builder) (e : Event) : b.push e.unhinted = b.push e := by
  cases e <;> rfl

theorem run_unhinted (b : Builder) (r : Option Value) (es : List Event) :
    b.run r (es.map Event.unhinted) = b.run r es := by
  induction es generalizing b r with
  | nil => rfl
  | cons e es ih =>
      rw [List.map_cons]
      cases r with
      | none =>
          rw [run_none_cons, run_none_cons, push_unhinted]
          rcases b.push e with ⟨_ | r, b'⟩
          · rfl
          · exact ih b' r
      | some v =>
          by_cases hd : e = .done
          · subst hd
            rfl
          · have hd' : e.unhinted ≠ .done := by
              cases e with
              | done => exact absurd rfl hd
              | _ => nofun
            rw [run_some_cons hd, run_some_cons hd', push_unhinted]
            rcases b.push e with ⟨_ | r, b'⟩
            · rfl
            · exact ih b' (r.or (some v))

/-! ### Single events -/

theorem feed_single (b : Builder) (last : Option Value) (e : Event) :
    b.feed last (.next e .finished) = b.step e := by
  rw [feed]
  rcases b.step e with ⟨_ | _, _⟩ <;> rfl

theorem push_simple (hc : b.complete = false) {e : Event} (he : e.isSimple = true) :
    b.push e = b.step e := by
  obtain ⟨o, frames, complete⟩ := b
  cases hc
  cases e with
  | elem v =>
      rcases frames with _ | ⟨_ | _, below⟩
      · rfl
      · show feed _ none (v.trace .elem) = _
        rw [Value.trace_of_isScalar he, feed_single]
        rfl
      · rfl
  | value v =>
      rcases frames with _ | ⟨_ | _, below⟩
      · rfl
      · rfl
      · show feed _ none (v.trace .value) = _
        rw [Value.trace_of_isScalar he, feed_single]
        rfl
  | _ => rfl

/-- Whether a key repeats is settled when the object ends. -/
theorem finishPairs_eq_ok_iff {o : Options} {pairs r : List (Bytes × Value)} :
    finishPairs o pairs = .ok r ↔
      (o.uniqueKeys = true → (pairs.map Prod.fst).Nodup) ∧ r = Value.staying o pairs := by
  have hcount := Keyed.overwritten_eq_zero_iff (fun _ _ => Bytes.eq_of_keyCompare) pairs
  unfold finishPairs Value.staying
  rw [Value.keepsPair_eq, ← Keyed.canonical_eq_written, ← hcount]
  by_cases hu : o.uniqueKeys = true ∧ 0 < Keyed.overwritten Bytes.keyCompare pairs
  · rw [if_pos hu]
    have hne : ¬ (o.uniqueKeys = true → Keyed.overwritten Bytes.keyCompare pairs = 0) :=
      fun h => Nat.ne_of_gt hu.2 (h hu.1)
    simp [hne]
  · rw [if_neg hu]
    have hzero : o.uniqueKeys = true → Keyed.overwritten Bytes.keyCompare pairs = 0 :=
      fun h => Nat.eq_zero_of_not_pos fun hp => hu ⟨h, hp⟩
    constructor
    · rintro h
      exact ⟨hzero, (Except.ok.inj h).symm⟩
    · rintro ⟨-, rfl⟩
      rfl

theorem finishPairs_of_repeated {o : Options} {pairs : List (Bytes × Value)}
    (hu : o.uniqueKeys = true) (hr : ¬ (pairs.map Prod.fst).Nodup) :
    finishPairs o pairs = .error .duplicateKey := by
  refine if_pos ⟨hu, Nat.pos_of_ne_zero fun hzero => hr ?_⟩
  exact (Keyed.overwritten_eq_zero_iff (fun _ _ => Bytes.eq_of_keyCompare) pairs).mp hzero

section Steps

variable {o : Options} {frames : List Frame} {v : Value} {raw : Bool} {elems : List Value}
  {pairs : List (Bytes × Value)} {k : Bytes}

theorem store_elem (h : elems.length < o.limit) :
    store (opened o (.array raw elems :: frames)) v =
      (.ok none, opened o (.array raw (v :: elems) :: frames)) :=
  if_neg (Nat.not_le.mpr h)

theorem store_value (h : pairs.length < o.limit) :
    store (opened o (.object pairs (some k) :: frames)) v =
      (.ok none, opened o (.object ((k, v) :: pairs) none :: frames)) :=
  if_neg (Nat.not_le.mpr h)

theorem enter_opened (hw : frames.head?.bind Frame.closedTo = none)
    (hd : frames.length < maxDepth) (token : Token) (frame : Frame) :
    (opened o frames).enter token frame = (.ok none, opened o (frame :: frames)) := by
  have hframes : (opened o frames).frames = frames := rfl
  unfold enter
  rw [hframes, hw]
  exact if_neg (Nat.not_le.mpr hd)

theorem enter_too_deep (hw : frames.head?.bind Frame.closedTo = none)
    (hd : maxDepth ≤ frames.length) (token : Token) (frame : Frame) :
    (opened o frames).enter token frame = (.error (.tooDeep maxDepth), opened o frames) := by
  have hframes : (opened o frames).frames = frames := rfl
  unfold enter
  rw [hframes, hw]
  exact if_pos hd

theorem push_scalar {slot : Slot} {f : Frame} (hw : f.Waits slot) (hv : v.isScalar = true) :
    (opened o (f :: frames)).push (slot.event v) = store (opened o (f :: frames)) v := by
  rw [push_simple rfl (by rwa [Slot.isSimple_event])]
  cases hw <;> rfl

theorem push_endArray (elems : List Value) :
    (opened o (.array false elems :: frames)).push .endArray =
      store (opened o frames) (.array false elems.reverse) :=
  rfl

theorem push_endObject (hu : o.uniqueKeys = true → (pairs.reverse.map Prod.fst).Nodup) :
    (opened o (.object pairs none :: frames)).push .endObject =
      store (opened o frames) (.object (Value.staying o pairs.reverse)) := by
  have hf := finishPairs_eq_ok_iff.mpr ⟨hu, rfl⟩
  show (opened o (.object pairs none :: frames)).step .endObject = _
  simp only [step, opened, hf]

end Steps

/-! ### The stream of a tree that may be told -/

open Value

section Streams

variable {o : Options} {level : Nat} {frames : List Frame}

/-- A value whose stream every builder takes that waits for it inside fewer than `level` other
containers and has room for what it amounts to. -/
def TakenAt (o : Options) (level : Nat) (v : Value) : Prop :=
  ∀ {slot : Slot} {f : Frame} {frames : List Frame} {b : Builder}, f.Waits slot →
    frames.length < level → store (opened o (f :: frames)) (v.settled o) = (.ok none, b) →
    Pushes (opened o (f :: frames)) (v.stream slot) b

theorem pushes_streamElems {elems acc : List Value} (ih : ∀ v ∈ elems, TakenAt o level v)
    (hl : frames.length < level) (hn : acc.length + elems.length ≤ o.limit) :
    Pushes (opened o (.array false acc :: frames)) (streamElems elems)
      (opened o (.array false ((elems.map (settled o)).reverse ++ acc) :: frames)) := by
  induction elems generalizing acc with
  | nil => exact .nil
  | cons v vs ih' =>
      obtain ⟨hv, hvs⟩ := List.forall_mem_cons.mp ih
      rw [List.length_cons] at hn
      have hnext : (v.settled o :: acc).length + vs.length ≤ o.limit := by
        rw [List.length_cons]
        omega
      have h := (hv .elem hl (store_elem (by omega))).append (ih' hvs hnext)
      simpa [streamElems] using h

theorem pushes_streamPairs {pairs acc : List (Bytes × Value)}
    (ih : ∀ p ∈ pairs, TakenAt o level p.2) (hl : frames.length < level)
    (hn : acc.length + pairs.length ≤ o.limit) :
    Pushes (opened o (.object acc none :: frames)) (streamPairs pairs)
      (opened o (.object
        ((pairs.map fun p => (p.1, p.2.settled o)).reverse ++ acc) none :: frames)) := by
  induction pairs generalizing acc with
  | nil => exact .nil
  | cons p ps ih' =>
      obtain ⟨k, v⟩ := p
      obtain ⟨hv, hvs⟩ := List.forall_mem_cons.mp ih
      rw [List.length_cons] at hn
      have hnext : ((k, v.settled o) :: acc).length + ps.length ≤ o.limit := by
        rw [List.length_cons]
        omega
      have h := (hv .value hl (store_value (by omega))).append (ih' hvs hnext)
      have hkey : (opened o (.object acc none :: frames)).push (.key k) =
          (.ok none, opened o (.object acc (some k) :: frames)) := rfl
      simpa [streamPairs] using Pushes.cons hkey h

/-- The members of an array are taken one after the other, and its end hands it on. -/
theorem pushes_array {elems : List Value} (hd : frames.length < maxDepth)
    (hn : elems.length ≤ o.limit) (ih : ∀ v ∈ elems, TakenAt o (level + 1) v)
    (hl : frames.length ≤ level) (hw : frames.head?.bind Frame.closedTo = none) :
    ∃ b, Pushes (opened o frames) (.beginArray 0 false :: streamElems elems) b ∧
      b.push .endArray = store (opened o frames) ((Value.array false elems).settled o) := by
  have hn' : ([] : List Value).length + elems.length ≤ o.limit := by simpa using hn
  have h := pushes_streamElems ih (Nat.lt_succ_of_le hl) hn'
  refine ⟨_, .cons (enter_opened hw hd .beginArray _) h, ?_⟩
  rw [push_endArray, settled_array, List.append_nil, List.reverse_reverse]

/-- The pairs of an object are taken one after the other, and its end hands on those that stay. -/
theorem pushes_object {pairs : List (Bytes × Value)} (hd : frames.length < maxDepth)
    (hn : pairs.length ≤ o.limit) (hu : o.uniqueKeys = true → (pairs.map Prod.fst).Nodup)
    (ih : ∀ p ∈ pairs, TakenAt o (level + 1) p.2) (hl : frames.length ≤ level)
    (hw : frames.head?.bind Frame.closedTo = none) :
    ∃ b, Pushes (opened o frames) (.beginObject 0 :: streamPairs pairs) b ∧
      b.push .endObject = store (opened o frames) ((Value.object pairs).settled o) := by
  have hn' : ([] : List (Bytes × Value)).length + pairs.length ≤ o.limit := by simpa using hn
  have h := pushes_streamPairs ih (Nat.lt_succ_of_le hl) hn'
  refine ⟨_, .cons (enter_opened hw hd .beginObject _) h, ?_⟩
  rw [List.append_nil, push_endObject, settled_object, List.reverse_reverse]
  simpa [List.map_map, Function.comp_def] using hu

/-- The stream of a tree that may be told leads to where the tree is stored. -/
theorem pushes_stream {v : Value} (h : v.Buildable o level) : TakenAt o level v := by
  induction h with
  | scalar hv =>
      intro slot f frames b hw _ hs
      rw [settled_of_isScalar o hv] at hs
      rw [stream_of_isScalar hv]
      exact .cons ((push_scalar hw hv).trans hs) .nil
  | array hd hn he ih =>
      intro slot f frames b hw hl hs
      have hl : (f :: frames).length ≤ _ := hl
      have hw' : (f :: frames).head?.bind Frame.closedTo = none := hw.closedTo
      have hn := o.limit_eq ▸ hn
      obtain ⟨b', hp, hend⟩ := pushes_array (Nat.lt_of_le_of_lt hl hd) hn ih hl hw'
      rw [stream_array, ← List.cons_append]
      exact hp.append (.cons (hend.trans hs) .nil)
  | object hd hn hu hp ih =>
      intro slot f frames b hw hl hs
      have hl : (f :: frames).length ≤ _ := hl
      have hw' : (f :: frames).head?.bind Frame.closedTo = none := hw.closedTo
      have hn := o.limit_eq ▸ hn
      obtain ⟨b', hp', hend⟩ := pushes_object (Nat.lt_of_le_of_lt hl hd) hn hu ih hl hw'
      rw [stream_object, ← List.cons_append]
      exact hp'.append (.cons (hend.trans hs) .nil)

end Streams

/-- The last event of the stream of a whole tree that may be told finishes what it amounts to, and
none before it finishes anything. -/
theorem pushes_root {o : Options} {t : Value} (h : t.BuildableRoot o) :
    ∃ es e b b', t.stream .elem = es ++ [e] ∧ Pushes (opened o []) es b ∧
      b.push e = (.ok (some (t.settled o)), b') ∧ b'.complete = true := by
  cases h with
  | @raw v hv hn =>
      have hbegin : (opened o []).push (.beginArray 0 true) =
          (.ok none, opened o [.array true []]) := rfl
      have helem : (opened o [.array true []]).push (.elem v) =
          (.ok none, opened o [.array true [v]]) := by
        have hsimple : (Event.elem v).isSimple = true := hv
        rw [push_simple rfl hsimple]
        exact store_elem (o.limit_eq ▸ hn)
      have hend : (opened o [.array true [v]]).push .endArray =
          (.ok (some (.array true [v])), { opened o [] with complete := true }) := rfl
      refine ⟨_, _, _, { opened o [] with complete := true }, stream_array .., .cons hbegin ?_,
        hend.trans ?_, rfl⟩
      · simpa [streamElems, stream_of_isScalar hv, Slot.event] using Pushes.cons helem .nil
      · rw [settled_array, List.map_singleton, settled_of_isScalar o hv]
  | @container v hv h =>
      cases h with
      | scalar hs => rw [hs] at hv; cases hv
      | array hd hn he =>
          have hd : ([] : List Frame).length < maxDepth := hd
          obtain ⟨b, hp, hend⟩ := pushes_array hd (o.limit_eq ▸ hn)
            (fun v hm => pushes_stream (he v hm)) (Nat.le_refl 0) rfl
          exact ⟨_, _, b, _, stream_array .., hp, hend, rfl⟩
      | object hd hn hu hp =>
          have hd : ([] : List Frame).length < maxDepth := hd
          obtain ⟨b, hp', hend⟩ := pushes_object hd (o.limit_eq ▸ hn) hu
            (fun p hm => pushes_stream (hp p hm)) (Nat.le_refl 0) rfl
          exact ⟨_, _, b, _, stream_object .., hp', hend, rfl⟩

/-! ### What the open containers stand for -/

/-- The events have led to the frames: each frame holds what the members told so far amount to, and
the containers around them may stand where they stand. -/
inductive Told (o : Options) : List Frame → List Event → Prop
  | nothing : Told o [] []
  | array {frames : List Frame} {es : List Event} {raw : Bool} {ts : List Value}
      (h : Told o frames es) (hw : frames.head?.bind Frame.closedTo = none)
      (hd : frames.length < maxDepth) (hn : ts.length ≤ o.limit)
      (ht : ∀ t ∈ ts, t.Buildable o (frames.length + 1))
      (hr : raw = true → frames = [] ∧ ∀ t ∈ ts, t.isScalar = true) :
      Told o (.array raw (ts.map (settled o)).reverse :: frames)
        (es ++ .beginArray 0 raw :: streamElems ts)
  | object {frames : List Frame} {es : List Event} {ps : List (Bytes × Value)}
      (h : Told o frames es) (hw : frames.head?.bind Frame.closedTo = none)
      (hd : frames.length < maxDepth) (hn : ps.length ≤ o.limit)
      (hp : ∀ p ∈ ps, p.2.Buildable o (frames.length + 1)) :
      Told o (.object (ps.map fun p => (p.1, p.2.settled o)).reverse none :: frames)
        (es ++ .beginObject 0 :: streamPairs ps)
  | key {frames : List Frame} {es : List Event} {pairs : List (Bytes × Value)} {k : Bytes}
      (h : Told o (.object pairs none :: frames) es) :
      Told o (.object pairs (some k) :: frames) (es ++ [.key k])

/-- What a builder may lead to after the given events: it refuses, it goes on with open containers
that the events have led to, or it has finished the tree that they tell. -/
inductive Leads (o : Options) (es : List Event) : Outcome → Prop
  | refused {f : Fault} {b : Builder} : Leads o es (.error f, b)
  | goesOn {frames : List Frame} (h : Told o frames es) : Leads o es (.ok none, opened o frames)
  | finished {t : Value} {b : Builder} (hb : b.complete = true) (ht : t.BuildableRoot o)
      (hes : es = t.stream .elem) : Leads o es (.ok (some (t.settled o)), b)

/-- The innermost frame has a place for the tree in the given slot. -/
inductive Admits (t : Value) : Slot → List Frame → Prop
  | root (ht : t.isScalar = false) : Admits t .elem []
  | elem {raw : Bool} {elems : List Value} {frames : List Frame}
      (hr : raw = true → t.isScalar = true) : Admits t .elem (.array raw elems :: frames)
  | value {pairs : List (Bytes × Value)} {k : Bytes} {frames : List Frame} :
      Admits t .value (.object pairs (some k) :: frames)

section Steps

variable {o : Options} {frames : List Frame} {es : List Event}

theorem admits_of_closedTo {t : Value} (ht : t.isScalar = false)
    (hw : frames.head?.bind Frame.closedTo = none) : ∃ slot, Admits t slot frames := by
  rcases frames with _ | ⟨⟨_ | _, _⟩ | ⟨_, _ | k⟩, below⟩
  · exact ⟨_, .root ht⟩
  · exact ⟨_, .elem nofun⟩
  · cases hw
  · cases hw
  · exact ⟨_, .value⟩

theorem leads_store {t : Value} {slot : Slot} (h : Told o frames es) (ha : Admits t slot frames)
    (ht : t.Buildable o frames.length) :
    Leads o (es ++ t.stream slot) (store (opened o frames) (t.settled o)) := by
  cases ha with
  | root hs =>
      cases h
      exact .finished rfl (.container hs ht) rfl
  | @elem raw elems frames hr =>
      cases h with
      | @array _ es _ ts h hw hd hn hts hraw =>
          by_cases hmax : ts.length < o.limit
          · rw [store_elem (by simpa using hmax)]
            have hlen : (ts ++ [t]).length ≤ o.limit := by
              rw [List.length_append]
              exact hmax
            have hall : ∀ u ∈ ts ++ [t], u.Buildable o (frames.length + 1) :=
              List.forall_mem_append.mpr ⟨hts, List.forall_mem_singleton.mpr ht⟩
            have hraw' : raw = true → frames = [] ∧ ∀ u ∈ ts ++ [t], u.isScalar = true :=
              fun e => ⟨(hraw e).1,
                List.forall_mem_append.mpr ⟨(hraw e).2, List.forall_mem_singleton.mpr (hr e)⟩⟩
            refine .goesOn ?_
            simpa using Told.array h hw hd hlen hall hraw'
          · have hfull : o.limit ≤ ((ts.map (settled o)).reverse).length := by simpa using hmax
            have hstore : store (opened o (.array raw (ts.map (settled o)).reverse :: frames))
                (t.settled o) = _ := if_pos hfull
            rw [hstore]
            exact .refused
  | @value pairs k frames =>
      cases h with
      | key h =>
          cases h with
          | @object _ es ps h hw hd hn hps =>
              by_cases hmax : ps.length < o.limit
              · rw [store_value (by simpa using hmax)]
                have hlen : (ps ++ [(k, t)]).length ≤ o.limit := by
                  rw [List.length_append]
                  exact hmax
                have hall : ∀ q ∈ ps ++ [(k, t)], q.2.Buildable o (frames.length + 1) :=
                  List.forall_mem_append.mpr ⟨hps, List.forall_mem_singleton.mpr ht⟩
                refine .goesOn ?_
                simpa using Told.object h hw hd hlen hall
              · have hfull : o.limit ≤ (ps.map fun p => (p.1, p.2.settled o)).reverse.length := by
                  simpa using hmax
                have hstore : store (opened o (.object
                    (ps.map fun p => (p.1, p.2.settled o)).reverse (some k) :: frames))
                    (t.settled o) = _ := if_pos hfull
                rw [hstore]
                exact .refused

theorem leads_enter {token : Token} {frame : Frame} {e : Event}
    (h : frames.head?.bind Frame.closedTo = none → frames.length < maxDepth →
      Told o (frame :: frames) (es ++ [e])) :
    Leads o (es ++ [e]) ((opened o frames).enter token frame) := by
  cases hw : frames.head?.bind Frame.closedTo with
  | some reason =>
      have henter : (opened o frames).enter token frame =
          (.error (.unexpected token reason), opened o frames) := by
        have hframes : (opened o frames).frames = frames := rfl
        unfold enter
        rw [hframes, hw]
        rfl
      rw [henter]
      exact .refused
  | none =>
      by_cases hd : frames.length < maxDepth
      · rw [enter_opened hw hd]
        exact .goesOn (h hw hd)
      · rw [enter_too_deep hw (Nat.not_lt.mp hd)]
        exact .refused

theorem leads_endArray {raw : Bool} {elems : List Value}
    (h : Told o (.array raw elems :: frames) es) :
    Leads o (es ++ [.endArray]) ((opened o (.array raw elems :: frames)).step .endArray) := by
  by_cases hone : raw = true ∧ elems.length ≠ 1
  · have hstep : (opened o (.array raw elems :: frames)).step .endArray = _ := if_pos hone
    rw [hstep]
    exact .refused
  · have hstep : (opened o (.array raw elems :: frames)).step .endArray =
        store (opened o frames) (.array raw elems.reverse) := if_neg hone
    rw [hstep]
    cases h with
    | @array _ es _ ts h hw hd hn hts hraw =>
        rw [List.reverse_reverse, ← settled_array]
        cases raw with
        | true =>
            obtain ⟨rfl, hs⟩ := hraw rfl
            have hlen : ts.length = 1 := by simpa using hone
            obtain ⟨t, rfl⟩ := List.length_eq_one_iff.mp hlen
            cases h
            refine .finished rfl (.raw (hs t List.mem_cons_self) (o.limit_eq ▸ hn)) ?_
            simp
        | false =>
            obtain ⟨slot, ha⟩ := admits_of_closedTo (t := .array false ts) rfl hw
            simpa using leads_store h ha (.array hd (o.limit_eq ▸ hn) hts)

theorem leads_endObject {pairs : List (Bytes × Value)}
    (h : Told o (.object pairs none :: frames) es) :
    Leads o (es ++ [.endObject]) ((opened o (.object pairs none :: frames)).step .endObject) := by
  cases hf : finishPairs o pairs.reverse with
  | error f =>
      have hstep : (opened o (.object pairs none :: frames)).step .endObject =
          (.error f, opened o frames) := by
        simp only [step, opened, hf]
      rw [hstep]
      exact .refused
  | ok r =>
      have hstep : (opened o (.object pairs none :: frames)).step .endObject =
          store (opened o frames) (.object r) := by
        simp only [step, opened, hf]
      rw [hstep]
      obtain ⟨hu, rfl⟩ := finishPairs_eq_ok_iff.mp hf
      cases h with
      | @object _ es ps h hw hd hn hps =>
          have hu' : o.uniqueKeys = true → (ps.map Prod.fst).Nodup := by
            simpa [List.map_map, Function.comp_def] using hu
          obtain ⟨slot, ha⟩ := admits_of_closedTo (t := .object ps) rfl hw
          rw [List.reverse_reverse, ← settled_object]
          simpa using leads_store h ha (.object hd (o.limit_eq ▸ hn) hu' hps)

/-- A step with an event without containers keeps the frames true to the events, or it finishes the
tree that the events tell, or it refuses. -/
theorem step_leads (h : Told o frames es) {e : Event} (he : e.isSimple = true) :
    Leads o (es ++ [e.unhinted]) ((opened o frames).step e) := by
  cases e with
  | beginArray n raw =>
      by_cases hr : raw = true ∧ frames ≠ []
      · have hstep : (opened o frames).step (.beginArray n raw) = _ := if_pos hr
        rw [hstep]
        exact .refused
      · have hstep : (opened o frames).step (.beginArray n raw) =
            (opened o frames).enter .beginArray (.array raw []) := if_neg hr
        have hroot : raw = true → frames = [] ∧ ∀ t ∈ ([] : List Value), t.isScalar = true :=
          fun e => ⟨by simpa [e] using hr, nofun⟩
        have hall : ∀ t ∈ ([] : List Value), t.Buildable o (frames.length + 1) := nofun
        rw [hstep]
        exact leads_enter fun hw hd => .array h hw hd (Nat.zero_le _) hall hroot
  | beginObject n =>
      have hall : ∀ p ∈ ([] : List (Bytes × Value)), p.2.Buildable o (frames.length + 1) := nofun
      exact leads_enter fun hw hd => .object h hw hd (Nat.zero_le _) hall
  | elem v =>
      have hv : v.isScalar = true := he
      rcases frames with _ | ⟨⟨raw, elems⟩ | ⟨_, _⟩, below⟩
      · exact .refused
      · by_cases hr : raw = true ∧ elems ≠ []
        · have hstep : (opened o (.array raw elems :: below)).step (.elem v) = _ := if_pos hr
          rw [hstep]
          exact .refused
        · have hstep : (opened o (.array raw elems :: below)).step (.elem v) =
              store (opened o (.array raw elems :: below)) (v.settled o) := by
            rw [settled_of_isScalar o hv]
            exact if_neg hr
          have hlead := leads_store h (.elem fun _ => hv) (.scalar hv)
          rw [stream_of_isScalar hv] at hlead
          rw [hstep]
          exact hlead
      · exact .refused
  | key k =>
      rcases frames with _ | ⟨⟨_, _⟩ | ⟨pairs, _ | l⟩, below⟩
      · exact .refused
      · exact .refused
      · exact .goesOn (.key h)
      · exact .refused
  | value v =>
      have hv : v.isScalar = true := he
      rcases frames with _ | ⟨⟨_, _⟩ | ⟨pairs, _ | k⟩, below⟩
      · exact .refused
      · exact .refused
      · exact .refused
      · have hlead := leads_store h .value (.scalar hv)
        rw [stream_of_isScalar hv, settled_of_isScalar o hv] at hlead
        exact hlead
  | endArray =>
      rcases frames with _ | ⟨⟨raw, elems⟩ | ⟨_, _⟩, below⟩
      · exact .refused
      · exact leads_endArray h
      · exact .refused
  | endObject =>
      rcases frames with _ | ⟨⟨_, _⟩ | ⟨pairs, _ | k⟩, below⟩
      · exact .refused
      · exact .refused
      · exact leads_endObject h
      · exact .refused
  | done => exact .refused

/-- A run that succeeds has told a tree that may be told, and yields what it amounts to. -/
theorem told_of_run {rest : List Event} {v : Value} (h : Told o frames es)
    (hp : ∀ e ∈ rest, e.isSimple = true) (hr : (opened o frames).run none rest = .ok v) :
    ∃ (t : Value) (s tail : List Event), rest = s ++ tail ∧ (tail = [] ∨ tail.head? = some .done) ∧
      es ++ s.map Event.unhinted = t.stream .elem ∧ t.BuildableRoot o ∧ v = t.settled o := by
  induction rest generalizing frames es with
  | nil => cases hr
  | cons e rest ih =>
      obtain ⟨he, hp⟩ := List.forall_mem_cons.mp hp
      rw [run_none_cons, push_simple rfl he] at hr
      cases hs : (opened o frames).step e with
      | mk r b =>
          have hlead := step_leads h he
          rw [hs] at hr hlead
          cases hlead with
          | refused => cases hr
          | goesOn h' =>
              obtain ⟨t, s, tail, rfl, htail, hs, ht⟩ := ih h' hp hr
              refine ⟨t, e :: s, tail, rfl, htail, ?_, ht⟩
              simpa using hs
          | finished hb ht hes =>
              obtain ⟨rfl, htail⟩ := (run_complete_eq_ok_iff hb).mp hr
              exact ⟨_, [e], rest, rfl, htail, hes, ht, rfl⟩

end Steps

/-- The stream of a tree that may be told builds what the tree amounts to, whatever lengths it
announces and whatever follows a `done` behind it. -/
theorem build_of_stream {o : Options} {t : Value} {s rest : List Event} (ht : t.BuildableRoot o)
    (hs : s.map Event.unhinted = t.stream .elem) (hrest : rest = [] ∨ rest.head? = some .done) :
    build o (s ++ rest) = .ok (t.settled o) := by
  obtain ⟨es, e, b, b', hstream, hpush, hlast, hb⟩ := pushes_root ht
  have hrest' : rest.map Event.unhinted = [] ∨ (rest.map Event.unhinted).head? = some .done := by
    rcases hrest with rfl | hdone
    · exact .inl rfl
    · right
      rw [List.head?_map, hdone]
      rfl
  show (opened o []).run none (s ++ rest) = _
  rw [← run_unhinted, List.map_append, hs, hstream, List.append_assoc, hpush.run_append,
    List.singleton_append, run_none_cons, hlast]
  exact (run_complete_eq_ok_iff hb).mpr ⟨rfl, hrest'⟩

/-- Building from events without containers succeeds exactly if they are the stream of a tree that
may be told, with any announced lengths, followed by nothing or by `done` and anything; and it
yields what that tree amounts to. -/
theorem build_eq_ok_iff {o : Options} {events : List Event}
    (hp : ∀ e ∈ events, e.isSimple = true) (v : Value) :
    build o events = .ok v ↔
      ∃ (t : Value) (s rest : List Event), events = s ++ rest ∧
        (rest = [] ∨ rest.head? = some .done) ∧ s.map Event.unhinted = t.stream .elem ∧
        t.BuildableRoot o ∧ v = t.settled o := by
  constructor
  · intro h
    obtain ⟨t, s, rest, hs⟩ := told_of_run .nothing hp h
    exact ⟨t, s, rest, hs⟩
  · rintro ⟨t, s, rest, rfl, hrest, hs, ht, rfl⟩
    exact build_of_stream ht hs hrest

/-- Of a repeated key the null value written last is the one that is dropped, and neither a wrong
length nor what follows `done` matters. -/
theorem build_repeated_null_key :
    (∀ e ∈ [Event.beginObject 9, .key [98], .value (.bool true), .key [98], .value .null,
        .endObject, .done, .endObject], e.isSimple = true) ∧
      build { skipNulls := true } [.beginObject 9, .key [98], .value (.bool true), .key [98],
        .value .null, .endObject, .done, .endObject] = .ok (.object []) := by
  have hp : ∀ e ∈ [Event.beginObject 9, .key [98], .value (.bool true), .key [98], .value .null,
      .endObject, .done, .endObject], e.isSimple = true := by decide
  have ht :
      (Value.object [([98], .bool true), ([98], .null)]).Buildable { skipNulls := true } 0 := by
    refine .object (by decide) (by decide) nofun ?_
    rintro p (_ | ⟨_, _ | ⟨_, ⟨⟩⟩⟩)
    · exact .scalar rfl
    · exact .scalar rfl
  refine ⟨hp, (build_eq_ok_iff hp _).mpr ⟨_, [.beginObject 9, .key [98], .value (.bool true),
    .key [98], .value .null, .endObject], [.done, .endObject], rfl, .inr rfl, ?_,
    .container rfl ht, ?_⟩⟩
  · rfl
  · rfl

end Builder

end PackedTree
