import PackedTree.Proofs.BuilderFeeding

/-! # What a builder keeps, whatever is pushed

A caller may push any event at any time and go on after a refusal, and a refused event can leave its
traces: containers that it opened stay open, an object with a repeated key is gone, a key without
room for its pair is used up.  `Builder.Sound` says what holds nevertheless: how deep the open
containers nest, what stands where in them and how many members they have, and that every member is
finished (`Value.Finished`).

The invariant that carries the induction is `Builder.Stack`.  Each step keeps it
(`step_upholds`), hence also each push (`push_upholds`).  `sound_after` is the result for whole
runs: the builder is sound after any events, a value that a push finishes is canonical, and every
push behind that one is refused. -/

namespace PackedTree

namespace Value

variable {o : Options} {v : Value}

/-- A member that a builder has finished: no part of it is packed or raw, the keys of its objects
ascend strictly, and they have no null values if those are dropped. -/
inductive Finished (o : Options) : Value → Prop
  | scalar {v : Value} (hv : v.isScalar = true) : Finished o v
  | array {elems : List Value} (he : ∀ v ∈ elems, Finished o v) : Finished o (.array false elems)
  | object {pairs : List (Bytes × Value)} (ha : Keyed.Ascending Bytes.keyCompare pairs)
      (hn : o.skipNulls = true → ∀ p ∈ pairs, p.2 ≠ .null) (hp : ∀ p ∈ pairs, Finished o p.2) :
      Finished o (.object pairs)

/-- A whole value that a builder has finished: a scalar in its wrapper, or an array or object. -/
inductive FinishedRoot (o : Options) : Value → Prop
  | raw {v : Value} (hv : v.isScalar = true) : FinishedRoot o (.array true [v])
  | container {v : Value} (hv : v.isScalar = false) (h : v.Finished o) : FinishedRoot o v

theorem Finished.isCanonical (h : v.Finished o) : v.IsCanonical := by
  induction h with
  | scalar hv => exact .scalar hv
  | array he ih => exact .array ih
  | object ha hn hp ih => exact .object ha ih

theorem FinishedRoot.isCanonicalRoot (h : v.FinishedRoot o) : v.IsCanonicalRoot := by
  cases h with
  | raw hv => exact ⟨_, rfl, hv⟩
  | container hv h => exact h.isCanonical.root hv

theorem Finished.staying {pairs : List (Bytes × Value)} (h : ∀ p ∈ pairs, p.2.Finished o) :
    (Value.object (staying o pairs)).Finished o := by
  refine .object (ascending_staying pairs) (fun hs p hm => ?_) fun p hm =>
    h p (mem_of_mem_staying hm)
  unfold Value.staying at hm
  rw [if_pos hs] at hm
  exact of_decide_eq_true (List.mem_filter.mp hm).2

end Value

def Frame.members : Frame → List Value
  | .array _ elems => elems
  | .object pairs _ => pairs.map Prod.snd

theorem Frame.array_ne_raw (elems elems' : List Value) :
    Frame.array false elems ≠ .array true elems' := by
  simp

theorem Frame.object_ne_raw (pairs : List (Bytes × Value)) (key : Option Bytes)
    (elems : List Value) : Frame.object pairs key ≠ .array true elems := by
  simp

namespace Builder

variable {o : Options} {b : Builder} {frames : List Frame} {f : Frame} {v : Value} {e : Event}

/-- The builder after the given events, whatever became of each of them. -/
def after (b : Builder) (es : List Event) : Builder := es.foldl (fun b e => (b.push e).2) b

/-- What holds of a builder with the given options at any time. -/
structure Sound (o : Options) (b : Builder) : Prop where
  options : b.options = o
  /-- Not too many containers are open. -/
  depth_le : b.depth ≤ maxDepth
  /-- A raw wrapper is the only open container and holds at most one value, a scalar. -/
  raw_alone : ∀ elems, .array true elems ∈ b.frames →
    b.frames = [.array true elems] ∧ (elems = [] ∨ ∃ v, elems = [v] ∧ v.isScalar = true)
  /-- Every object around another open container has a key that lacks its value. -/
  key_pending : ∀ pairs, .object pairs none ∉ b.frames.tail
  /-- No open container has more members than it may have. -/
  length_le : ∀ f ∈ b.frames, f.members.length ≤ min o.maxChildren maxChildren
  /-- Every member is finished. -/
  finished : ∀ f ∈ b.frames, ∀ v ∈ f.members, v.Finished o

/-! ### The open containers -/

/-- Open containers as they can come about: a raw wrapper alone, or containers inside others that
have a place for them. -/
inductive Stack (o : Options) : List Frame → Prop
  | nil : Stack o []
  | raw {elems : List Value} (hn : elems.length ≤ o.limit)
      (he : elems = [] ∨ ∃ v, elems = [v] ∧ v.isScalar = true) : Stack o [.array true elems]
  | cons {f : Frame} {frames : List Frame} (h : Stack o frames)
      (hw : frames.head?.bind Frame.closedTo = none) (hr : ∀ elems, f ≠ .array true elems)
      (hn : f.members.length ≤ o.limit) (hm : ∀ v ∈ f.members, v.Finished o) :
      Stack o (f :: frames)

namespace Stack

theorem raw_alone (h : Stack o frames) {elems : List Value} (hm : .array true elems ∈ frames) :
    frames = [.array true elems] ∧ (elems = [] ∨ ∃ v, elems = [v] ∧ v.isScalar = true) := by
  induction h with
  | nil => cases hm
  | raw hn he =>
      cases List.mem_singleton.mp hm
      exact ⟨rfl, he⟩
  | cons h hw hr hn hf ih =>
      rcases List.mem_cons.mp hm with heq | hm
      · exact absurd heq.symm (hr elems)
      · obtain ⟨rfl, -⟩ := ih hm
        cases hw

theorem key_pending (h : Stack o frames) (pairs : List (Bytes × Value)) :
    .object pairs none ∉ frames.tail := by
  induction h with
  | nil | raw => exact List.not_mem_nil
  | @cons f frames h hw hr hn hm ih =>
      rw [List.tail_cons]
      cases frames with
      | nil => exact List.not_mem_nil
      | cons g frames =>
          intro hmem
          rcases List.mem_cons.mp hmem with heq | hmem
          · subst heq
            cases hw
          · exact ih hmem

theorem members (h : Stack o frames) (hf : f ∈ frames) :
    f.members.length ≤ o.limit ∧ ∀ v ∈ f.members, v.Finished o := by
  induction h with
  | nil => cases hf
  | @raw elems hn he =>
      cases List.mem_singleton.mp hf
      refine ⟨hn, ?_⟩
      rcases he with rfl | ⟨v, rfl, hv⟩
      · exact List.forall_mem_nil _
      · exact List.forall_mem_singleton.mpr (.scalar hv)
  | cons h hw hr hn hm ih =>
      rcases List.mem_cons.mp hf with rfl | hf
      · exact ⟨hn, hm⟩
      · exact ih hf

theorem tail (h : Stack o (f :: frames)) : Stack o frames := by
  cases h with
  | raw => exact .nil
  | cons h => exact h

/-- A container that is no raw wrapper may be exchanged for another such one. -/
theorem replace (h : Stack o (f :: frames)) (hf : ∀ elems, f ≠ .array true elems) {g : Frame}
    (hr : ∀ elems, g ≠ .array true elems) (hn : g.members.length ≤ o.limit)
    (hm : ∀ v ∈ g.members, v.Finished o) : Stack o (g :: frames) := by
  cases h with
  | raw => exact absurd rfl (hf _)
  | cons h hw => exact .cons h hw hr hn hm

end Stack

/-! ### What a step keeps -/

/-- The builder has the given options, and its open containers are as they can be. -/
structure Keeps (o : Options) (b : Builder) : Prop where
  options : b.options = o
  depth_le : b.depth ≤ maxDepth
  stack : Stack o b.frames

theorem Keeps.sound (h : b.Keeps o) : b.Sound o where
  options := h.options
  depth_le := h.depth_le
  raw_alone _ hm := h.stack.raw_alone hm
  key_pending := h.stack.key_pending
  length_le _ hf := o.limit_eq ▸ (h.stack.members hf).1
  finished _ hf := (h.stack.members hf).2

theorem Keeps.pop (h : b.Keeps o) (hb : b.frames = f :: frames) :
    ({ b with frames := frames } : Builder).Keeps o := by
  have hd := h.depth_le
  rw [depth, hb, List.length_cons] at hd
  exact ⟨h.options, Nat.le_of_succ_le hd, (hb ▸ h.stack).tail⟩

theorem Keeps.exchange (h : b.Keeps o) (hb : b.frames = f :: frames) {g : Frame}
    (hs : Stack o (g :: frames)) : ({ b with frames := g :: frames } : Builder).Keeps o := by
  have hd := h.depth_le
  rw [depth, hb] at hd
  exact ⟨h.options, hd, hs⟩

theorem Keeps.enter (h : b.Keeps o) (hw : b.frames.head?.bind Frame.closedTo = none)
    (hlt : b.depth < maxDepth) (hne : ∀ elems, f ≠ .array true elems) (hm : f.members = []) :
    ({ b with frames := f :: b.frames } : Builder).Keeps o := by
  refine ⟨h.options, hlt, .cons h.stack hw hne ?_ ?_⟩
  · rw [hm]
    exact Nat.zero_le _
  · rw [hm]
    exact List.forall_mem_nil _

/-- The outcome keeps what the builder had, and a value that it finishes is a finished one, after
which the builder takes no more. -/
structure Outcome.Upholds (o : Options) (x : Outcome) : Prop where
  keeps : x.2.Keeps o
  value : ∀ v, x.1 = .ok (some v) → v.FinishedRoot o ∧ x.2.complete = true

theorem upholds_error (h : b.Keeps o) (f : Fault) : Outcome.Upholds o (.error f, b) := by
  refine ⟨h, ?_⟩
  rintro v ⟨⟩

theorem upholds_none (h : b.Keeps o) : Outcome.Upholds o (.ok none, b) := by
  refine ⟨h, ?_⟩
  rintro v ⟨⟩

theorem store_upholds (h : b.Keeps o) (hb : b.frames = f :: frames) (hv : v.Finished o)
    (hr : ∀ elems, f = .array true elems → elems = [] ∧ v.isScalar = true) :
    (b.store v).Upholds o := by
  have hs : Stack o (f :: frames) := hb ▸ h.stack
  have hmem := hs.members List.mem_cons_self
  have hplaces := b.store_places v
  generalize b.store v = x at hplaces ⊢
  cases hplaces with
  | finished hnil => cases hb.symm.trans hnil
  | fullArray => exact upholds_error h _
  | @elem raw elems _ hb' hn =>
      obtain ⟨rfl, rfl⟩ := List.cons.inj (hb.symm.trans hb')
      rw [h.options] at hn
      have hn : (v :: elems).length ≤ o.limit := hn
      refine upholds_none (h.exchange hb ?_)
      cases raw with
      | true =>
          obtain ⟨rfl, hv⟩ := hr elems rfl
          cases hs with
          | raw => exact .raw hn (.inr ⟨v, rfl, hv⟩)
          | cons _ _ hr => exact absurd rfl (hr [])
      | false =>
          have hall := List.forall_mem_cons.mpr ⟨hv, hmem.2⟩
          exact hs.replace (Frame.array_ne_raw _) (Frame.array_ne_raw _) hn hall
  | @fullObject pairs key _ _ hb' =>
      obtain ⟨rfl, rfl⟩ := List.cons.inj (hb.symm.trans hb')
      refine upholds_error (h.exchange hb ?_) _
      exact hs.replace (Frame.object_ne_raw pairs key) (Frame.object_ne_raw _ _) hmem.1 hmem.2
  | @value pairs key _ hb' hn =>
      obtain ⟨rfl, rfl⟩ := List.cons.inj (hb.symm.trans hb')
      rw [h.options] at hn
      have hn : ((key.getD [], v) :: pairs).length ≤ o.limit := hn
      have hne := Frame.object_ne_raw pairs key
      refine upholds_none (h.exchange hb (hs.replace hne (Frame.object_ne_raw _ _) ?_ ?_))
      · rwa [Frame.members, List.length_map]
      · exact List.forall_mem_cons.mpr ⟨hv, hmem.2⟩

/-- A container that ends is handed to the one around it, or it is the value. -/
theorem store_ended_upholds (h : b.Keeps o) (hb : b.frames = f :: frames)
    (hw : frames.head?.bind Frame.closedTo = none) (hs : v.isScalar = false) (hv : v.Finished o) :
    (store { b with frames := frames } v).Upholds o := by
  have hkeeps := h.pop hb
  cases frames with
  | nil =>
      refine ⟨⟨h.options, Nat.zero_le _, .nil⟩, ?_⟩
      intro w hw
      cases hw
      exact ⟨.container hs hv, rfl⟩
  | cons g frames =>
      refine store_upholds hkeeps rfl hv fun elems hg => ?_
      subst hg
      cases hw

/-- An array ends as an array inside another container or as the value, a raw wrapper with its
scalar only as the value. -/
theorem endArray_upholds {raw : Bool} {elems : List Value} (h : b.Keeps o)
    (hb : b.frames = .array raw elems :: frames) (hr : raw = true → elems.length = 1) :
    (store { b with frames := frames } (.array raw elems.reverse)).Upholds o := by
  have hs : Stack o (.array raw elems :: frames) := hb ▸ h.stack
  cases hs with
  | raw hn he =>
      rcases he with rfl | ⟨v, rfl, hv⟩
      · cases hr rfl
      · refine ⟨⟨h.options, Nat.zero_le _, .nil⟩, fun w hw => ?_⟩
        cases hw
        exact ⟨.raw hv, rfl⟩
  | cons hs hw hraw hn hm =>
      cases raw with
      | true => exact absurd rfl (hraw elems)
      | false =>
          refine store_ended_upholds h hb hw rfl (.array fun v hv => ?_)
          exact hm v (List.mem_reverse.mp hv)

theorem endObject_upholds {pairs : List (Bytes × Value)} (h : b.Keeps o)
    (hb : b.frames = .object pairs none :: frames) :
    (store { b with frames := frames }
      (.object (Value.staying b.options pairs.reverse))).Upholds o := by
  have hs : Stack o (.object pairs none :: frames) := hb ▸ h.stack
  cases hs with
  | cons hs hw hraw hn hm =>
      refine store_ended_upholds h hb hw rfl ?_
      rw [h.options]
      refine Value.Finished.staying fun p hp => ?_
      exact hm p.2 (List.mem_map_of_mem (List.mem_reverse.mp hp))

theorem step_upholds (h : b.Keeps o) (he : e.isSimple = true) : (b.step e).Upholds o := by
  have hmoves := step_moves (b := b) he
  generalize b.step e = x at hmoves ⊢
  cases hmoves with
  | refused => exact upholds_error h _
  | @beginArray len raw hr hw hlt =>
      apply upholds_none
      cases raw with
      | true =>
          have hempty := hr rfl
          refine ⟨h.options, hlt, ?_⟩
          rw [hempty]
          exact .raw (Nat.zero_le _) (.inl rfl)
      | false => exact h.enter hw hlt (Frame.array_ne_raw []) rfl
  | beginObject hw hlt => exact upholds_none (h.enter hw hlt (Frame.object_ne_raw [] none) rfl)
  | @key pairs frames k hb =>
      have hs : Stack o (.object pairs none :: frames) := hb ▸ h.stack
      have hmem := hs.members List.mem_cons_self
      have hne := Frame.object_ne_raw pairs none
      exact upholds_none (h.exchange hb
        (hs.replace hne (Frame.object_ne_raw pairs (some k)) hmem.1 hmem.2))
  | elem hb hv hr =>
      refine store_upholds h hb (.scalar hv) fun elems hf => ?_
      cases hf
      exact ⟨hr rfl, hv⟩
  | value hb hv =>
      refine store_upholds h hb (.scalar hv) fun elems hf => ?_
      exact absurd hf (Frame.object_ne_raw _ _ elems)
  | endArray hb hr => exact endArray_upholds h hb hr
  | endObject hb => exact endObject_upholds h hb
  | repeatedKey hb => exact upholds_error (h.pop hb) _

/-! ### What a push keeps -/

/-- A trace without containers is fed step by step, and a refusal ends it. -/
theorem feed_keeps {t : Trace} (h : b.Keeps o) (ht : ∀ e ∈ t.events, e.isSimple = true)
    (last : Option Value) : (b.feed last t).2.Keeps o := by
  induction t generalizing b last with
  | finished => exact h
  | failed f => exact h
  | next e t ih =>
      obtain ⟨he, ht⟩ := List.forall_mem_cons.mp ht
      have hstep := (step_upholds h he).keeps
      rw [feed]
      cases hs : b.step e with
      | mk x b' =>
          rw [hs] at hstep
          cases x with
          | error f => exact hstep
          | ok r => exact ih hstep ht r

theorem feed_upholds (h : b.Keeps o) (hc : b.complete = false) (hb : b.frames = f :: frames)
    (v : Value) (slot : Slot) : (b.feed none (v.trace slot)).Upholds o := by
  have hn := v.nests_trace slot
  have hpos : 0 < b.depth := by
    rw [depth, hb]
    exact Nat.succ_pos _
  refine ⟨feed_keeps h hn.isSimple none, fun w hw => ?_⟩
  have hnone := ((feed_continues hn hc (Nat.add_zero _).symm hpos).2 _ hw).1
  cases hnone

theorem member_upholds (h : b.Keeps o) (hc : b.complete = false) (slot : Slot) (v : Value) :
    (b.member slot v).Upholds o := by
  unfold member
  split
  · next hb => exact feed_upholds h hc hb v .elem
  · next hb => exact feed_upholds h hc hb v .value
  · exact upholds_error h _
  · exact upholds_error h _

/-- A push keeps what the builder had, refused or not, whatever the event carries. -/
theorem push_upholds (h : b.Keeps o) (e : Event) : (b.push e).Upholds o := by
  unfold push
  split
  · exact upholds_error h _
  · next hc =>
      have hc : b.complete = false := by simpa using hc
      cases e with
      | elem v => exact member_upholds h hc .elem v
      | value v => exact member_upholds h hc .value v
      | _ => exact step_upholds h rfl

/-! ### Whole runs -/

theorem after_append (b : Builder) (es fs : List Event) :
    b.after (es ++ fs) = (b.after es).after fs :=
  List.foldl_append

theorem keeps_after (h : b.Keeps o) (es : List Event) : (b.after es).Keeps o := by
  induction es generalizing b with
  | nil => exact h
  | cons e es ih => exact ih (push_upholds h e).keeps

theorem after_of_complete (h : b.complete = true) (es : List Event) : b.after es = b := by
  induction es with
  | nil => rfl
  | cons e es ih =>
      have hpush : (b.push e).2 = b := by rw [push_of_complete h]; rfl
      rw [after, List.foldl_cons, hpush]
      exact ih

/-- After any events, refused or not, a builder is sound.  A value that the next push finishes is
canonical, and then every later push is refused. -/
theorem sound_after (o : Options) (es : List Event) :
    ((empty o).after es).Sound o ∧
      ∀ e v, (((empty o).after es).push e).1 = .ok (some v) →
        v.IsCanonicalRoot ∧ v.FinishedRoot o ∧
          ∀ fs d, (((empty o).after (es ++ e :: fs)).push d).1 =
            .error (.unexpected d.token .complete) := by
  have hempty : (empty o).Keeps o := ⟨rfl, Nat.zero_le _, .nil⟩
  have hkeeps := keeps_after hempty es
  refine ⟨hkeeps.sound, fun e v hv => ?_⟩
  obtain ⟨hroot, hc⟩ := (push_upholds hkeeps e).value v hv
  refine ⟨hroot.isCanonicalRoot, hroot, fun fs d => ?_⟩
  have hafter : (empty o).after (es ++ e :: fs) = (((empty o).after es).push e).2 := by
    rw [after_append]
    exact after_of_complete hc fs
  rw [hafter, push_of_complete hc]
  rfl

/-- A refused member leaves an object open with its key, which the caller goes on to use. -/
theorem sound_after_refused :
    let o : Options := { skipNulls := true }
    let es : List Event := [.beginArray 0 false, .elem (.object [([97], .array true [])])]
    let fs : List Event := [.value .null, .endObject]
    ((empty o).after es).frames = [.object [] (some [97]), .array false []] ∧
      ((empty o).after (es ++ fs)).Sound o ∧
      (((empty o).after (es ++ fs)).push .endArray).1 = .ok (some (.array false [.object []])) ∧
      (Value.array false [.object []]).IsCanonicalRoot ∧
      (((empty o).after (es ++ fs ++ [.endArray])).push .endArray).1 =
        .error (.unexpected .endArray .complete) := by
  intro o es fs
  have hframes : ((empty o).after es).frames = [.object [] (some [97]), .array false []] := by cbv
  have hvalue : (((empty o).after (es ++ fs)).push .endArray).1 =
      .ok (some (.array false [.object []])) := by cbv
  obtain ⟨hsound, hfinal⟩ := sound_after o (es ++ fs)
  obtain ⟨hc, -, hlater⟩ := hfinal .endArray _ hvalue
  exact ⟨hframes, hsound, hvalue, hc, hlater [] .endArray⟩

end Builder

end PackedTree
