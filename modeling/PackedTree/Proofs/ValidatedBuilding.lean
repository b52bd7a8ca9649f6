import PackedTree.Proofs.Rebuilding
import PackedTree.Proofs.WholeContainers

/-! # Building what a validated container tells

A container that validates tells a tree that may be told, as long as it does not nest too deep and
nothing in it is raw (`exists_tree`).  Conversely the events of a container occur among those of a
container that holds it, behind the first one (`mem_tail_events`), and there the stream of a tree
has no raw array.  So `exists_build_iff`: the events build exactly if the only raw container is the
outermost one, around a scalar. -/

namespace PackedTree

theorem Trace.Fits.isSimple {st : List Due} {t : Trace} (h : t.Fits st) :
    ∀ e ∈ t.events, e.isSimple = true := by
  induction h with
  | finished => nofun
  | failed => nofun
  | next he ht ih =>
      refine List.forall_mem_cons.mpr ⟨?_, ih⟩
      cases he with
      | member hd he =>
          cases he with
          | scalar hv => rwa [Slot.isSimple_event]
          | _ => rfl
      | _ => rfl

namespace Container

open Builder Value

variable {c n : Container}

/-- The root is a raw wrapper, but around a container. -/
def WrapsContainer (c : Container) : Prop := c.isRaw = true ∧ ∃ n, c.Holds n

/-- No container packed in this one is raw. -/
def NestsNoRaw (c : Container) : Prop := ∀ n, Relation.TransGen Holds c n → n.isRaw = false

theorem NestsNoRaw.of_holds (h : c.NestsNoRaw) (hn : c.Holds n) :
    n.isRaw = false ∧ n.NestsNoRaw :=
  ⟨h n (.single hn), fun m hm => h m (.head hn hm)⟩

/-! ### Trees from what is told -/

/-- The telling of the value, wherever it stands, is the stream of some tree. -/
def TellsTree (level : Nat) (v : Value) : Prop :=
  ∃ t : Value, t.Buildable {} level ∧ ∀ slot, (v.told entered slot).Tells (t.stream slot)

theorem tells_tellElems {level : Nat} {vs : List Value} (h : ∀ v ∈ vs, TellsTree level v) :
    ∃ ts : List Value, ts.length = vs.length ∧ (∀ t ∈ ts, t.Buildable {} level) ∧
      (tellElems vs).Tells (streamElems ts ++ [.endArray]) := by
  induction vs with
  | nil => exact ⟨[], rfl, nofun, .next _ .finished⟩
  | cons v vs ih =>
      obtain ⟨⟨t, ht, htell⟩, hvs⟩ := List.forall_mem_cons.mp h
      obtain ⟨ts, hlen, hts, htells⟩ := ih hvs
      refine ⟨t :: ts, congrArg (· + 1) hlen, List.forall_mem_cons.mpr ⟨ht, hts⟩, ?_⟩
      rw [tellElems, streamElems, List.append_assoc]
      exact (htell .elem).append htells

theorem tells_tellPairs {level : Nat} {ps : List (Bytes × Value)}
    (h : ∀ p ∈ ps, TellsTree level p.2) :
    ∃ ts : List (Bytes × Value), ts.length = ps.length ∧ (∀ t ∈ ts, t.2.Buildable {} level) ∧
      (tellPairs ps).Tells (streamPairs ts ++ [.endObject]) := by
  induction ps with
  | nil => exact ⟨[], rfl, nofun, .next _ .finished⟩
  | cons p ps ih =>
      obtain ⟨k, v⟩ := p
      obtain ⟨⟨t, ht, htell⟩, hps⟩ := List.forall_mem_cons.mp h
      obtain ⟨ts, hlen, hts, htells⟩ := ih hps
      refine ⟨(k, t) :: ts, congrArg (· + 1) hlen, List.forall_mem_cons.mpr ⟨ht, hts⟩, ?_⟩
      rw [tellPairs, streamPairs, List.cons_append, List.append_assoc]
      exact .next (.key k) ((htell .value).append htells)

theorem len_le_min (c : Container) : c.len ≤ min ({} : Options).maxChildren maxChildren :=
  Nat.le_min.mpr ⟨c.header.len_le, c.header.len_le⟩

theorem tellsTree_of_isScalar {v : Value} (hv : v.isScalar = true) (level : Nat) :
    TellsTree level v := by
  refine ⟨v, .scalar hv, fun slot => ?_⟩
  have h := Trace.Tells.next (slot.event v) .finished
  rwa [Slot.unhinted_event, ← told_of_isScalar hv, ← stream_of_isScalar hv] at h

/-- A container that can be read to its end tells a tree that may be told, if it does not nest too
deep and neither it nor one packed in it is raw. -/
theorem exists_tree (h : c.IsWhole) {level : Nat} (hd : c.NestsWithin (maxDepth - level))
    (hr : c.isRaw = false) (hraw : c.NestsNoRaw) :
    ∃ t : Value, t.isScalar = false ∧ t.Buildable {} level ∧
      ∀ slot, c.trace.Tells (t.stream slot) := by
  induction h generalizing level with
  | @array c vs h hn ih =>
      obtain ⟨hl, hd⟩ := nestsWithin_of_level hd
      have hvs : ∀ v ∈ vs, TellsTree (level + 1) v := fun v hv => by
        rcases isScalar_or_holds (h.child v hv) with hs | ⟨n, rfl, hn⟩
        · exact tellsTree_of_isScalar hs _
        · obtain ⟨hr, hraw⟩ := hraw.of_holds hn
          obtain ⟨t, -, ht⟩ := ih n hn (hd n hn) hr hraw
          exact ⟨t, ht⟩
      obtain ⟨ts, hlen, hts, htells⟩ := tells_tellElems hvs
      have hmax : ts.length ≤ min ({} : Options).maxChildren maxChildren := by
        rw [hlen, h.len]
        exact len_le_min c
      refine ⟨.array false ts, rfl, .array hl hmax hts, fun slot => ?_⟩
      rw [h.trace, hr, stream_array]
      exact .next _ htells
  | @object c ps h hn ih =>
      obtain ⟨hl, hd⟩ := nestsWithin_of_level hd
      have hps : ∀ p ∈ ps, TellsTree (level + 1) p.2 := fun p hp => by
        rcases isScalar_or_holds (h.child p hp) with hs | ⟨n, hpn, hn⟩
        · exact tellsTree_of_isScalar hs _
        · obtain ⟨hr, hraw⟩ := hraw.of_holds hn
          obtain ⟨t, -, ht⟩ := ih n hn (hd n hn) hr hraw
          rw [hpn]
          exact ⟨t, ht⟩
      obtain ⟨ts, hlen, hts, htells⟩ := tells_tellPairs hps
      have hmax : ts.length ≤ min ({} : Options).maxChildren maxChildren := by
        rw [hlen, h.len]
        exact len_le_min c
      refine ⟨.object ts, rfl, .object hl hmax nofun hts, fun slot => ?_⟩
      rw [h.trace, stream_object]
      exact .next _ htells

theorem tells_raw (h : c.IsWhole) (hr : c.isRaw = true) (hw : ¬ c.WrapsContainer) :
    ∃ v : Value, v.isScalar = true ∧ c.trace.Tells ((Value.array true [v]).stream .elem) := by
  obtain ⟨v, hv, -, ht⟩ := trace_of_isRaw h hr
  rcases isScalar_or_holds hv with hs | ⟨n, -, hn⟩
  · refine ⟨v, hs, ?_⟩
    rw [ht, told_of_isScalar hs, stream_array, streamElems, streamElems, stream_of_isScalar hs]
    exact ⟨rfl, rfl⟩
  · exact absurd ⟨hr, n, hn⟩ hw

/-! ### What is told appears in the events -/

theorem mem_tellElems {vs : List Value} (h : (tellElems vs).fault? = none) (hn : .binary n ∈ vs)
    {e : Event} (he : e ∈ n.trace.events) : e ∈ (tellElems vs).events := by
  induction vs with
  | nil => cases hn
  | cons v vs ih =>
      obtain ⟨hv, hvs⟩ := Trace.fault?_append_eq_none h
      rw [tellElems, Trace.events_append_of_fault hv]
      rcases List.mem_cons.mp hn with rfl | hn
      · exact List.mem_append_left _ he
      · exact List.mem_append_right _ (ih hvs hn)

theorem mem_tellPairs {ps : List (Bytes × Value)} (h : (tellPairs ps).fault? = none)
    {p : Bytes × Value} (hp : p ∈ ps) (hn : p.2 = .binary n) {e : Event}
    (he : e ∈ n.trace.events) : e ∈ (tellPairs ps).events := by
  induction ps with
  | nil => cases hp
  | cons q ps ih =>
      obtain ⟨k, v⟩ := q
      obtain ⟨hv, hps⟩ := Trace.fault?_append_eq_none h
      rw [tellPairs, Trace.events, Trace.events_append_of_fault hv]
      refine List.mem_cons_of_mem _ ?_
      rcases List.mem_cons.mp hp with rfl | hp
      · obtain rfl : v = .binary n := hn
        exact List.mem_append_left _ he
      · exact List.mem_append_right _ (ih hps hp)

/-- The events of a container that is held follow the first event of the one that holds it. -/
theorem mem_tail_events (h : c.trace.fault? = none) (hn : c.Holds n) {e : Event}
    (he : e ∈ n.trace.events) : e ∈ c.trace.events.tail := by
  cases ho : c.isObject with
  | false =>
      obtain ⟨vs, hvs⟩ := exists_holdsElems ho h
      rw [hvs.trace] at h ⊢
      exact mem_tellElems h (hvs.mem n hn) he
  | true =>
      obtain ⟨ps, hps⟩ := exists_holdsPairs ho h
      rw [hps.trace] at h ⊢
      obtain ⟨p, hp, hpn⟩ := hps.mem n hn
      exact mem_tellPairs h hp hpn he

theorem mem_tail_events_of_transGen (hn : Relation.TransGen Holds c n)
    (h : c.trace.fault? = none) {e : Event} (he : e ∈ n.trace.events) :
    e ∈ c.trace.events.tail := by
  induction hn using Relation.TransGen.head_induction_on with
  | single hn => exact mem_tail_events h hn he
  | head hm _ ih =>
      exact mem_tail_events h hm (List.mem_of_mem_tail (ih (fault?_of_holds h hm)))

theorem head?_events (h : c.trace.fault? = none) :
    ∃ e, c.trace.events.head? = some e ∧
      e.unhinted = if c.isObject then .beginObject 0 else .beginArray 0 c.isRaw := by
  cases ho : c.isObject with
  | false =>
      obtain ⟨vs, hvs⟩ := exists_holdsElems ho h
      rw [hvs.trace]
      exact ⟨_, rfl, rfl⟩
  | true =>
      obtain ⟨ps, hps⟩ := exists_holdsPairs ho h
      rw [hps.trace]
      exact ⟨_, rfl, rfl⟩

/-! ### Where raw arrays stand in a stream -/

theorem not_raw_of_mem_streamElems {ts : List Value}
    (h : ∀ t ∈ ts, ∀ slot, .beginArray 0 true ∉ t.stream slot) :
    .beginArray 0 true ∉ streamElems ts := by
  induction ts with
  | nil => nofun
  | cons t ts ih =>
      obtain ⟨ht, hts⟩ := List.forall_mem_cons.mp h
      rw [streamElems, List.mem_append, not_or]
      exact ⟨ht .elem, ih hts⟩

theorem not_raw_of_mem_streamPairs {ps : List (Bytes × Value)}
    (h : ∀ p ∈ ps, ∀ slot, .beginArray 0 true ∉ p.2.stream slot) :
    .beginArray 0 true ∉ streamPairs ps := by
  induction ps with
  | nil => nofun
  | cons p ps ih =>
      obtain ⟨hp, hps⟩ := List.forall_mem_cons.mp h
      rw [streamPairs, List.mem_cons, List.mem_append]
      rintro (h | h | h)
      · cases h
      · exact hp .value h
      · exact ih hps h

theorem not_raw_of_buildable {o : Options} {level : Nat} {t : Value} (h : t.Buildable o level)
    (slot : Slot) : .beginArray 0 true ∉ t.stream slot := by
  induction h generalizing slot with
  | scalar hv =>
      rw [stream_of_isScalar hv, List.mem_singleton]
      cases slot <;> nofun
  | array hd hn he ih =>
      rw [stream_array, List.mem_cons, List.mem_append, List.mem_singleton]
      rintro (h | h | h)
      · cases h
      · exact not_raw_of_mem_streamElems ih h
      · cases h
  | object hd hn hu hp ih =>
      rw [stream_object, List.mem_cons, List.mem_append, List.mem_singleton]
      rintro (h | h | h)
      · cases h
      · exact not_raw_of_mem_streamPairs ih h
      · cases h

/-- A whole stream has no raw array behind its first event. -/
theorem not_raw_of_mem_tail {o : Options} {t : Value} (h : t.BuildableRoot o) :
    .beginArray 0 true ∉ (t.stream .elem).tail := by
  cases h with
  | raw hv =>
      rw [stream_array, streamElems, streamElems, stream_of_isScalar hv]
      rintro (_ | ⟨_, _ | ⟨_, ⟨⟩⟩⟩)
  | container hv h => exact fun hm => not_raw_of_buildable h .elem (List.mem_of_mem_tail hm)

theorem eq_raw_of_head? {o : Options} {t : Value} (h : t.BuildableRoot o)
    (hh : (t.stream .elem).head? = some (.beginArray 0 true)) :
    ∃ v, v.isScalar = true ∧ (t.stream .elem).tail = [.elem v, .endArray] := by
  cases h with
  | @raw v hv =>
      refine ⟨v, hv, ?_⟩
      rw [stream_array, streamElems, streamElems, stream_of_isScalar hv]
      rfl
  | container hv h => exact absurd (List.mem_of_mem_head? hh) (not_raw_of_buildable h .elem)

/-! ### Building -/

/-- If the events of a container build, they are the stream of a tree that may be told. -/
theorem stream_of_build {v : Value} (h : build {} c.trace.events = .ok v) :
    ∃ t : Value, t.BuildableRoot {} ∧ c.trace.events.map Event.unhinted = t.stream .elem := by
  obtain ⟨t, s, tail, hes, htail, hs, ht, -⟩ := told_of_run .nothing c.fits_trace.isSimple h
  have hnil : tail = [] := by
    rcases htail with hnil | hdone
    · exact hnil
    · have hmem : .done ∈ c.trace.events := by
        rw [hes]
        exact List.mem_append_right _ (List.mem_of_mem_head? hdone)
      exact absurd rfl (c.fits_trace.ne_done _ hmem)
  rw [hnil, List.append_nil] at hes
  rw [List.nil_append] at hs
  exact ⟨t, ht, by rw [hes, hs]⟩

theorem mem_tail_stream {t : Value}
    (hs : c.trace.events.map Event.unhinted = t.stream .elem) {e : Event}
    (he : e ∈ c.trace.events.tail) : e.unhinted ∈ (t.stream .elem).tail := by
  rw [← hs, ← List.map_tail]
  exact List.mem_map_of_mem he

/-- Where the events are the stream of a tree that may be told, no nested container is raw. -/
theorem nestsNoRaw_of_stream {o : Options} {t : Value} (hf : c.trace.fault? = none)
    (ht : t.BuildableRoot o) (hs : c.trace.events.map Event.unhinted = t.stream .elem) :
    c.NestsNoRaw := by
  intro n hn
  cases hr : n.isRaw with
  | false => rfl
  | true =>
      obtain ⟨d, hd, hdu⟩ := head?_events (fault?_of_transGen hf hn)
      have htail := mem_tail_events_of_transGen hn hf (List.mem_of_mem_head? hd)
      have hmem := mem_tail_stream hs htail
      rw [hdu, (array_of_isRaw hr).1, hr] at hmem
      exact absurd hmem (not_raw_of_mem_tail ht)

/-- The events of a container that can be read to its end, and that does not nest too deep, build
exactly if the only raw container is the outermost one, around a scalar. -/
theorem exists_build_iff (h : c.validate = .ok ()) (hd : c.NestsWithin maxDepth) :
    (∃ v, build {} c.trace.events = .ok v) ↔ ¬ c.WrapsContainer ∧ c.NestsNoRaw := by
  have hf := validate_eq_ok_iff.mp h
  have hc := isWhole_of_validate h
  constructor
  · rintro ⟨v, hv⟩
    obtain ⟨t, ht, hstream⟩ := stream_of_build hv
    refine ⟨?_, nestsNoRaw_of_stream hf ht hstream⟩
    rintro ⟨hr, n, hn⟩
    obtain ⟨e, he, heu⟩ := head?_events hf
    obtain ⟨d, hd, hdu⟩ := head?_events (fault?_of_holds hf hn)
    have hhead : (t.stream .elem).head? = some (.beginArray 0 true) := by
      rw [← hstream, List.head?_map, he, Option.map_some, heu, (array_of_isRaw hr).1, hr]
      rfl
    obtain ⟨w, hw, htl⟩ := eq_raw_of_head? ht hhead
    have hmem := mem_tail_stream hstream (mem_tail_events hf hn (List.mem_of_mem_head? hd))
    rw [htl, hdu] at hmem
    cases hn : n.isObject <;> rw [hn] at hmem <;> revert hmem <;> rintro (_ | ⟨_, _ | ⟨_, ⟨⟩⟩⟩)
  · rintro ⟨hw, hraw⟩
    cases hr : c.isRaw with
    | true =>
        obtain ⟨v, hv, ht⟩ := tells_raw hc hr hw
        exact ⟨_, build_of_tells ht (.raw hv (by decide))⟩
    | false =>
        have hd0 : c.NestsWithin (maxDepth - 0) := hd
        obtain ⟨t, hs, ht, htells⟩ := exists_tree hc hd0 hr hraw
        exact ⟨_, build_of_tells (htells .elem) (.container hs ht)⟩

end Container

end PackedTree
