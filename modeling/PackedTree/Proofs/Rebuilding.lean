import PackedTree.Proofs.BuilderRuns
import PackedTree.Proofs.PackingTrace
import PackedTree.Proofs.ReplayTrace

/-! # Reading a packed value and building it again

The trace of a tree that may be told is whole, and but for the announced lengths its events are the
stream of the tree (`tells_rootStream`), so they build what the tree amounts to
(`build_of_tells`).  The canonical form of what can be packed may be told, since the pieces stay
within the limits of the builder (`buildable_canonicalMember`), and it amounts to itself
(`settled_of_isCanonicalRoot`).

`round_trip` puts reading, building and packing together: a value without packed parts that packs
is read without a fault, what is read builds its canonical form, and that packs to the same
container. -/

namespace PackedTree

/-! ### Traces that tell a stream -/

/-- The trace is whole, and its events are the given ones but for announced lengths. -/
structure Trace.Tells (t : Trace) (es : List Event) : Prop where
  fault? : t.fault? = none
  events : t.events.map Event.unhinted = es

namespace Trace.Tells

variable {t u : Trace} {es fs : List Event}

theorem finished : Trace.finished.Tells [] := ⟨rfl, rfl⟩

theorem next (e : Event) (h : t.Tells es) : (Trace.next e t).Tells (e.unhinted :: es) :=
  ⟨h.fault?, congrArg (e.unhinted :: ·) h.events⟩

theorem append (ht : t.Tells es) (hu : u.Tells fs) : (t.append u).Tells (es ++ fs) := by
  refine ⟨(fault?_append_of_fault ht.fault?).trans hu.fault?, ?_⟩
  rw [events_append_of_fault ht.fault?, List.map_append, ht.events, hu.events]

end Trace.Tells

namespace Value

variable {elems : List Value} {pairs : List (Bytes × Value)} {level : Nat} {c : Container}
  {o : Options}

theorem tells_elems {g : Value → Value}
    (ih : ∀ v ∈ elems, (v.trace .elem).Tells ((g v).stream .elem)) :
    (traceElems elems).Tells (streamElems (elems.map g)) := by
  induction elems with
  | nil => exact .finished
  | cons v vs ih' =>
      obtain ⟨hv, hvs⟩ := List.forall_mem_cons.mp ih
      exact hv.append (ih' hvs)

theorem tells_pairs {g : Value → Value}
    (ih : ∀ p ∈ pairs, (p.2.trace .value).Tells ((g p.2).stream .value)) :
    (tracePairs pairs).Tells (streamPairs (pairs.map fun p => (p.1, g p.2))) := by
  induction pairs with
  | nil => exact .finished
  | cons p ps ih' =>
      obtain ⟨hp, hps⟩ := List.forall_mem_cons.mp ih
      exact .next (.key p.1) (hp.append (ih' hps))

theorem tells_stream {v : Value} (h : v.Buildable o level) (slot : Slot) :
    (v.trace slot).Tells (v.stream slot) := by
  induction h generalizing slot with
  | @scalar _ v hv =>
      have h := Trace.Tells.next (slot.event v) .finished
      rwa [Slot.unhinted_event, ← trace_of_isScalar hv, ← stream_of_isScalar hv] at h
  | @array _ elems hd hn he ih =>
      have h := tells_elems (g := id) fun v hv => ih v hv .elem
      rw [List.map_id] at h
      rw [trace_array, stream_array]
      exact .next _ (h.append (.next _ .finished))
  | @object _ pairs hd hn hu hp ih =>
      have h := tells_pairs (g := id) fun p hp => ih p hp .value
      have hid : (pairs.map fun p => (p.1, id p.2)) = pairs := List.map_id pairs
      rw [hid] at h
      rw [trace_object, stream_object]
      exact .next _ (h.append (.next _ .finished))

theorem tells_rootStream {t : Value} (h : t.BuildableRoot o) :
    t.rootTrace.Tells (t.stream .elem) := by
  cases h with
  | @raw v hv hn =>
      have hb : v.Buildable o 0 := .scalar hv
      have he : ∀ w ∈ [v], (w.trace .elem).Tells ((id w).stream .elem) :=
        List.forall_mem_singleton.mpr (tells_stream hb .elem)
      rw [rootTrace, stream_array]
      exact .next _ ((tells_elems he).append (.next _ .finished))
  | container hv h =>
      have htells := tells_stream h .elem
      cases h with
      | scalar hs => rw [hs] at hv; cases hv
      | array => rwa [trace_array] at htells
      | object => exact htells

/-- What tells the stream of a tree builds what the tree amounts to. -/
theorem build_of_tells {u : Trace} {t : Value} (hu : u.Tells (t.stream .elem))
    (ht : t.BuildableRoot o) : PackedTree.build o u.events = .ok (t.settled o) := by
  have h := Builder.build_of_stream ht hu.events (.inl rfl)
  rwa [List.append_nil] at h

/-! ### The canonical form of what packs -/

theorem buildable_of_packElems (h : packElems elems level = .ok c)
    (ih : ∀ v ∈ elems, ∀ p, v.piece (level + 1) = .ok p →
      v.canonicalMember.Buildable {} (level + 1)) :
    (Value.array false (elems.map canonicalMember)).Buildable {} level := by
  obtain ⟨hd, hn, -⟩ := Container.packArray_spec h
  refine .array hd ?_ (List.forall_mem_map.mpr fun v hv => ?_)
  · rw [List.length_map] at hn ⊢
    exact Nat.le_min.mpr ⟨hn, hn⟩
  · obtain ⟨p, hp⟩ := ok_of_packElems h hv
    exact ih v hv p hp

theorem buildable_of_packPairs (h : packPairs pairs level = .ok c)
    (ih : ∀ q ∈ kept pairs, ∀ p, q.2.piece (level + 1) = .ok p →
      q.2.canonicalMember.Buildable {} (level + 1)) :
    (Value.object ((kept pairs).map fun q => (q.1, q.2.canonicalMember))).Buildable {} level := by
  obtain ⟨hd, hn, -⟩ := Container.packObject_spec h
  rw [canonical_map fun v => v.piece (level + 1), List.length_map] at hn
  refine .object hd ?_ nofun (List.forall_mem_map.mpr fun q hq => ?_)
  · rw [List.length_map]
    exact Nat.le_min.mpr ⟨hn, hn⟩
  · obtain ⟨p, hp⟩ := ok_of_packPairs h hq
    exact ih q hq p hp

/-- What packs as a member inside `level` containers may be told there in canonical form. -/
theorem buildable_canonicalMember {v : Value} (hv : v.isTree = true) {p : Piece}
    (hp : v.piece level = .ok p) : v.canonicalMember.Buildable {} level := by
  refine piece_induction ?_ ?_ ?_ ?_ hv hp
  · intro v level p hs _
    rw [canonicalMember_of_isScalar hs]
    exact .scalar hs
  · intro v level p ih
    rw [canonicalMember_raw]
    exact ih.of_succ
  · intro elems level c hc ih
    rw [canonicalMember_array]
    exact buildable_of_packElems hc ih
  · intro pairs level c hc ih
    rw [canonicalMember_object]
    exact buildable_of_packPairs hc ih

theorem buildableRoot_of_pack {v : Value} (hv : v.isTree = true) (h : v.pack = .ok c) :
    v.canonical.BuildableRoot {} := by
  cases packsTo_of_pack hv h with
  | scalar hw hs hp hc h =>
      rw [hc]
      exact .raw hs (by decide)
  | array h =>
      rw [canonical_array]
      refine .container rfl (buildable_of_packElems h fun v hm p hp => ?_)
      exact buildable_canonicalMember (isTree_of_mem_elems hv hm) hp
  | object h =>
      rw [canonical_object]
      refine .container rfl (buildable_of_packPairs h fun q hq p hp => ?_)
      exact buildable_canonicalMember (isTree_of_mem_pairs hv (mem_of_mem_kept hq)) hp

theorem settled_of_isCanonical {v : Value} (h : v.IsCanonical) : v.settled {} = v := by
  induction h with
  | scalar hv => exact settled_of_isScalar {} hv
  | array he ih => rw [settled_array, List.map_congr_left ih, List.map_id']
  | @object pairs ha hp ih =>
      have hs : staying {} pairs = pairs := kept_of_ascending ha
      have hm : ∀ p ∈ pairs, (p.1, p.2.settled {}) = p := fun p hp => by rw [ih p hp]
      rw [settled_object, List.map_congr_left hm, List.map_id', hs]

theorem settled_of_isCanonicalRoot {v : Value} (h : v.IsCanonicalRoot) : v.settled {} = v := by
  match v, h with
  | .array true _, ⟨w, rfl, hw⟩ => rw [settled_array, List.map_singleton, settled_of_isScalar {} hw]
  | .array false _, h => exact settled_of_isCanonical h.2
  | .object _, h => exact settled_of_isCanonical h.2

/-! ### Whole values -/

/-- The trace is whole and its events build the value. -/
structure Finishes (t : Trace) (v : Value) : Prop where
  fault? : t.fault? = none
  build : PackedTree.build {} t.events = .ok v

/-- The telling of a packed value finishes its canonical form. -/
theorem finishes_of_pack {v : Value} (hv : v.isTree = true) (h : v.pack = .ok c) :
    Finishes v.canonical.rootTrace v.canonical := by
  have hroot := buildableRoot_of_pack hv h
  have htells := tells_rootStream hroot
  have hbuild := build_of_tells htells hroot
  rw [settled_of_isCanonicalRoot (isCanonicalRoot_of_pack hv h)] at hbuild
  exact ⟨htells.fault?, hbuild⟩

/-- The bytes of a packed value are accepted as the container that they came from, which can be
read to its end; what is read builds the canonical form of the value, and that packs to the same
container. -/
theorem round_trip {v : Value} (hv : v.isTree = true) (h : v.pack = .ok c) :
    v.canonical.IsCanonicalRoot ∧ Container.ofBytes c.bytes = .ok c ∧
      ∃ es, (Replay.before c false).Runs es (.ok ()) ∧
        PackedTree.build {} es = .ok v.canonical ∧ v.canonical.pack = .ok c := by
  have hf := finishes_of_pack hv h
  rw [← trace_of_pack hv h] at hf
  have hvalid : c.validate = .ok () := by
    unfold Container.validate
    rw [hf.fault?]
  exact ⟨isCanonicalRoot_of_pack hv h, c.ofBytes_bytes, c.trace.events, hvalid ▸ c.runs_trace,
    hf.build, pack_canonical hv h⟩

/-- The second value of a repeated key is read back, and a number without its wrapper. -/
theorem round_trip_repeated_key :
    ∃ c es, (Value.object [([98], .null), ([97], .array false [.array true [.number ⟨150, 2⟩]]),
        ([98], .bool true)]).pack = .ok c ∧
      (Replay.before c false).Runs es (.ok ()) ∧
      PackedTree.build {} es =
        .ok (.object [([97], .array false [.number ⟨150, 2⟩]), ([98], .bool true)]) := by
  have hs : Decimal.storable ⟨150, 2⟩ = true := by decide
  have h : (Value.object [([98], .null), ([97], .array false [.array true [.number ⟨150, 2⟩]]),
      ([98], .bool true)]).pack =
        .ok ⟨⟨.object, 2, by decide, by decide⟩, [2147483649, 1, 1342177300, 805306368],
          [97, 98, 0, 0, 1, 0, 0, 64, 10, 0, 0, 144, 2, 0, 0, 0, 0, 0, 0, 0, 150, 0], rfl⟩ := by
    simp only [pack, pairPieces, elemPieces, piece, leafPiece, hs, if_true]
    cbv
  obtain ⟨-, -, es, hr, hb, -⟩ := round_trip rfl h
  exact ⟨_, es, h, hr, hb.trans (by cbv)⟩

end Value

end PackedTree
