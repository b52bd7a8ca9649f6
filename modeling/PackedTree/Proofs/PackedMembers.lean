import PackedTree.Proofs.BuilderFeeding
import PackedTree.Proofs.CanonicalPacking
import PackedTree.Proofs.WholeContainers
import Mathlib.Tactic.Choose

/-! # Packed members, copied or told

A value may hold parts that are packed already.  Packing it copies their bytes; telling it to a
builder unfolds them, and packing what was built lays them out anew.  If the packed parts come from
trees, `Value.PartsPacked`, both ways give the same bytes (`bytes_eq_of_build`): the value tells the
stream of some tree, and where both the value and what that tree amounts to have a piece, the
copies of the two are equal (`exists_unfolded`). -/

namespace PackedTree

namespace Value

variable {elems : List Value} {pairs : List (Bytes × Value)} {level level' : Nat}
  {c d : Container} {p q : Piece}

/-- Every packed part of the value, at any depth, was packed from a tree. -/
inductive PartsPacked : Value → Prop
  | scalar {v : Value} (hv : v.isScalar = true) : PartsPacked v
  | array {raw : Bool} {elems : List Value} (he : ∀ v ∈ elems, PartsPacked v) :
      PartsPacked (.array raw elems)
  | object {pairs : List (Bytes × Value)} (hp : ∀ p ∈ pairs, PartsPacked p.2) :
      PartsPacked (.object pairs)
  | binary {v : Value} {c : Container} (hv : v.isTree = true) (h : v.pack = .ok c) :
      PartsPacked (.binary c)

/-! ### Containers with the same members -/

/-- Arrays whose elements are stored alike pack to the same container at every depth. -/
theorem packElems_unique {g : Value → Value} (hc : packElems elems level = .ok c)
    (hd : packElems (elems.map g) level' = .ok d)
    (h : ∀ v ∈ elems, ∀ p q, v.piece (level + 1) = .ok p → (g v).piece (level' + 1) = .ok q →
      p.copy = q.copy) : c = d := by
  refine Container.packArray_unique ?_ hc hd
  rw [List.map_map, List.map_map, List.map_map]
  refine List.map_congr_left fun v hv => ?_
  obtain ⟨p, hp⟩ := ok_of_packElems hc hv
  obtain ⟨q, hq⟩ := ok_of_packElems hd (List.mem_map_of_mem hv)
  show (v.piece (level + 1)).map Piece.copy = ((g v).piece (level' + 1)).map Piece.copy
  rw [hp, hq]
  exact congrArg Except.ok (h v hv p q hp hq)

theorem packPairs_unique {g : Value → Value} (hc : packPairs pairs level = .ok c)
    (hd : packPairs ((kept pairs).map fun q => (q.1, g q.2)) level' = .ok d)
    (h : ∀ r ∈ kept pairs, ∀ p q, r.2.piece (level + 1) = .ok p →
      (g r.2).piece (level' + 1) = .ok q → p.copy = q.copy) : c = d := by
  have hkept : kept ((kept pairs).map fun q => (q.1, g q.2)) =
      (kept pairs).map fun q => (q.1, g q.2) := kept_of_ascending (ascending_kept g pairs)
  refine Container.packObject_unique (canonical_map (fun v => v.piece (level + 1)) _)
    (canonical_map (fun v => v.piece (level' + 1)) _) ?_ hc hd
  rw [hkept, List.map_map, List.map_map, List.map_map]
  refine List.map_congr_left fun r hr => ?_
  have hr' : (r.1, g r.2) ∈ kept ((kept pairs).map fun q => (q.1, g q.2)) := by
    rw [hkept]
    exact List.mem_map_of_mem hr
  obtain ⟨p, hp⟩ := ok_of_packPairs hc hr
  obtain ⟨q, hq⟩ := ok_of_packPairs hd hr'
  show (r.1, (r.2.piece (level + 1)).map Piece.copy) =
    (r.1, ((g r.2).piece (level' + 1)).map Piece.copy)
  rw [hp, hq]
  exact congrArg (fun p => (r.1, Except.ok p)) (h r hr p q hp hq)

/-! ### What a packed tree stands for as a member -/

theorem unwrapped_of_scalar_child (hr : c.isRaw = true) {v : Value} (h : c.child 0 = .ok v)
    (hv : v.isScalar = true) : c.unwrapped = .ok v := by
  rw [Container.unwrapped, hr, if_pos rfl]
  split
  · next n hn =>
      cases h.symm.trans hn
      cases hv
  · exact h

theorem unwrapped_of_not_raw (hr : c.isRaw = false) : c.unwrapped = .ok (.binary c) := by
  rw [Container.unwrapped, hr]
  rfl

theorem canonicalMember_of_canonical_raw {v s : Value} (hv : v.isTree = true)
    (h : v.canonical = .array true [s]) : v.canonicalMember = s := by
  cases v with
  | null | bool | number | string => cases h; exact canonicalMember_of_isScalar rfl
  | array raw elems =>
      cases raw with
      | true =>
          rw [canonical, canonicalElems_eq_map] at h
          obtain ⟨w, rfl, rfl⟩ := List.map_eq_singleton_iff.mp (Value.array.inj h).2
          exact canonicalMember_raw w
      | false =>
          rw [canonical_array] at h
          cases h
  | object pairs =>
      rw [canonical_object] at h
      cases h
  | binary c => cases hv

/-- What a packed tree stands for as a member: a scalar that was wrapped, or the container. -/
theorem unwrapped_of_pack {v : Value} (hv : v.isTree = true) (h : v.pack = .ok c) :
    (v.canonicalMember.isScalar = true ∧ c.unwrapped = .ok v.canonicalMember) ∨
      (v.canonicalMember.isScalar = false ∧ v.canonicalMember.IsCanonical ∧
        v.canonical = v.canonicalMember ∧ c.unwrapped = .ok (.binary c)) := by
  have hroot := isCanonicalRoot_of_pack hv h
  cases packsTo_of_pack hv h with
  | scalar hw hs hp hc h =>
      left
      obtain ⟨hshape, q, hq, hl⟩ := Container.packRaw_spec h
      cases hq
      have hp := piece_canonicalMember hw hp 1 (Nat.le_refl 1)
      rw [piece_eq_leafPiece hs] at hp
      have hr : c.isRaw = true := by rw [Container.isRaw, hshape]; rfl
      rw [canonicalMember_of_canonical_raw hv hc]
      refine ⟨hs, unwrapped_of_scalar_child hr ?_ hs⟩
      cases hl with
      | cons hstores => exact hstores.child.trans (decode_leafPiece hs hp)
  | array h =>
      right
      have hshape := (Container.packArray_spec h).2.2.1
      have hr : c.isRaw = false := by rw [Container.isRaw, hshape]; rfl
      rw [canonical_array] at hroot ⊢
      rw [canonicalMember_array]
      exact ⟨rfl, hroot.2, rfl, unwrapped_of_not_raw hr⟩
  | object h =>
      right
      have hshape := (Container.packObject_spec h).2.2.1
      have hr : c.isRaw = false := by rw [Container.isRaw, hshape]; rfl
      rw [canonical_object] at hroot ⊢
      rw [canonicalMember_object]
      exact ⟨rfl, hroot.2, rfl, unwrapped_of_not_raw hr⟩

/-! ### The tree that a member tells -/

/-- At the given place the value tells the stream of the tree, and where both the value and what
the tree amounts to have a piece, at whatever depths, it is the same copy. -/
structure UnfoldsTo (slot : Slot) (v t : Value) : Prop where
  tells : (v.trace slot).Tells (t.stream slot)
  piece : ∀ {level level' p q}, v.piece level = .ok p → (t.settled {}).piece level' = .ok q →
    p.copy = q.copy

theorem unfoldsTo_of_isScalar {v : Value} (hv : v.isScalar = true) (slot : Slot) :
    UnfoldsTo slot v v where
  tells :=
    have hb : v.Buildable {} 0 := .scalar hv
    tells_stream hb slot
  piece hp hq := by
    rw [settled_of_isScalar {} hv, piece_eq_leafPiece hv] at hq
    rw [piece_eq_leafPiece hv] at hp
    exact congrArg Piece.copy (Except.ok.inj (hp.symm.trans hq))

theorem stream_eq_of_slot {v : Value} (hs : v.isScalar = false) (hc : v.IsCanonical)
    (slot slot' : Slot) : v.stream slot = v.stream slot' := by
  cases hc with
  | scalar hv => cases hs.symm.trans hv
  | array => rw [stream_array, stream_array]
  | object => rw [stream_object, stream_object]

theorem unfoldsTo_of_pack {v : Value} (hv : v.isTree = true) (h : v.pack = .ok c) (slot : Slot) :
    UnfoldsTo slot (.binary c) v.canonicalMember := by
  have htrace := trace_of_pack hv h
  have htells := tells_rootStream (buildableRoot_of_pack hv h)
  have hpack := pack_canonical hv h
  rcases unwrapped_of_pack hv h with ⟨hs, hu⟩ | ⟨hs, hc, hcanonical, hu⟩
  · have ht : (Value.binary c).trace slot = v.canonicalMember.trace slot := by
      rw [trace_of_isScalar hs, trace, hu]
      generalize v.canonicalMember = w at hs
      cases w with
      | null | bool | number | string => rfl
      | _ => cases hs
    have hunfolds := unfoldsTo_of_isScalar hs slot
    refine ⟨ht ▸ hunfolds.tells, fun {level level' p q} hp hq => ?_⟩
    have hp : v.canonicalMember.piece level = .ok p := by
      rw [piece_eq_leafPiece hs]
      rw [piece, hu] at hp
      exact hp
    exact hunfolds.piece hp hq
  · rw [hcanonical] at htrace htells hpack
    generalize v.canonicalMember = t at hs hc htrace htells hpack
    constructor
    · rw [trace, hu, stream_eq_of_slot hs hc slot .elem]
      show c.trace.Tells _
      rwa [htrace]
    · intro level level' p q hp hq
      rw [piece, hu] at hp
      cases hp
      rw [settled_of_isCanonical hc] at hq
      have hq := piece_canonicalMember hc.isTree hq 0 (Nat.zero_le _)
      rw [canonicalMember_of_isCanonical hc, piece_zero hs hc hpack] at hq
      cases hq
      rfl

theorem fault?_of_traceElems (h : (traceElems elems).fault? = none) :
    ∀ v ∈ elems, (v.trace .elem).fault? = none := by
  induction elems with
  | nil => nofun
  | cons v vs ih =>
      obtain ⟨hv, hvs⟩ := Trace.fault?_append_eq_none h
      exact List.forall_mem_cons.mpr ⟨hv, ih hvs⟩

theorem fault?_of_tracePairs (h : (tracePairs pairs).fault? = none) :
    ∀ p ∈ pairs, (p.2.trace .value).fault? = none := by
  induction pairs with
  | nil => nofun
  | cons p ps ih =>
      obtain ⟨hp, hps⟩ := Trace.fault?_append_eq_none h
      exact List.forall_mem_cons.mpr ⟨hp, ih hps⟩

section Members

variable {slot : Slot} {g : Value → Value}

theorem unfoldsTo_raw {v t : Value} (h : UnfoldsTo slot v t) :
    UnfoldsTo slot (.array true [v]) t where
  tells := by
    rw [trace]
    exact h.tells
  piece hp hq := by
    rw [Value.piece] at hp
    exact h.piece hp hq

theorem unfoldsTo_array (h : ∀ v ∈ elems, UnfoldsTo .elem v (g v)) :
    UnfoldsTo slot (.array false elems) (.array false (elems.map g)) where
  tells := by
    have htells := tells_elems fun v hv => (h v hv).tells
    rw [trace_array, stream_array]
    exact .next _ (htells.append (.next _ .finished))
  piece hp hq := by
    rw [settled_array, List.map_map, piece_array] at hq
    rw [piece_array] at hp
    obtain ⟨c, hc, rfl⟩ := ok_of_map_ok hp
    obtain ⟨d, hd, rfl⟩ := ok_of_map_ok hq
    rw [packElems_unique hc hd fun v hv p q => (h v hv).piece]

theorem unfoldsTo_object (h : ∀ p ∈ pairs, UnfoldsTo .value p.2 (g p.2)) :
    UnfoldsTo slot (.object pairs) (.object (pairs.map fun p => (p.1, g p.2))) where
  tells := by
    have htells := tells_pairs fun p hp => (h p hp).tells
    rw [trace_object, stream_object]
    exact .next _ (htells.append (.next _ .finished))
  piece {level level' p q} hp hq := by
    have hs : staying {} ((pairs.map fun p => (p.1, g p.2)).map fun p =>
        (p.1, p.2.settled {})) = (kept pairs).map fun p => (p.1, (g p.2).settled {}) := by
      rw [List.map_map]
      exact Keyed.written_map Bytes.keyCompare (fun v => (g v).settled {}) pairs
    rw [settled_object, hs, piece_object] at hq
    rw [piece_object] at hp
    obtain ⟨c, hc, rfl⟩ := ok_of_map_ok hp
    obtain ⟨d, hd, rfl⟩ := ok_of_map_ok hq
    have hpiece : ∀ r ∈ kept pairs, ∀ p q, r.2.piece (level + 1) = .ok p →
        ((g r.2).settled {}).piece (level' + 1) = .ok q → p.copy = q.copy :=
      fun r hr p q => (h r (mem_of_mem_kept hr)).piece
    rw [packPairs_unique (g := fun v => (g v).settled {}) hc hd hpiece]

end Members

/-- A value whose packed parts come from trees tells a tree, if it is told without a fault. -/
theorem exists_unfolded {v : Value} (hv : v.PartsPacked) {slot : Slot}
    (hf : (v.trace slot).fault? = none) : ∃ t, UnfoldsTo slot v t := by
  induction hv generalizing slot with
  | scalar hs => exact ⟨_, unfoldsTo_of_isScalar hs slot⟩
  | binary hv h => exact ⟨_, unfoldsTo_of_pack hv h slot⟩
  | @array raw elems he ih =>
      cases raw with
      | true =>
          match elems, ih, hf with
          | [v], ih, hf =>
              rw [trace] at hf
              obtain ⟨t, ht⟩ := ih v List.mem_cons_self hf
              exact ⟨t, unfoldsTo_raw ht⟩
          | [], _, hf => cases hf
          | _ :: _ :: _, _, hf => cases hf
      | false =>
          rw [trace_array] at hf
          have hf := fault?_of_traceElems (Trace.fault?_append_eq_none hf).1
          choose! g hg using fun v hv => ih v hv (hf v hv)
          exact ⟨_, unfoldsTo_array hg⟩
  | @object pairs hp ih =>
      rw [trace_object] at hf
      have hf := fault?_of_tracePairs (Trace.fault?_append_eq_none hf).1
      have hex : ∀ v, (∃ p ∈ pairs, p.2 = v) → ∃ t, UnfoldsTo .value v t := by
        rintro _ ⟨p, hp, rfl⟩
        exact ih p hp (hf p hp)
      choose! g hg using hex
      exact ⟨_, unfoldsTo_object fun p hp => hg p.2 ⟨p, hp, rfl⟩⟩

end Value

open Value in
/-- A member that a run takes is told without a fault, and the run is one over its events. -/
theorem Builder.run_of_member {o : Options} {raw : Bool} {elems : List Value} {frames : List Frame}
    {v w : Value} {rest : List Event}
    (h : (opened o (.array raw elems :: frames)).run none (.elem v :: rest) = .ok w) :
    (v.trace .elem).fault? = none ∧
      (opened o (.array raw elems :: frames)).run none ((v.trace .elem).events ++ rest) =
        .ok w := by
  have hpush : (opened o (.array raw elems :: frames)).push (.elem v) =
      (opened o (.array raw elems :: frames)).feed none (v.trace .elem) := rfl
  have hc : (opened o (.array raw elems :: frames)).complete = false := rfl
  have hpos : 0 < (opened o (.array raw elems :: frames)).depth := Nat.succ_pos _
  rw [run_none_cons, hpush] at h
  cases hfeed : (opened o (.array raw elems :: frames)).feed none (v.trace .elem) with
  | mk x b =>
      rw [hfeed] at h
      cases x with
      | error f => cases h
      | ok r =>
          obtain ⟨rfl, -⟩ := none_of_feed (v.nests_trace .elem) hc hpos hfeed
          obtain ⟨hf, hp⟩ := pushes_of_feed (v.nests_trace .elem) hc hpos hfeed
          exact ⟨hf, hp.run_append.trans h⟩

/-- An array around one member that builds is one over the events of the member. -/
theorem Builder.build_of_member {o : Options} {v w : Value} {len : Nat}
    (h : build o [.beginArray len false, .elem v, .endArray] = .ok w) :
    (v.trace .elem).fault? = none ∧
      build o (.beginArray len false :: ((v.trace .elem).events ++ [.endArray])) = .ok w := by
  have hbegin : (opened o []).run none [.beginArray len false, .elem v, .endArray] =
      (opened o [.array false []]).run none [.elem v, .endArray] := rfl
  exact run_of_member (hbegin.symm.trans h)

/-- The events of a member, inside an array, build exactly if they are the stream of a tree that may
be told inside one container. -/
theorem Builder.build_around_iff {o : Options} {u : Trace} {t w : Value} (hn : u.Nests 0)
    (ht : u.Tells (t.stream .elem)) (len : Nat) :
    build o (.beginArray len false :: (u.events ++ [.endArray])) = .ok w ↔
      1 ≤ min o.maxChildren maxChildren ∧ t.Buildable o 1 ∧ w = .array false [t.settled o] := by
  have hstream : (Event.beginArray len false :: (u.events ++ [.endArray])).map Event.unhinted =
      (Value.array false [t]).stream .elem := by
    simp [Value.streamElems, ht.events, Event.unhinted]
  constructor
  · intro hbuild
    have hsimple : ∀ e ∈ Event.beginArray len false :: (u.events ++ [.endArray]),
        e.isSimple = true :=
      List.forall_mem_cons.mpr ⟨rfl, List.forall_mem_append.mpr
        ⟨hn.isSimple, List.forall_mem_singleton.mpr rfl⟩⟩
    obtain ⟨hroot, rfl⟩ := buildableRoot_of_build hsimple hstream hbuild
    cases hroot with
    | container _ hb =>
        cases hb with
        | scalar hv => cases hv
        | array _ hone he =>
            rw [Value.settled_array, List.map_singleton]
            exact ⟨hone, he t List.mem_cons_self, rfl⟩
  · rintro ⟨hone, hb, rfl⟩
    have hroot : (Value.array false [t]).BuildableRoot o :=
      .container rfl (.array (by decide) hone (List.forall_mem_singleton.mpr hb))
    have hbuild := build_of_stream hroot hstream (.inl rfl)
    rwa [List.append_nil, Value.settled_array, List.map_singleton] at hbuild

namespace Value

variable {v w : Value} {c d : Container}

theorem build_elem (hv : v.PartsPacked) {len : Nat}
    (h : PackedTree.build {} [.beginArray len false, .elem v, .endArray] = .ok w) :
    ∃ t, UnfoldsTo .elem v t ∧ w = .array false [t.settled {}] := by
  obtain ⟨hf, h⟩ := Builder.build_of_member h
  obtain ⟨t, ht⟩ := exists_unfolded hv hf
  exact ⟨t, ht, ((Builder.build_around_iff (v.nests_trace .elem) ht.tells len).mp h).2.2⟩

/-- If an array of one member packs, and it also builds and what it builds packs, then both
containers have the same bytes, although one copies the packed parts of the member and the other
lays them out anew. -/
theorem bytes_eq_of_build (hv : v.PartsPacked) (hc : (Value.array false [v]).pack = .ok c)
    {len : Nat} (hb : PackedTree.build {} [.beginArray len false, .elem v, .endArray] = .ok w)
    (hd : w.pack = .ok d) : c.bytes = d.bytes := by
  obtain ⟨t, ht, rfl⟩ := build_elem hv hb
  rw [pack, elemPieces_eq_map] at hc hd
  have hpiece : ∀ u ∈ [v], ∀ p q, u.piece (0 + 1) = .ok p →
      (t.settled {}).piece (0 + 1) = .ok q → p.copy = q.copy :=
    List.forall_mem_singleton.mpr fun p q => ht.piece
  rw [packElems_unique (g := fun _ => t.settled {}) hc hd hpiece]

/-- A packed number behind its wrapper and a packed array in a raw wrapper, in an object whose keys
are out of order. -/
theorem bytes_eq_of_build_object :
    ∃ m n w c d, (Value.number ⟨15, 1⟩).pack = .ok m ∧
      (Value.array false [.bool true]).pack = .ok n ∧
      (Value.array false [.object [([98], .binary m), ([97], .array true [.binary n])]]).pack =
        .ok c ∧
      PackedTree.build {} [.beginArray 7 false,
        .elem (.object [([98], .binary m), ([97], .array true [.binary n])]), .endArray] = .ok w ∧
      w.pack = .ok d ∧ c.bytes = d.bytes := by
  let m : Container :=
    ⟨⟨.raw, 1, by decide, fun _ => rfl⟩, [2415919113], [1, 0, 0, 0, 0, 0, 0, 0, 15], rfl⟩
  let n : Container := ⟨⟨.array, 1, by decide, by decide⟩, [2952790016], [], rfl⟩
  have hs : Decimal.storable ⟨15, 1⟩ = true := by decide
  have hu : m.unwrapped = .ok (.number ⟨15, 1⟩) := unwrapped_of_scalar_child rfl rfl rfl
  have hm : (Value.number ⟨15, 1⟩).pack = .ok m := by
    simp only [pack, leafPiece, hs, if_true]
    cbv
  have hn : (Value.array false [.bool true]).pack = .ok n := by cbv
  have hv : (Value.object [([98], .binary m), ([97], .array true [.binary n])]).PartsPacked := by
    refine .object ?_
    rintro p (_ | ⟨_, _ | ⟨_, ⟨⟩⟩⟩)
    · exact .binary rfl hm
    · exact .array (List.forall_mem_singleton.mpr (.binary rfl hn))
  have hc : (Value.array false
      [.object [([98], .binary m), ([97], .array true [.binary n])]]).pack =
        .ok ⟨⟨.array, 1, by decide, by decide⟩, [3489660969],
          [2, 0, 0, 32, 1, 0, 0, 128, 1, 0, 0, 0, 10, 0, 0, 80, 9, 0, 0, 16, 97, 98, 0, 0, 1, 0, 0,
            64, 0, 0, 0, 176, 1, 0, 0, 0, 0, 0, 0, 0, 15], rfl⟩ := by
    simp only [pack, elemPieces, pairPieces, piece, hu, bind, Except.bind, leafPiece, hs,
      if_true]
    cbv
  have hb : PackedTree.build {} [.beginArray 7 false,
      .elem (.object [([98], .binary m), ([97], .array true [.binary n])]), .endArray] =
        .ok (.array false
          [.object [([97], .array false [.bool true]), ([98], .number ⟨15, 1⟩)]]) := by
    cbv
  have hd : (Value.array false
      [.object [([97], .array false [.bool true]), ([98], .number ⟨15, 1⟩)]]).pack =
        .ok ⟨⟨.array, 1, by decide, by decide⟩, [3489660969],
          [2, 0, 0, 32, 1, 0, 0, 128, 1, 0, 0, 0, 10, 0, 0, 80, 9, 0, 0, 16, 97, 98, 0, 0, 1, 0, 0,
            64, 0, 0, 0, 176, 1, 0, 0, 0, 0, 0, 0, 0, 15], rfl⟩ := by
    simp only [pack, elemPieces, pairPieces, piece, leafPiece, hs, if_true]
    cbv
  exact ⟨m, n, _, _, _, hm, hn, hc, hb, hd, bytes_eq_of_build hv hc hb hd⟩

end Value

end PackedTree
