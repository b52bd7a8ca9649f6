import PackedTree.Proofs.MemberForms

/-! # Which members an array accepts

A value gets into an array in two ways: the array is packed with the value in it, or a builder takes
the value as a member, and what it builds is packed.  Both look through raw wrappers.  For a builder
a tree is the tree without its wrappers, `Value.loose`: it is told the same (`trace_loose`), and it
is taken exactly if the limits allow that tree (`build_elem_iff`).

Packing sees less than a builder.  A builder is told every pair of an object, while packing drops
those that a later pair replaces before it looks at them; `DropsTellable` says that nothing which is
dropped would be refused.  With that, what packs also builds (`buildable_loose`).  On the other hand
packing counts wrappers as levels; `Shallow` says that the tree is not too deep with them.  With
that, what builds packs to the same pieces (`piece_of_canonicalMember`).
`pack_agrees_with_build` puts both directions together. -/

namespace PackedTree

namespace Value

variable {v w : Value} {elems : List Value} {pairs : List (Bytes × Value)} {level level' : Nat}
  {c d : Container} {p : Piece}

/-! ### Without wrappers at any depth -/

mutual

/-- A value without the raw wrappers around it and around everything in it. -/
def loose : Value → Value
  | .array true [v] => v.loose
  | .array raw elems => .array raw (looseElems elems)
  | .object pairs => .object (loosePairs pairs)
  | v => v

def looseElems : List Value → List Value
  | [] => []
  | v :: vs => v.loose :: looseElems vs

def loosePairs : List (Bytes × Value) → List (Bytes × Value)
  | [] => []
  | (k, v) :: ps => (k, v.loose) :: loosePairs ps

end

theorem looseElems_eq_map (elems : List Value) : looseElems elems = elems.map loose := by
  induction elems with
  | nil => rfl
  | cons v vs ih => rw [looseElems, ih, List.map_cons]

theorem loosePairs_eq_map (pairs : List (Bytes × Value)) :
    loosePairs pairs = pairs.map fun p => (p.1, p.2.loose) := by
  induction pairs with
  | nil => rfl
  | cons p ps ih => rw [loosePairs, ih, List.map_cons]

theorem loose_raw (v : Value) : (Value.array true [v]).loose = v.loose := by rw [loose]

theorem loose_array (elems : List Value) :
    (Value.array false elems).loose = .array false (elems.map loose) := by
  rw [loose, looseElems_eq_map]
  nofun

theorem loose_object (pairs : List (Bytes × Value)) :
    (Value.object pairs).loose = .object (pairs.map fun p => (p.1, p.2.loose)) := by
  rw [loose, loosePairs_eq_map]

theorem loose_of_isScalar (hv : v.isScalar = true) : v.loose = v := by
  cases v with
  | null | bool | number | string => simp only [loose]
  | _ => cases hv

theorem not_buildable_raw {o : Options} (h : (Value.array true elems).Buildable o level) :
    False := by
  cases h with
  | scalar hs => cases hs

theorem singleton_of_buildable_loose {o : Options}
    (h : (Value.array true elems).loose.Buildable o level) : ∃ v, elems = [v] := by
  match elems, h with
  | [v], _ => exact ⟨v, rfl⟩
  | [], h => exact (not_buildable_raw h).elim
  | _ :: _ :: _, h => exact (not_buildable_raw h).elim

/-- Without its wrappers a value that may be told amounts to its canonical form. -/
theorem settled_loose {o : Options} (hb : v.loose.Buildable o level) :
    v.loose.settled {} = v.canonicalMember := by
  induction v using induction_on_members generalizing level with
  | null | bool | number | string =>
      rw [loose_of_isScalar rfl, settled_of_isScalar {} rfl, canonicalMember_of_isScalar rfl]
  | array raw elems ih =>
      cases raw with
      | true =>
          obtain ⟨v, rfl⟩ := singleton_of_buildable_loose hb
          rw [loose_raw] at hb ⊢
          rw [canonicalMember_raw]
          exact ih v (List.mem_singleton_self v) hb
      | false =>
          rw [loose_array] at hb ⊢
          cases hb with
          | scalar hs => cases hs
          | array _ _ he =>
              rw [settled_array, canonicalMember_array, List.map_map]
              congr 1
              exact List.map_congr_left fun v hv => ih v hv (he _ (List.mem_map_of_mem hv))
  | object pairs ih =>
      rw [loose_object] at hb ⊢
      cases hb with
      | scalar hs => cases hs
      | object _ _ _ hp =>
          have hstay : staying {} ((pairs.map fun p => (p.1, p.2.loose)).map fun p =>
              (p.1, p.2.settled {})) = (kept pairs).map fun p => (p.1, p.2.loose.settled {}) := by
            rw [List.map_map]
            exact Keyed.written_map Bytes.keyCompare (fun v => v.loose.settled {}) pairs
          rw [settled_object, canonicalMember_object, hstay]
          congr 1
          refine List.map_congr_left fun p hp' => ?_
          have hm := mem_of_mem_kept hp'
          have hmember := hp _ (List.mem_map_of_mem (f := fun p => (p.1, p.2.loose)) hm)
          rw [ih p hm hmember]
  | binary c =>
      cases (show (Value.binary c).Buildable o level from hb) with
      | scalar hs => cases hs

theorem tells_loose (hv : v.isTree = true) {slot : Slot} (hf : (v.trace slot).fault? = none) :
    (v.trace slot).Tells (v.loose.stream slot) := by
  induction v using induction_on_members generalizing slot with
  | null | bool | number | string =>
      rw [loose_of_isScalar rfl]
      exact (unfoldsTo_of_isScalar rfl slot).tells
  | array raw elems ih =>
      cases raw with
      | true =>
          match elems, ih, hv, hf with
          | [v], ih, hv, hf =>
              have hm := List.mem_singleton_self v
              rw [trace] at hf
              rw [trace, loose_raw]
              exact ih v hm (isTree_of_mem_elems hv hm) hf
          | [], _, _, hf => cases hf
          | _ :: _ :: _, _, _, hf => cases hf
      | false =>
          rw [trace_array] at hf
          have hf := fault?_of_traceElems (Trace.fault?_append_eq_none hf).1
          have htells := tells_elems fun v hm => ih v hm (isTree_of_mem_elems hv hm) (hf v hm)
          rw [trace_array, loose_array, stream_array]
          exact .next _ (htells.append (.next _ .finished))
  | object pairs ih =>
      rw [trace_object] at hf
      have hf := fault?_of_tracePairs (Trace.fault?_append_eq_none hf).1
      have htells := tells_pairs fun p hm => ih p hm (isTree_of_mem_pairs hv hm) (hf p hm)
      rw [trace_object, loose_object, stream_object]
      exact .next _ (htells.append (.next _ .finished))
  | binary c => cases hv

theorem trace_loose (v : Value) (slot : Slot) : v.loose.trace slot = v.trace slot := by
  induction v using induction_on_members generalizing slot with
  | null | bool | number | string => rw [loose_of_isScalar rfl]
  | array raw elems ih =>
      cases raw with
      | true =>
          match elems, ih with
          | [v], ih =>
              rw [loose_raw, trace]
              exact ih v (List.mem_singleton_self v) slot
          | [], _ => rfl
          | _ :: _ :: _, _ => rfl
      | false =>
          have helems : traceElems (elems.map loose) = traceElems elems := by
            induction elems with
            | nil => rfl
            | cons v vs ih' =>
                obtain ⟨hv, hvs⟩ := List.forall_mem_cons.mp ih
                rw [List.map_cons, traceElems, traceElems, hv .elem, ih' hvs]
          rw [loose_array, trace_array, trace_array, helems, List.length_map]
  | object pairs ih =>
      have hpairs : tracePairs (pairs.map fun p => (p.1, p.2.loose)) = tracePairs pairs := by
        induction pairs with
        | nil => rfl
        | cons p ps ih' =>
            obtain ⟨hp, hps⟩ := List.forall_mem_cons.mp ih
            rw [List.map_cons, tracePairs, tracePairs, hp .value, ih' hps]
      rw [loose_object, trace_object, trace_object, hpairs, List.length_map]
  | binary c => rfl

/-! ### Building an array of one member -/

/-- An array of one member is built exactly if the member may be told without its wrappers, and it
is built around what that amounts to. -/
theorem build_loose_iff {o : Options} (hv : v.isTree = true) (len : Nat) :
    PackedTree.build o [.beginArray len false, .elem v, .endArray] = .ok w ↔
      1 ≤ min o.maxChildren maxChildren ∧ v.loose.Buildable o 1 ∧
        w = .array false [v.loose.settled o] := by
  constructor
  · intro h
    obtain ⟨hf, h⟩ := Builder.build_of_member h
    exact (Builder.build_around_iff (v.nests_trace .elem) (tells_loose hv hf) len).mp h
  · intro h
    have htells := tells_stream h.2.1 .elem
    rw [trace_loose] at htells
    have hinside : (Builder.opened o [.array false []]).Inside .elem := ⟨rfl, rfl⟩
    refine Eq.trans ?_ ((Builder.build_around_iff (v.nests_trace .elem) htells len).mpr h)
    exact hinside.run_member htells.fault? [.endArray]

theorem build_elem_iff (hv : v.isTree = true) (len : Nat) :
    PackedTree.build {} [.beginArray len false, .elem v, .endArray] = .ok w ↔
      v.loose.Buildable {} 1 ∧ w = .array false [v.canonicalMember] := by
  rw [build_loose_iff hv len, and_iff_right (by decide)]
  refine and_congr_right fun hb => ?_
  rw [settled_loose hb]

/-! ### Values that are dropped -/

/-- What the objects of a value drop, because a later pair has the same key, may be told where it
stands, and no object has more pairs than may be told. -/
inductive DropsTellable : Nat → Value → Prop
  | scalar {level : Nat} {v : Value} (hv : v.isScalar = true) : DropsTellable level v
  | wrapper {level : Nat} {v : Value} (h : DropsTellable level v) :
      DropsTellable level (.array true [v])
  | array {level : Nat} {elems : List Value} (he : ∀ v ∈ elems, DropsTellable (level + 1) v) :
      DropsTellable level (.array false elems)
  | object {level : Nat} {pairs : List (Bytes × Value)} (hn : pairs.length ≤ maxChildren)
      (hk : ∀ q ∈ kept pairs, DropsTellable (level + 1) q.2)
      (hd : ∀ q ∈ pairs, q ∉ kept pairs → q.2.loose.Buildable {} (level + 1)) :
      DropsTellable level (.object pairs)

theorem dropsTellable_of_buildable (hv : v.isTree = true) (hb : v.loose.Buildable {} level) :
    v.DropsTellable level := by
  induction v using induction_on_members generalizing level with
  | null | bool | number | string => exact .scalar rfl
  | array raw elems ih =>
      cases raw with
      | true =>
          obtain ⟨v, rfl⟩ := singleton_of_buildable_loose hb
          have hm := List.mem_singleton_self v
          rw [loose_raw] at hb
          exact .wrapper (ih v hm (isTree_of_mem_elems hv hm) hb)
      | false =>
          rw [loose_array] at hb
          cases hb with
          | scalar hs => cases hs
          | array _ _ he =>
              exact .array fun v hm =>
                ih v hm (isTree_of_mem_elems hv hm) (he _ (List.mem_map_of_mem hm))
  | object pairs ih =>
      rw [loose_object] at hb
      cases hb with
      | scalar hs => cases hs
      | object _ hn _ hp =>
          have hvalue : ∀ q ∈ pairs, q.2.loose.Buildable {} (level + 1) := fun q hq =>
            hp _ (List.mem_map_of_mem (f := fun p => (p.1, p.2.loose)) hq)
          rw [List.length_map] at hn
          refine .object (hn.trans (Nat.min_le_right _ _)) (fun q hq => ?_)
            fun q hq _ => hvalue q hq
          have hm := mem_of_mem_kept hq
          exact ih q hm (isTree_of_mem_pairs hv hm) (hvalue q hm)
  | binary c => cases hv

/-- What packs may be told without its wrappers, if that is so for what it drops.  The wrappers
count as containers only where it packs. -/
theorem buildable_loose (hd : v.DropsTellable level) (hp : v.piece level' = .ok p)
    (hl : level ≤ level') : v.loose.Buildable {} level := by
  induction hd generalizing level' p with
  | scalar hs =>
      rw [loose_of_isScalar hs]
      exact .scalar hs
  | wrapper _ ih =>
      rw [loose_raw]
      rw [piece] at hp
      exact ih hp (Nat.le_succ_of_le hl)
  | array _ ih =>
      rw [piece_array] at hp
      obtain ⟨c, hc, rfl⟩ := ok_of_map_ok hp
      obtain ⟨hdepth, hn, -⟩ := Container.packArray_spec hc
      rw [List.length_map] at hn
      rw [loose_array]
      refine .array (Nat.lt_of_le_of_lt hl hdepth) ?_ (List.forall_mem_map.mpr fun v hv => ?_)
      · rw [List.length_map]
        exact Nat.le_min.mpr ⟨hn, hn⟩
      · obtain ⟨p, hp⟩ := ok_of_packElems hc hv
        exact ih v hv hp (Nat.succ_le_succ hl)
  | @object _ pairs hn _ hdropped ih =>
      rw [piece_object] at hp
      obtain ⟨c, hc, rfl⟩ := ok_of_map_ok hp
      have hdepth := (Container.packObject_spec hc).1
      rw [loose_object]
      refine .object (Nat.lt_of_le_of_lt hl hdepth) ?_ (fun hu => by cases hu)
        (List.forall_mem_map.mpr fun q hq => ?_)
      · rw [List.length_map]
        exact Nat.le_min.mpr ⟨hn, hn⟩
      · by_cases hk : q ∈ kept pairs
        · obtain ⟨p, hp⟩ := ok_of_packPairs hc hk
          exact ih q hk hp (Nat.succ_le_succ hl)
        · exact hdropped q hq hk

/-! ### Depth with wrappers -/

/-- Inside `level` arrays, objects and wrappers, no array or object of the value that is kept stands
inside more of them than the limit of depth allows. -/
inductive Shallow : Nat → Value → Prop
  | scalar {level : Nat} {v : Value} (hv : v.isScalar = true) : Shallow level v
  | wrapper {level : Nat} {v : Value} (h : Shallow (level + 1) v) : Shallow level (.array true [v])
  | array {level : Nat} {elems : List Value} (hd : level < maxDepth)
      (he : ∀ v ∈ elems, Shallow (level + 1) v) : Shallow level (.array false elems)
  | object {level : Nat} {pairs : List (Bytes × Value)} (hd : level < maxDepth)
      (hk : ∀ q ∈ kept pairs, Shallow (level + 1) q.2) : Shallow level (.object pairs)

/-- Packing looks at the depth of all that is kept. -/
theorem shallow_of_piece (hv : v.isTree = true) (hp : v.piece level = .ok p) :
    v.Shallow level := by
  induction v using induction_on_members generalizing level p with
  | null | bool | number | string => exact .scalar rfl
  | array raw elems ih =>
      cases raw with
      | true =>
          obtain ⟨v, rfl, hp⟩ := piece_raw hp
          have hm := List.mem_singleton_self v
          exact .wrapper (ih v hm (isTree_of_mem_elems hv hm) hp)
      | false =>
          rw [piece_array] at hp
          obtain ⟨c, hc, rfl⟩ := ok_of_map_ok hp
          refine .array (Container.packArray_spec hc).1 fun v hm => ?_
          obtain ⟨p, hp⟩ := ok_of_packElems hc hm
          exact ih v hm (isTree_of_mem_elems hv hm) hp
  | object pairs ih =>
      rw [piece_object] at hp
      obtain ⟨c, hc, rfl⟩ := ok_of_map_ok hp
      refine .object (Container.packObject_spec hc).1 fun q hq => ?_
      obtain ⟨p, hp⟩ := ok_of_packPairs hc hq
      have hm := mem_of_mem_kept hq
      exact ih q hm (isTree_of_mem_pairs hv hm) hp
  | binary c => cases hv

/-- A value that is not too deep has the piece that its canonical form has. -/
theorem piece_of_canonicalMember (hs : v.Shallow level')
    (hp : v.canonicalMember.piece level = .ok p) : v.piece level' = .ok p := by
  induction hs generalizing level p with
  | scalar hv =>
      rw [canonicalMember_of_isScalar hv, piece_eq_leafPiece hv] at hp
      rw [piece_eq_leafPiece hv, hp]
  | wrapper _ ih =>
      rw [canonicalMember_raw] at hp
      rw [piece]
      exact ih hp
  | array hd _ ih =>
      rw [canonicalMember_array, piece_array] at hp
      obtain ⟨c, hc, rfl⟩ := ok_of_map_ok hp
      have hpack := packElems_congr (g := id) hc hd fun v hv p hp => ih v hv hp
      rw [List.map_id] at hpack
      rw [piece_array, hpack]
      rfl
  | object hd _ ih =>
      rw [canonicalMember_object, piece_object] at hp
      obtain ⟨c, hc, rfl⟩ := ok_of_map_ok hp
      have hpack : packPairs ((kept _).map id) _ = .ok c :=
        packPairs_congr (g := id) hc hd fun q hq p hp => ih q hq hp
      rw [List.map_id, packPairs_kept] at hpack
      rw [piece_object, hpack]
      rfl

/-! ### The same values -/

/-- For a tree as the member of an array: if the array packs, then it also builds to what packs,
exactly if what the tree drops may be told.  And if it builds to what packs, then what the tree
drops may be told, and the array itself packs to the same container, exactly if the tree is not too
deep with its wrappers counted. -/
theorem pack_agrees_with_build (hv : v.isTree = true) (len : Nat) :
    (∀ c, (Value.array false [v]).pack = .ok c →
      ((∃ w d, PackedTree.build {} [.beginArray len false, .elem v, .endArray] = .ok w ∧
        w.pack = .ok d) ↔ v.DropsTellable 1)) ∧
    ∀ w d, PackedTree.build {} [.beginArray len false, .elem v, .endArray] = .ok w →
      w.pack = .ok d →
        v.DropsTellable 1 ∧ ((Value.array false [v]).pack = .ok d ↔ v.Shallow 1) := by
  have hdrops : ∀ w, PackedTree.build {} [.beginArray len false, .elem v, .endArray] = .ok w →
      v.DropsTellable 1 := fun w h =>
    dropsTellable_of_buildable hv ((build_elem_iff hv len).mp h).1
  refine ⟨fun c hc => ⟨?_, fun hd => ?_⟩, fun w d h hd => ⟨hdrops w h, fun hc => ?_, fun hs => ?_⟩⟩
  · rintro ⟨w, -, h, -⟩
    exact hdrops w h
  · have htree : (Value.array false [v]).isTree = true :=
      isTree_array false (List.forall_mem_singleton.mpr hv)
    have hcanonical := pack_canonical htree hc
    rw [canonical_array, List.map_singleton] at hcanonical
    rw [pack, elemPieces_eq_map] at hc
    obtain ⟨p, hp⟩ := ok_of_packElems hc (List.mem_singleton_self v)
    have hb := buildable_loose hd hp (Nat.le_refl 1)
    exact ⟨_, c, (build_elem_iff hv len).mpr ⟨hb, rfl⟩, hcanonical⟩
  · rw [pack, elemPieces_eq_map] at hc
    obtain ⟨p, hp⟩ := ok_of_packElems hc (List.mem_singleton_self v)
    exact shallow_of_piece hv hp
  · obtain ⟨-, rfl⟩ := (build_elem_iff hv len).mp h
    rw [pack, elemPieces_eq_map] at hd ⊢
    have hpack : packElems ([v].map canonicalMember) 0 = .ok d := hd
    exact packElems_congr (g := id) hpack (by decide) (List.forall_mem_singleton.mpr fun p hp =>
      piece_of_canonicalMember hs hp)

/-- The value that is dropped may be told, and so both ways lead to the same container. -/
theorem pack_agrees_with_build_replaced :
    let v : Value := .object [([97], .array true [.bool true]), ([97], .array true [.null])]
    v.DropsTellable 1 ∧ ∃ c w, (Value.array false [v]).pack = .ok c ∧
      PackedTree.build {} [.beginArray 0 false, .elem v, .endArray] = .ok w ∧ w.pack = .ok c := by
  intro v
  let c : Container := ⟨⟨.array, 1, by decide, by decide⟩, [3489660941],
    [1, 0, 0, 32, 1, 0, 0, 128, 0, 0, 0, 64, 97], rfl⟩
  have hb : PackedTree.build {} [.beginArray 0 false, .elem v, .endArray] =
      .ok (.array false [.object [([97], .null)]]) := by cbv
  have hc : (Value.array false [.object [([97], .null)]]).pack = .ok c := by cbv
  have hkept : kept [([97], Value.array true [.bool true]), ([97], .array true [.null])] =
      [([97], .array true [.null])] := by cbv
  have hs : v.Shallow 1 := by
    refine .object (by decide) ?_
    rw [hkept]
    exact List.forall_mem_singleton.mpr (.wrapper (.scalar rfl))
  obtain ⟨hd, hpack⟩ := (pack_agrees_with_build (v := v) rfl 0).2 _ c hb hc
  exact ⟨hd, c, _, hpack.mpr hs, hb, hc⟩

def wrapped : Nat → Value → Value
  | 0, v => v
  | n + 1, v => .array true [wrapped n v]

theorem isTree_wrapped (hv : v.isTree = true) (n : Nat) : (wrapped n v).isTree = true := by
  induction n with
  | zero => exact hv
  | succ n ih => exact isTree_array true (List.forall_mem_singleton.mpr ih)

theorem loose_wrapped (v : Value) (n : Nat) : (wrapped n v).loose = v.loose := by
  induction n with
  | zero => rfl
  | succ n ih => rw [wrapped, loose_raw, ih]

theorem canonicalMember_wrapped (v : Value) (n : Nat) :
    (wrapped n v).canonicalMember = v.canonicalMember := by
  induction n with
  | zero => rfl
  | succ n ih => rw [wrapped, canonicalMember_raw, ih]

theorem shallow_of_wrapped {n : Nat} (h : (wrapped n v).Shallow level) :
    v.Shallow (level + n) := by
  induction n generalizing level with
  | zero => exact h
  | succ n ih =>
      cases h with
      | scalar hs => cases hs
      | wrapper h =>
          have hinner := ih h
          rwa [Nat.add_assoc, Nat.add_comm 1 n] at hinner

/-- A wrapper around nothing is no harm to packing where a later pair has the same key, but it may
not be told.  An array in 511 wrappers may be told, but it is too deep to be packed. -/
theorem pack_differs_from_build :
    let dropping : Value := .object [([97], .array true []), ([97], .null)]
    let deep : Value := wrapped 511 (.array false [])
    (dropping.isTree = true ∧ (∃ c, (Value.array false [dropping]).pack = .ok c) ∧
      PackedTree.build {} [.beginArray 0 false, .elem dropping, .endArray] =
        .error (.unexpected .value .rawSize)) ∧
    deep.isTree = true ∧ (∀ c, (Value.array false [deep]).pack ≠ .ok c) ∧
      ∃ w d, PackedTree.build {} [.beginArray 0 false, .elem deep, .endArray] = .ok w ∧
        w.pack = .ok d := by
  intro dropping deep
  have hpack : (Value.array false [dropping]).pack =
      .ok ⟨⟨.array, 1, by decide, by decide⟩, [3489660941],
        [1, 0, 0, 32, 1, 0, 0, 128, 0, 0, 0, 64, 97], rfl⟩ := by cbv
  have htree : deep.isTree = true := isTree_wrapped rfl 511
  refine ⟨⟨rfl, ⟨_, hpack⟩, by cbv⟩, htree, fun c hc => ?_, ?_⟩
  · rw [pack, elemPieces_eq_map] at hc
    obtain ⟨p, hp⟩ := ok_of_packElems hc (List.mem_singleton_self deep)
    cases shallow_of_wrapped (shallow_of_piece htree hp) with
    | scalar hs => cases hs
    | array hd => exact absurd hd (by decide)
  · have hb : deep.loose.Buildable {} 1 := by
      rw [loose_wrapped, loose_array]
      exact .array (by decide) (Nat.zero_le _) (List.forall_mem_nil _)
    have hcanonical : deep.canonicalMember = .array false [] := by
      rw [canonicalMember_wrapped, canonicalMember_array, List.map_nil]
    have hd : (Value.array false [.array false []]).pack =
        .ok ⟨⟨.array, 1, by decide, by decide⟩, [3489660932], [0, 0, 0, 64], rfl⟩ := by cbv
    rw [← hcanonical] at hd
    exact ⟨_, _, (build_elem_iff htree 0).mpr ⟨hb, rfl⟩, hd⟩

end Value

end PackedTree
