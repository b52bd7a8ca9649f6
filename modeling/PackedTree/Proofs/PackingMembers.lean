import PackedTree.Proofs.LayoutReading
import PackedTree.Proofs.ValueCanonical

/-! # How a value packs

A value without packed parts packs because its members do.  `piece_induction` is induction over
that: a scalar has its own piece, a wrapper has the piece of the value that it wraps, and the
piece of an array or an object is a container around the pieces of its members, of which an
object needs only those that are kept.  `PacksTo` says the same of a whole value.

Packing does not distinguish a value from its canonical form.  What packs as a member packs again
in canonical form, to the same piece and inside no more containers (`piece_canonicalMember`); the
canonical form of a packed value is canonical (`isCanonicalRoot_of_pack`), and it packs to the same
container (`pack_canonical`). -/

namespace PackedTree.Value

/-! ### Pieces of members -/

section Pieces

variable {α β : Type} {f : α → Except Fault β} {as : List α} {bs : List β}

theorem ok_of_map_eq (h : as.map f = bs.map .ok) {a : α} (ha : a ∈ as) : ∃ b, f a = .ok b := by
  have hm := List.mem_map_of_mem (f := f) ha
  rw [h] at hm
  obtain ⟨b, -, hb⟩ := List.mem_map.mp hm
  exact ⟨b, hb.symm⟩

end Pieces

variable {elems : List Value} {pairs : List (Bytes × Value)} {level : Nat} {c : Container}
  {p : Piece}

theorem piece_eq_leafPiece {v : Value} (hv : v.isScalar = true) (level : Nat) :
    v.piece level = v.leafPiece := by
  cases v with
  | null | bool | number | string => simp only [piece]
  | _ => cases hv

/-- The container of an array inside `level` others. -/
def packElems (elems : List Value) (level : Nat) : Except Fault Container :=
  Container.packArray level (elems.map fun v => v.piece (level + 1))

/-- The container of an object inside `level` others. -/
def packPairs (pairs : List (Bytes × Value)) (level : Nat) : Except Fault Container :=
  Container.packObject level (pairs.map fun p => (p.1, p.2.piece (level + 1)))

theorem piece_array (elems : List Value) (level : Nat) :
    (Value.array false elems).piece level =
      (packElems elems level).map .ofContainer := by
  rw [piece, elemPieces_eq_map]
  rfl

theorem piece_object (pairs : List (Bytes × Value)) (level : Nat) :
    (Value.object pairs).piece level =
      (packPairs pairs level).map .ofContainer := by
  rw [piece, pairPieces_eq_map]
  rfl

/-- A raw wrapper has a piece only around one value, and it is the piece of that value. -/
theorem piece_raw (h : (Value.array true elems).piece level = .ok p) :
    ∃ v, elems = [v] ∧ v.piece (level + 1) = .ok p := by
  match elems, h with
  | [v], h => exact ⟨v, rfl, by rwa [piece] at h⟩
  | [], h => cases h
  | _ :: _ :: _, h => cases h

theorem ok_of_map_ok {α : Type} {x : Except Fault Container} {f : Container → α} {a : α}
    (h : x.map f = .ok a) : ∃ c, x = .ok c ∧ a = f c := by
  cases x with
  | error e => cases h
  | ok c => cases h; exact ⟨c, rfl, rfl⟩

theorem ok_of_packElems (h : packElems elems level = .ok c) {v : Value} (hv : v ∈ elems) :
    ∃ p, v.piece (level + 1) = .ok p := by
  obtain ⟨-, -, -, -, ps, hps, -⟩ := Container.packArray_spec h
  exact ok_of_map_eq hps hv

theorem ok_of_packPairs (h : packPairs pairs level = .ok c) {q : Bytes × Value}
    (hq : q ∈ kept pairs) : ∃ p, q.2.piece (level + 1) = .ok p := by
  obtain ⟨-, -, -, -, ps, hps, -⟩ := Container.packObject_spec h
  rw [canonical_map fun v => v.piece (level + 1), List.map_map] at hps
  exact ok_of_map_eq hps hq

/-- Induction over the packing of a member. -/
@[elab_as_elim]
theorem piece_induction {motive : Value → Nat → Piece → Prop}
    (scalar : ∀ {v level p}, v.isScalar = true → v.leafPiece = .ok p → motive v level p)
    (wrapper : ∀ {v level p}, motive v (level + 1) p → motive (.array true [v]) level p)
    (array : ∀ {elems level c}, packElems elems level = .ok c →
      (∀ v ∈ elems, ∀ p, v.piece (level + 1) = .ok p → motive v (level + 1) p) →
      motive (.array false elems) level (.ofContainer c))
    (object : ∀ {pairs level c}, packPairs pairs level = .ok c →
      (∀ q ∈ kept pairs, ∀ p, q.2.piece (level + 1) = .ok p → motive q.2 (level + 1) p) →
      motive (.object pairs) level (.ofContainer c))
    {v : Value} (hv : v.isTree = true) (hp : v.piece level = .ok p) : motive v level p := by
  induction v using induction_on_members generalizing level p with
  | null | bool | number | string =>
      rw [piece_eq_leafPiece rfl] at hp
      exact scalar rfl hp
  | array raw elems ih =>
      cases raw with
      | true =>
          obtain ⟨v, rfl, hp⟩ := piece_raw hp
          have hm := List.mem_singleton_self v
          exact wrapper (ih v hm (isTree_of_mem_elems hv hm) hp)
      | false =>
          rw [piece_array] at hp
          obtain ⟨c, hc, rfl⟩ := ok_of_map_ok hp
          exact array hc fun v hm p hp => ih v hm (isTree_of_mem_elems hv hm) hp
  | object pairs ih =>
      rw [piece_object] at hp
      obtain ⟨c, hc, rfl⟩ := ok_of_map_ok hp
      refine object hc fun q hq p hp => ?_
      have hm := mem_of_mem_kept hq
      exact ih q hm (isTree_of_mem_pairs hv hm) hp
  | binary c => cases hv

/-! ### Whole values -/

theorem holdsScalar_of_isScalar {v : Value} (h : v.isScalar = true) : v.holdsScalar = true := by
  cases v with
  | null | bool | number | string => rfl
  | _ => cases h

theorem holdsScalar_array {raw : Bool} (h : (Value.array raw elems).holdsScalar = true) :
    ∃ v, raw = true ∧ elems = [v] ∧ v.holdsScalar = true := by
  match raw, elems, h with
  | true, [v], h => exact ⟨v, rfl, rfl, by rwa [holdsScalar] at h⟩
  | true, [], h => cases h
  | true, _ :: _ :: _, h => cases h
  | false, _, h => cases h

theorem isScalar_canonicalMember {v : Value} (hv : v.isTree = true) (h : v.holdsScalar = true) :
    v.canonicalMember.isScalar = true := by
  induction v using induction_on_members with
  | null | bool | number | string => rfl
  | array raw elems ih =>
      obtain ⟨v, rfl, rfl, h⟩ := holdsScalar_array h
      have hm := List.mem_singleton_self v
      rw [canonicalMember_raw]
      exact ih v hm (isTree_of_mem_elems hv hm) h
  | object pairs => cases h
  | binary c => cases hv

theorem pack_raw (h : (Value.array true elems).pack = .ok c) :
    ∃ v, elems = [v] ∧ v.holdsScalar = true ∧ Container.packRaw (v.piece 1) = .ok c := by
  match elems, h with
  | [v], h =>
      rw [pack] at h
      split at h
      · next hs => exact ⟨v, rfl, hs, h⟩
      · cases h
  | [], h => cases h
  | _ :: _ :: _, h => cases h

theorem pack_scalar {v : Value} (hv : v.isScalar = true) :
    v.pack = Container.packRaw (v.piece 1) ∧ v.canonical = .array true [v.canonicalMember] := by
  rw [piece_eq_leafPiece hv, canonicalMember_of_isScalar hv]
  cases v with
  | null | bool | number | string => exact ⟨rfl, rfl⟩
  | _ => cases hv

theorem canonical_array (elems : List Value) :
    (Value.array false elems).canonical = .array false (elems.map canonicalMember) := by
  rw [canonical, canonicalMember_array]

theorem canonical_object (pairs : List (Bytes × Value)) :
    (Value.object pairs).canonical =
      .object ((kept pairs).map fun p => (p.1, p.2.canonicalMember)) := by
  rw [canonical, canonicalMember_object]

/-- A whole value packs as a scalar in a wrapper, as an array or as an object. -/
inductive PacksTo : Value → Container → Prop
  | scalar {v w : Value} {p : Piece} {c : Container} (hw : w.isTree = true)
      (hs : w.canonicalMember.isScalar = true) (hp : w.piece 1 = .ok p)
      (hc : v.canonical = .array true [w.canonicalMember])
      (h : Container.packRaw (.ok p) = .ok c) : PacksTo v c
  | array {elems : List Value} {c : Container} (h : packElems elems 0 = .ok c) :
      PacksTo (.array false elems) c
  | object {pairs : List (Bytes × Value)} {c : Container} (h : packPairs pairs 0 = .ok c) :
      PacksTo (.object pairs) c

theorem packsTo_scalar {v : Value} (hv : v.isTree = true) (hs : v.isScalar = true)
    (h : v.pack = .ok c) : v.PacksTo c := by
  obtain ⟨hp, hc⟩ := pack_scalar hs
  rw [hp] at h
  obtain ⟨-, p, hp, -⟩ := Container.packRaw_spec h
  exact .scalar hv (by rwa [canonicalMember_of_isScalar hs]) hp hc (hp ▸ h)

theorem packsTo_of_pack {v : Value} (hv : v.isTree = true) (h : v.pack = .ok c) :
    v.PacksTo c := by
  cases v with
  | null | bool | number | string => exact packsTo_scalar hv rfl h
  | array raw elems =>
      cases raw with
      | true =>
          obtain ⟨w, rfl, hs, h⟩ := pack_raw h
          obtain ⟨-, p, hp, -⟩ := Container.packRaw_spec h
          have hw := isTree_of_mem_elems hv (List.mem_singleton_self w)
          refine .scalar hw (isScalar_canonicalMember hw hs) hp ?_ (hp ▸ h)
          rw [canonical, canonicalElems_eq_map, List.map_singleton]
      | false =>
          rw [pack, elemPieces_eq_map] at h
          exact .array h
  | object pairs =>
      rw [pack, pairPieces_eq_map] at h
      exact .object h
  | binary c => cases hv

/-! ### Packing the members in another form -/

/-- Elements in two forms with the same pieces make the same array, within the limit of depth. -/
theorem packElems_congr {α : Type} {as : List α} {f g : α → Value} {level' : Nat}
    (h : packElems (as.map f) level = .ok c) (hd : level' < maxDepth)
    (ih : ∀ a ∈ as, ∀ p, (f a).piece (level + 1) = .ok p → (g a).piece (level' + 1) = .ok p) :
    packElems (as.map g) level' = .ok c := by
  have heq : ((as.map g).map fun v => v.piece (level' + 1)) =
      (as.map f).map fun v => v.piece (level + 1) := by
    rw [List.map_map, List.map_map]
    refine List.map_congr_left fun a ha => ?_
    obtain ⟨p, hp⟩ := ok_of_packElems h (List.mem_map_of_mem ha)
    exact (ih a ha p hp).trans hp.symm
  unfold packElems
  rw [heq]
  exact Container.packArray_of_lt h hd

theorem packPairs_congr {f g : Value → Value} {level' : Nat}
    (h : packPairs ((kept pairs).map fun p => (p.1, f p.2)) level = .ok c) (hd : level' < maxDepth)
    (ih : ∀ q ∈ kept pairs, ∀ p, (f q.2).piece (level + 1) = .ok p →
      (g q.2).piece (level' + 1) = .ok p) :
    packPairs ((kept pairs).map fun p => (p.1, g p.2)) level' = .ok c := by
  have hkept := kept_of_ascending (ascending_kept f pairs)
  have heq : (((kept pairs).map fun p => (p.1, g p.2)).map fun p =>
      (p.1, p.2.piece (level' + 1))) =
        ((kept pairs).map fun p => (p.1, f p.2)).map fun p => (p.1, p.2.piece (level + 1)) := by
    rw [List.map_map, List.map_map]
    refine List.map_congr_left fun q hq => ?_
    have hm : (q.1, f q.2) ∈ kept ((kept pairs).map fun p => (p.1, f p.2)) := by
      rw [hkept]
      exact List.mem_map_of_mem hq
    obtain ⟨p, hp⟩ := ok_of_packPairs h hm
    exact congrArg (Prod.mk q.1) ((ih q hq p hp).trans hp.symm)
  unfold packPairs
  rw [heq]
  exact Container.packObject_of_lt h hd

theorem packPairs_kept (pairs : List (Bytes × Value)) (level : Nat) :
    packPairs (kept pairs) level = packPairs pairs level := by
  have hkept := kept_of_ascending (Keyed.ascending_written Bytes.keyCompare pairs)
  have heq : Keyed.canonical Bytes.keyCompare
      ((kept pairs).map fun p => (p.1, p.2.piece (level + 1))) =
        Keyed.canonical Bytes.keyCompare (pairs.map fun p => (p.1, p.2.piece (level + 1))) := by
    rw [canonical_map fun v => v.piece (level + 1), canonical_map fun v => v.piece (level + 1)]
    exact congrArg _ hkept
  simp only [packPairs, Container.packObject, heq]

/-- Elements that turn into others with the same pieces make the same array, also inside fewer
containers. -/
theorem packElems_map {g : Value → Value} {level' : Nat} (h : packElems elems level = .ok c)
    (ih : ∀ v ∈ elems, ∀ p, v.piece (level + 1) = .ok p → ∀ l ≤ level + 1, (g v).piece l = .ok p)
    (hl : level' ≤ level) : packElems (elems.map g) level' = .ok c := by
  have hd := (Container.packArray_spec h).1
  rw [← List.map_id elems] at h
  exact packElems_congr h (Nat.lt_of_le_of_lt hl hd) fun v hv p hp =>
    ih v hv p hp _ (Nat.succ_le_succ hl)

theorem packPairs_map {g : Value → Value} {level' : Nat} (h : packPairs pairs level = .ok c)
    (ih : ∀ q ∈ kept pairs, ∀ p, q.2.piece (level + 1) = .ok p → ∀ l ≤ level + 1,
      (g q.2).piece l = .ok p) (hl : level' ≤ level) :
    packPairs ((kept pairs).map fun p => (p.1, g p.2)) level' = .ok c := by
  have hd := (Container.packObject_spec h).1
  have hid : (kept pairs).map (fun p => (p.1, id p.2)) = kept pairs := List.map_id _
  rw [← packPairs_kept, ← hid] at h
  exact packPairs_congr h (Nat.lt_of_le_of_lt hl hd) fun q hq p hp =>
    ih q hq p hp _ (Nat.succ_le_succ hl)

theorem piece_of_le {v : Value} (hv : v.isTree = true) (hp : v.piece level = .ok p) :
    ∀ level' ≤ level, v.piece level' = .ok p := by
  refine piece_induction ?_ ?_ ?_ ?_ hv hp
  · intro v level p hs hp level' _
    rw [piece_eq_leafPiece hs, hp]
  · intro v level p ih level' hl
    rw [piece]
    exact ih _ (Nat.succ_le_succ hl)
  · intro elems level c hc ih level' hl
    have hpack := packElems_map (g := id) hc ih hl
    rw [List.map_id] at hpack
    rw [piece_array, hpack]
    rfl
  · intro pairs level c hc ih level' hl
    have hpack : packPairs ((kept pairs).map id) level' = .ok c :=
      packPairs_map (g := id) hc ih hl
    rw [List.map_id, packPairs_kept] at hpack
    rw [piece_object, hpack]
    rfl

/-! ### Packing the canonical form -/

/-- What packs as a member packs again in canonical form, also inside fewer containers. -/
theorem piece_canonicalMember {v : Value} (hv : v.isTree = true) (hp : v.piece level = .ok p) :
    ∀ level' ≤ level, v.canonicalMember.piece level' = .ok p := by
  refine piece_induction ?_ ?_ ?_ ?_ hv hp
  · intro v level p hs hp level' _
    rw [canonicalMember_of_isScalar hs, piece_eq_leafPiece hs, hp]
  · intro v level p ih level' hl
    rw [canonicalMember_raw]
    exact ih level' (Nat.le_succ_of_le hl)
  · intro elems level c hc ih level' hl
    rw [canonicalMember_array, piece_array, packElems_map hc ih hl]
    rfl
  · intro pairs level c hc ih level' hl
    rw [canonicalMember_object, piece_object, packPairs_map hc ih hl]
    rfl

theorem pack_canonical {v : Value} (hv : v.isTree = true) (h : v.pack = .ok c) :
    v.canonical.pack = .ok c := by
  cases packsTo_of_pack hv h with
  | scalar hw hs hp hc h =>
      rw [hc, pack, if_pos (holdsScalar_of_isScalar hs),
        piece_canonicalMember hw hp 1 (Nat.le_refl 1), h]
  | array h =>
      rw [canonical_array, pack, elemPieces_eq_map]
      refine packElems_map h (fun v hm p hp => ?_) (Nat.le_refl 0)
      exact piece_canonicalMember (isTree_of_mem_elems hv hm) hp
  | object h =>
      rw [canonical_object, pack, pairPieces_eq_map]
      refine packPairs_map h (fun q hq p hp => ?_) (Nat.le_refl 0)
      exact piece_canonicalMember (isTree_of_mem_pairs hv (mem_of_mem_kept hq)) hp

/-! ### The canonical form is canonical -/

theorem isCanonical_of_packElems (h : packElems elems level = .ok c)
    (ih : ∀ v ∈ elems, ∀ p, v.piece (level + 1) = .ok p → v.canonicalMember.IsCanonical) :
    (Value.array false (elems.map canonicalMember)).IsCanonical := by
  refine .array (List.forall_mem_map.mpr fun v hv => ?_)
  obtain ⟨p, hp⟩ := ok_of_packElems h hv
  exact ih v hv p hp

theorem isCanonical_of_packPairs (h : packPairs pairs level = .ok c)
    (ih : ∀ q ∈ kept pairs, ∀ p, q.2.piece (level + 1) = .ok p →
      q.2.canonicalMember.IsCanonical) :
    (Value.object ((kept pairs).map fun p => (p.1, p.2.canonicalMember))).IsCanonical := by
  refine .object (ascending_kept canonicalMember pairs) (List.forall_mem_map.mpr fun q hq => ?_)
  obtain ⟨p, hp⟩ := ok_of_packPairs h hq
  exact ih q hq p hp

theorem isCanonical_canonicalMember {v : Value} (hv : v.isTree = true)
    (hp : v.piece level = .ok p) : v.canonicalMember.IsCanonical := by
  refine piece_induction ?_ ?_ ?_ ?_ hv hp
  · intro v level p hs _
    rw [canonicalMember_of_isScalar hs]
    exact .scalar hs
  · intro v level p ih
    rwa [canonicalMember_raw]
  · intro elems level c hc ih
    rw [canonicalMember_array]
    exact isCanonical_of_packElems hc ih
  · intro pairs level c hc ih
    rw [canonicalMember_object]
    exact isCanonical_of_packPairs hc ih

theorem isCanonicalRoot_of_pack {v : Value} (hv : v.isTree = true) (h : v.pack = .ok c) :
    v.canonical.IsCanonicalRoot := by
  cases packsTo_of_pack hv h with
  | scalar hw hs hp hc h =>
      rw [hc]
      exact ⟨_, rfl, hs⟩
  | array h =>
      rw [canonical_array]
      refine ⟨rfl, isCanonical_of_packElems h fun v hm p hp => ?_⟩
      exact isCanonical_canonicalMember (isTree_of_mem_elems hv hm) hp
  | object h =>
      rw [canonical_object]
      refine ⟨rfl, isCanonical_of_packPairs h fun q hq p hp => ?_⟩
      exact isCanonical_canonicalMember (isTree_of_mem_pairs hv (mem_of_mem_kept hq)) hp

end PackedTree.Value
