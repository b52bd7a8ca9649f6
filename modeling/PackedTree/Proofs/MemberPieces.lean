import PackedTree.Proofs.PackingTrace
import PackedTree.Proofs.WholeContainers

/-! # The members of a packed value

A member is stored without the raw wrappers around it (`Value.bare`): a scalar as its own piece, an
array or object as the bytes that it packs to (`exists_held`).  `Value.StoredIn` says where the
pieces of the members are: the elements of an array from the first position on, and the values that
an object keeps behind its keys.  Read as a child, each of them holds its member
(`StoredIn.exists_child`).

So what is held in a packed value, however deep, was packed from a value itself
(`Container.IsPacked.of_reaches`). -/

namespace PackedTree

namespace Value

variable {elems : List Value} {pairs : List (Bytes × Value)} {level : Nat} {c : Container}
  {p : Piece} {v x : Value}

/-! ### Without wrappers -/

/-- A value without the raw wrappers around it. -/
def bare : Value → Value
  | .array true [v] => v.bare
  | v => v

theorem bare_raw (v : Value) : (Value.array true [v]).bare = v.bare := by rw [bare]

theorem isTree_bare (hv : v.isTree = true) : v.bare.isTree = true := by
  fun_induction bare v with
  | case1 v ih => exact ih (isTree_of_mem_elems hv (List.mem_singleton_self v))
  | case2 v => exact hv

/-- What holds a scalar is one without its wrappers, or a packed wrapper. -/
theorem bare_of_holdsScalar (h : v.holdsScalar = true) :
    v.bare.isScalar = true ∨ ∃ c, v.bare = .binary c ∧ c.isRaw = true := by
  fun_induction bare v with
  | case1 v ih => exact ih (by rwa [holdsScalar] at h)
  | case2 v hne =>
      cases v with
      | null | bool | number | string => exact .inl rfl
      | array raw elems =>
          obtain ⟨w, rfl, rfl, -⟩ := holdsScalar_array h
          exact absurd rfl (hne w)
      | object pairs => cases h
      | binary c => exact .inr ⟨c, rfl, h⟩

/-- A wrapper packs only around a scalar, so any other tree that packs has no wrapper. -/
theorem bare_of_pack (hv : v.isTree = true) (h : v.pack = .ok c) (hs : v.bare.isScalar = false) :
    v.bare = v := by
  cases v with
  | array raw elems =>
      cases raw with
      | true =>
          obtain ⟨w, rfl, hw, -⟩ := pack_raw h
          have htree := isTree_bare (isTree_of_mem_elems hv (List.mem_singleton_self w))
          rw [bare_raw] at hs
          rcases bare_of_holdsScalar hw with hscalar | ⟨n, hn, -⟩
          · cases hs.symm.trans hscalar
          · rw [hn] at htree
            cases htree
      | false => rfl
  | _ => rfl

/-! ### The piece of a member -/

/-- A child holds a scalar as it is, and an array or object packed. -/
inductive HeldAs : Value → Value → Prop
  | scalar {v : Value} (hv : v.isScalar = true) : HeldAs v v
  | container {v : Value} {c : Container} (hv : v.isScalar = false) (h : v.pack = .ok c) :
      HeldAs v (.binary c)

theorem decode_bytes (c : Container) :
    Container.decode .container c.bytes = .ok (.binary c) := by
  simp only [Container.decode, Container.ofBytes_bytes, Except.map]

/-- A piece without further members reads as the value that it stores. -/
theorem decode_of_leafPiece (h : x.leafPiece = .ok p) :
    Container.decode p.tag p.content = .ok x := by
  cases x with
  | null | bool | number | string => exact decode_leafPiece rfl h
  | array | object => cases h
  | binary c =>
      cases h
      exact decode_bytes c

theorem decode_of_copy (h : x.leafPiece = .ok p.copy) :
    Container.decode p.tag p.content = .ok x := decode_of_leafPiece (p := p.copy) h

theorem copy_of_leafPiece (h : x.leafPiece = .ok p) : p.copy = p := by
  cases x with
  | null | string => cases h; rfl
  | bool b => cases b <;> cases h <;> rfl
  | number d =>
      simp only [leafPiece] at h
      split at h
      · cases h; rfl
      · cases h
  | array | object => cases h
  | binary c => cases h; rfl

theorem packElems_of_le (hv : (Value.array false elems).isTree = true)
    (h : packElems elems level = .ok c) {level' : Nat} (hl : level' ≤ level) :
    packElems elems level' = .ok c := by
  have hpieces : ∀ v ∈ elems, ∀ p, v.piece (level + 1) = .ok p →
      ∀ l ≤ level + 1, (id v).piece l = .ok p :=
    fun v hm p hp => piece_of_le (isTree_of_mem_elems hv hm) hp
  have hmap := packElems_map h hpieces hl
  rwa [List.map_id] at hmap

theorem packPairs_of_le (hv : (Value.object pairs).isTree = true)
    (h : packPairs pairs level = .ok c) {level' : Nat} (hl : level' ≤ level) :
    packPairs pairs level' = .ok c := by
  have hpieces : ∀ q ∈ kept pairs, ∀ p, q.2.piece (level + 1) = .ok p →
      ∀ l ≤ level + 1, (id q.2).piece l = .ok p :=
    fun q hq p hp => piece_of_le (isTree_of_mem_pairs hv (mem_of_mem_kept hq)) hp
  have hmap : packPairs ((kept pairs).map id) level' = .ok c := packPairs_map h hpieces hl
  rwa [List.map_id, packPairs_kept] at hmap

/-- The piece of a member stores what holds the member without its wrappers: a scalar as it is, and
an array or object packed as if it stood alone and copied. -/
theorem exists_held (hv : v.isTree = true) (hp : v.piece level = .ok p) :
    ∃ x, x.leafPiece = .ok p.copy ∧ v.bare.HeldAs x := by
  induction v using induction_on_members generalizing level with
  | null | bool | number | string =>
      rw [piece_eq_leafPiece rfl] at hp
      exact ⟨_, (copy_of_leafPiece hp).symm ▸ hp, .scalar rfl⟩
  | array raw elems ih =>
      cases raw with
      | true =>
          obtain ⟨v, rfl, hp⟩ := piece_raw hp
          have hm := List.mem_singleton_self v
          rw [bare_raw]
          exact ih v hm (isTree_of_mem_elems hv hm) hp
      | false =>
          rw [piece_array] at hp
          obtain ⟨c, hc, rfl⟩ := ok_of_map_ok hp
          refine ⟨.binary c, rfl, .container rfl ?_⟩
          show (Value.array false elems).pack = .ok c
          rw [pack, elemPieces_eq_map]
          exact packElems_of_le hv hc (Nat.zero_le level)
  | object pairs =>
      rw [piece_object] at hp
      obtain ⟨c, hc, rfl⟩ := ok_of_map_ok hp
      refine ⟨.binary c, rfl, .container rfl ?_⟩
      show (Value.object pairs).pack = .ok c
      rw [pack, pairPieces_eq_map]
      exact packPairs_of_le hv hc (Nat.zero_le level)
  | binary c => cases hv

theorem HeldAs.canonicalMember (h : v.bare.HeldAs x) (hv : v.isTree = true) :
    v.canonicalMember.HeldAs x := by
  fun_induction bare v with
  | case1 v ih =>
      rw [canonicalMember_raw]
      exact ih h (isTree_of_mem_elems hv (List.mem_singleton_self v))
  | case2 v hne =>
      cases h with
      | scalar hs =>
          rw [canonicalMember_of_isScalar hs]
          exact .scalar hs
      | container hs h =>
          have hpack := pack_canonical hv h
          cases v with
          | array raw elems =>
              cases raw with
              | true =>
                  obtain ⟨w, rfl, -, -⟩ := pack_raw h
                  exact absurd rfl (hne w)
              | false =>
                  rw [canonical_array] at hpack
                  rw [canonicalMember_array]
                  exact .container rfl hpack
          | object pairs =>
              rw [canonical_object] at hpack
              rw [canonicalMember_object]
              exact .container rfl hpack
          | binary c => cases hv
          | _ => cases hs

theorem HeldAs.pack {n : Container} (h : v.HeldAs (.binary n)) : v.pack = .ok n := by
  cases h with
  | scalar hv => cases hv
  | container _ h => exact h

/-! ### The pieces of a packed value -/

/-- The values that a packed value has as children; a scalar is the only one in its wrapper. -/
def members : Value → List Value
  | .array _ elems => elems
  | .object pairs => (kept pairs).map Prod.snd
  | v => [v]

def keys : Value → List Bytes
  | .object pairs => (kept pairs).map Prod.fst
  | _ => []

theorem isTree_of_mem_members (hv : v.isTree = true) {m : Value} (hm : m ∈ v.members) :
    m.isTree = true := by
  cases v with
  | array raw elems => exact isTree_of_mem_elems hv hm
  | object pairs =>
      obtain ⟨q, hq, rfl⟩ := List.mem_map.mp hm
      exact isTree_of_mem_pairs hv (mem_of_mem_kept hq)
  | _ =>
      obtain rfl := List.mem_singleton.mp hm
      exact hv

/-- The children of a container are the keys of a value and then the pieces of its members. -/
structure StoredIn (v : Value) (c : Container) : Prop where
  len : c.len = v.members.length
  entryCount : c.entryCount = v.keys.length + v.members.length
  pieces : ∃ ps, (v.members.map fun m => m.piece 1) = ps.map .ok ∧
    c.Lies 0 0 (v.keys.map .ofString ++ ps)

theorem storedIn_of_packRaw (h : Container.packRaw (v.piece 1) = .ok c) :
    (Value.array true [v]).StoredIn c := by
  obtain ⟨hshape, p, hp, hl⟩ := Container.packRaw_spec h
  obtain ⟨ho, hone⟩ := Container.array_of_isRaw (c := c) (by rw [Container.isRaw, hshape]; rfl)
  exact ⟨hone, (Container.entryCount_of_array ho).trans hone, [p], congrArg (fun x => [x]) hp, hl⟩

theorem storedIn_of_packElems (h : packElems elems 0 = .ok c) :
    (Value.array false elems).StoredIn c := by
  obtain ⟨-, -, hshape, hlen, ps, hps, hl⟩ := Container.packArray_spec h
  rw [List.length_map] at hlen
  have ho : c.isObject = false := by rw [Container.isObject, hshape]; rfl
  refine ⟨hlen, ?_, ps, hps, hl⟩
  rw [Container.entryCount_of_array ho, hlen]
  exact (Nat.zero_add _).symm

theorem isObject_of_packPairs (h : packPairs pairs level = .ok c) : c.isObject = true := by
  have hshape := (Container.packObject_spec h).2.2.1
  rw [Container.isObject, hshape]
  rfl

theorem storedIn_of_packPairs (h : packPairs pairs 0 = .ok c) :
    (Value.object pairs).StoredIn c := by
  obtain ⟨-, -, -, hlen, ps, hps, hl⟩ := Container.packObject_spec h
  rw [canonical_map fun v => v.piece 1] at hlen hps hl
  rw [List.length_map] at hlen
  have ho := isObject_of_packPairs h
  refine ⟨by rw [members, List.length_map, hlen], ?_, ps, ?_, ?_⟩
  · rw [Container.entryCount_of_object ho, keys, members, List.length_map, List.length_map, hlen]
    exact Nat.two_mul _
  · rw [← hps, members, List.map_map, List.map_map]
    rfl
  · rw [keys, List.map_map]
    rwa [Container.keyPieces, List.map_map] at hl

theorem storedIn_of_pack (hv : v.isTree = true) (h : v.pack = .ok c) : v.StoredIn c := by
  cases v with
  | null | bool | number | string =>
      -- A bare scalar has the same members as the wrapper around it.
      rw [(pack_scalar rfl).1] at h
      have hraw := storedIn_of_packRaw h
      exact ⟨hraw.len, hraw.entryCount, hraw.pieces⟩
  | array raw elems =>
      cases raw with
      | true =>
          obtain ⟨w, rfl, -, h⟩ := pack_raw h
          exact storedIn_of_packRaw h
      | false =>
          rw [pack, elemPieces_eq_map] at h
          exact storedIn_of_packElems h
  | object pairs =>
      rw [pack, pairPieces_eq_map] at h
      exact storedIn_of_packPairs h
  | binary c => cases hv

/-! ### The children of a packed value -/

/-- The piece stores what holds some tree. -/
def HoldsTree (p : Piece) : Prop :=
  ∃ w x : Value, w.isTree = true ∧ x.leafPiece = .ok p.copy ∧ w.HeldAs x

theorem holdsTree_of_key (k : Bytes) : HoldsTree (.ofString k) :=
  ⟨.string k, .string k, rfl, rfl, .scalar rfl⟩

theorem holdsTree_of_piece (hv : v.isTree = true) (hp : v.piece level = .ok p) : HoldsTree p := by
  obtain ⟨x, hx, hheld⟩ := exists_held hv hp
  exact ⟨v.bare, x, isTree_bare hv, hx, hheld⟩

/-- Every child of a packed value is a key, or it holds a member without its wrappers. -/
theorem StoredIn.exists_pieces (h : v.StoredIn c) (hv : v.isTree = true) :
    ∃ ps : List Piece, ps.length = c.entryCount ∧ c.Lies 0 0 ps ∧ ∀ p ∈ ps, HoldsTree p := by
  obtain ⟨ps, hps, hl⟩ := h.pieces
  have hlen : v.members.length = ps.length := by simpa using congrArg List.length hps
  refine ⟨_, ?_, hl, fun p hp => ?_⟩
  · rw [List.length_append, List.length_map, h.entryCount, hlen]
  · rcases List.mem_append.mp hp with hp | hp
    · obtain ⟨k, -, rfl⟩ := List.mem_map.mp hp
      exact holdsTree_of_key k
    · obtain ⟨m, hm, hpiece⟩ := List.mem_map.mp (hps ▸ List.mem_map_of_mem hp)
      exact holdsTree_of_piece (isTree_of_mem_members hv hm) hpiece

/-- The member at position `i` is held by the child at that position behind the keys. -/
theorem StoredIn.exists_child (h : v.StoredIn c) (hv : v.isTree = true) {i : Nat}
    (hi : i < v.members.length) :
    ∃ x, c.child (v.keys.length + i) = .ok x ∧ v.members[i].bare.HeldAs x := by
  obtain ⟨ps, hps, hl⟩ := h.pieces
  have hlen : v.members.length = ps.length := by simpa using congrArg List.length hps
  obtain ⟨o, hmembers⟩ := hl.append
  have hchild := hmembers.child (hlen ▸ hi)
  have hpiece : v.members[i].piece 1 = .ok ps[i] := by
    have hget := List.getElem_of_eq hps (i := i) (by simpa using hi)
    simpa using hget
  have hm := isTree_of_mem_members hv (List.getElem_mem hi)
  obtain ⟨x, hx, hheld⟩ := exists_held hm hpiece
  refine ⟨x, ?_, hheld⟩
  rw [List.length_map, Nat.zero_add] at hchild
  rw [hchild, decode_of_copy hx]

end Value

/-! ### Containers held in a packed value -/

namespace Container

variable {c n : Container}

/-- The container is what some tree packs to. -/
def IsPacked (c : Container) : Prop := ∃ v : Value, v.isTree = true ∧ v.pack = .ok c

/-- A container that is held in a packed value was packed from a value itself. -/
theorem IsPacked.of_holds (h : c.IsPacked) (hn : c.Holds n) : n.IsPacked := by
  obtain ⟨v, hv, hc⟩ := h
  obtain ⟨ps, hlen, hl, hps⟩ := (Value.storedIn_of_pack hv hc).exists_pieces hv
  obtain ⟨i, hi⟩ := hn
  have hlt : i < ps.length := hlen ▸ lt_of_child hi
  obtain ⟨w, x, hw, hx, hheld⟩ := hps _ (List.getElem_mem hlt)
  have hchild := hl.child hlt
  rw [Nat.zero_add, Value.decode_of_copy hx, hi] at hchild
  cases hchild
  exact ⟨w, hw, hheld.pack⟩

theorem IsPacked.of_reaches (h : c.IsPacked) (hn : Relation.ReflTransGen Holds c n) :
    n.IsPacked := by
  induction hn with
  | refl => exact h
  | tail _ hn ih => exact ih.of_holds hn

end Container

end PackedTree
