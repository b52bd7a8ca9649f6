import PackedTree.Proofs.Rebuilding

/-! # Packing canonical trees

A tree that may be told packs unless a number in it cannot be stored or a container becomes larger
than the fields of the format reach.  The second kind of fault is `Fault.isSize`; the first is
excluded by `Value.Storable`.  So a tree that may be told fails to pack by its size or by a number
(`pack_error`), one that is storable at most by its size (`isSize_of_pack`), and a canonical tree
that packs is storable (`storable_of_pack`).

What a canonical tree packs to tells the tree itself (`trace_of_pack_canonical`). -/

namespace PackedTree

/-- Whether a fault says that a container would be too large in bytes. -/
def Fault.isSize : Fault → Bool
  | .arrayTooLarge _ | .objectTooLarge _ | .fieldOverflow _ _ => true
  | _ => false

/-! ### Why a container is not put together -/

namespace Container

variable {tooLarge f : Fault} {index offset level : Nat} {pieces : List (Except Fault Piece)}

theorem isSize_tooLarge (s : Shape) : s.tooLarge.isSize = true := by cases s <;> rfl

theorem isSize_of_make {tag : Tag} {field : Nat} {absolute : Bool}
    (h : Descriptor.make tag field absolute = .error f) : f.isSize = true := by
  unfold Descriptor.make at h
  split at h
  · cases h
  · cases h
    rfl

theorem isSize_of_entry {p : Piece} {pad : Nat} (h : p.entry pad = .error f) :
    f.isSize = true := by
  unfold Piece.entry at h
  cases hd : Descriptor.make p.tag (pad + p.content.length) false with
  | error g =>
      rw [hd] at h
      cases hs : p.shape with
      | none =>
          rw [hs] at h
          cases h
          exact isSize_of_make hd
      | some s =>
          rw [hs] at h
          cases h
          exact isSize_tooLarge s
  | ok d =>
      rw [hd] at h
      cases h

theorem isSize_of_describe (ht : tooLarge.isSize = true) {p : Piece}
    (h : describe tooLarge index offset p = .error f) : f.isSize = true := by
  simp only [describe, bind, Except.bind] at h
  split at h
  · next g hg =>
      cases h
      exact isSize_of_entry hg
  · split at h
    · cases h
      exact ht
    · split at h
      · exact isSize_of_make h
      · cases h

/-- A layout fails by its size or by one of its pieces. -/
theorem layOut_error (ht : tooLarge.isSize = true)
    (h : layOut tooLarge index offset pieces = .error f) :
    f.isSize = true ∨ .error f ∈ pieces := by
  induction pieces generalizing index offset with
  | nil => cases h
  | cons piece pieces ih =>
      simp only [layOut, bind, Except.bind] at h
      split at h
      · cases h
        exact .inr List.mem_cons_self
      · split at h
        · next hd =>
            cases h
            exact .inl (isSize_of_describe ht hd)
        · split at h
          · next hr =>
              cases h
              exact (ih hr).imp_right (List.mem_cons_of_mem _)
          · cases h

theorem ofPieces_error {h : Header} {hl : pieces.length = h.entryCount}
    (hc : ofPieces h pieces hl = .error f) :
    f.isSize = true ∨ .error f ∈ pieces := by
  unfold ofPieces at hc
  split at hc
  · next hr =>
      cases hc
      exact layOut_error (isSize_tooLarge _) hr
  · simp only at hc
    split at hc
    · cases hc
      exact .inl (isSize_tooLarge _)
    · cases hc

theorem packRaw_error {piece : Except Fault Piece} (h : packRaw piece = .error f) :
    f.isSize = true ∨ piece = .error f := by
  refine (ofPieces_error h).imp_right fun hm => ?_
  exact (List.mem_singleton.mp hm).symm

theorem packArray_error (hd : level < maxDepth) (hn : pieces.length ≤ maxChildren)
    (h : packArray level pieces = .error f) : f.isSize = true ∨ .error f ∈ pieces := by
  rw [packArray_eq hd hn rfl] at h
  exact ofPieces_error h

theorem packObject_error {pairs : List (Bytes × Except Fault Piece)} (hd : level < maxDepth)
    (hn : pairs.length ≤ maxChildren) (h : packObject level pairs = .error f) :
    f.isSize = true ∨ ∃ q ∈ pairs, q.2 = .error f := by
  have hlen := Keyed.length_canonical_add_overwritten Bytes.keyCompare pairs
  rw [packObject_eq hd rfl (by omega)] at h
  refine (ofPieces_error h).imp_right fun hm => ?_
  rcases List.mem_append.mp hm with hm | hm
  · obtain ⟨q, -, hq⟩ := List.mem_map.mp hm
    cases hq
  · obtain ⟨q, hq, hf⟩ := List.mem_map.mp hm
    exact ⟨q, Keyed.mem_of_mem_canonical Bytes.keyCompare hq, hf⟩

end Container

namespace Value

variable {o : Options} {level : Nat} {v : Value} {c : Container} {p : Piece} {f : Fault}

/-! ### Numbers that can be stored -/

/-- Every number of the tree can be stored. -/
inductive Storable : Value → Prop
  | scalar {v : Value} {p : Piece} (hv : v.isScalar = true) (hp : v.leafPiece = .ok p) : Storable v
  | array {raw : Bool} {elems : List Value} (he : ∀ v ∈ elems, Storable v) :
      Storable (.array raw elems)
  | object {pairs : List (Bytes × Value)} (hp : ∀ p ∈ pairs, Storable p.2) :
      Storable (.object pairs)

theorem Storable.leafPiece (h : v.Storable) (hv : v.isScalar = true) :
    ∃ p, v.leafPiece = .ok p := by
  cases h with
  | scalar _ hp => exact ⟨_, hp⟩
  | array => cases hv
  | object => cases hv

theorem packElems_error {elems : List Value} (hd : level < maxDepth)
    (hn : elems.length ≤ maxChildren) (h : packElems elems level = .error f) :
    f.isSize = true ∨ ∃ v ∈ elems, v.piece (level + 1) = .error f := by
  have hlen : (elems.map fun v => v.piece (level + 1)).length ≤ maxChildren := by
    rwa [List.length_map]
  exact (Container.packArray_error hd hlen h).imp_right List.mem_map.mp

theorem packPairs_error {pairs : List (Bytes × Value)} (hd : level < maxDepth)
    (hn : pairs.length ≤ maxChildren) (h : packPairs pairs level = .error f) :
    f.isSize = true ∨ ∃ q ∈ pairs, q.2.piece (level + 1) = .error f := by
  have hlen : (pairs.map fun q => (q.1, q.2.piece (level + 1))).length ≤ maxChildren := by
    rwa [List.length_map]
  refine (Container.packObject_error hd hlen h).imp_right ?_
  rintro ⟨r, hr, hf⟩
  obtain ⟨q, hq, rfl⟩ := List.mem_map.mp hr
  exact ⟨q, hq, hf⟩

theorem error_of_map_error {α : Type} {x : Except Fault Container} {g : Container → α}
    (h : x.map g = .error f) : x = .error f := by
  cases x with
  | error e => cases h; rfl
  | ok c => cases h

/-! ### Why a tree does not pack -/

/-- A value occurs in itself and in whatever has a member in which it occurs. -/
inductive Occurs (w : Value) : Value → Prop
  | here : Occurs w w
  | elem {raw : Bool} {elems : List Value} {v : Value} (hv : v ∈ elems) (h : Occurs w v) :
      Occurs w (.array raw elems)
  | pair {pairs : List (Bytes × Value)} {p : Bytes × Value} (hp : p ∈ pairs)
      (h : Occurs w p.2) : Occurs w (.object pairs)

/-- The fault is one of size, or a number occurs in the value that cannot be stored. -/
def FailsBy (f : Fault) (v : Value) : Prop :=
  f.isSize = true ∨ f = .invalidNumber ∧ ∃ d, (Value.number d).Occurs v ∧ d.storable = false

theorem FailsBy.elem {raw : Bool} {elems : List Value} (h : FailsBy f v) (hv : v ∈ elems) :
    FailsBy f (.array raw elems) := by
  refine h.imp_right ?_
  rintro ⟨rfl, d, ho, hd⟩
  exact ⟨rfl, d, .elem hv ho, hd⟩

theorem FailsBy.pair {pairs : List (Bytes × Value)} {q : Bytes × Value} (h : FailsBy f q.2)
    (hq : q ∈ pairs) : FailsBy f (.object pairs) := by
  refine h.imp_right ?_
  rintro ⟨rfl, d, ho, hd⟩
  exact ⟨rfl, d, .pair hq ho, hd⟩

theorem Storable.of_occurs {d : Decimal} (h : v.Storable) (ho : (Value.number d).Occurs v) :
    d.storable = true := by
  induction ho with
  | here =>
      cases h with
      | scalar _ hp =>
          simp only [Value.leafPiece] at hp
          split at hp
          · assumption
          · cases hp
  | elem hv ho ih =>
      cases h with
      | scalar hs => cases hs
      | array hs => exact ih (hs _ hv)
  | pair hp ho ih =>
      cases h with
      | scalar hs => cases hs
      | object hs => exact ih (hs _ hp)

theorem FailsBy.isSize (h : FailsBy f v) (hs : v.Storable) : f.isSize = true := by
  rcases h with hf | ⟨-, d, ho, hd⟩
  · exact hf
  · rw [hs.of_occurs ho] at hd
    cases hd

theorem leafPiece_error (hv : v.isScalar = true) (h : v.leafPiece = .error f) : FailsBy f v := by
  cases v with
  | null | string => cases h
  | bool b => cases b <;> cases h
  | number d =>
      simp only [Value.leafPiece] at h
      split at h
      · cases h
      · next hd =>
          cases h
          exact .inr ⟨rfl, d, .here, by simpa using hd⟩
  | _ => cases hv

/-- A member that may be told fails to pack by its size or by a number in it. -/
theorem piece_error (hb : v.Buildable o level) (h : v.piece level = .error f) : FailsBy f v := by
  have hmax : min o.maxChildren maxChildren ≤ maxChildren := Nat.min_le_right _ _
  induction hb generalizing f with
  | scalar hv =>
      rw [piece_eq_leafPiece hv] at h
      exact leafPiece_error hv h
  | array hd hn he ih =>
      rw [piece_array] at h
      rcases packElems_error hd (Nat.le_trans hn hmax) (error_of_map_error h) with hf | ⟨v, hv, hf⟩
      · exact .inl hf
      · exact (ih v hv hf).elem hv
  | object hd hn hu hp ih =>
      rw [piece_object] at h
      rcases packPairs_error hd (Nat.le_trans hn hmax) (error_of_map_error h) with hf | ⟨q, hq, hf⟩
      · exact .inl hf
      · exact (ih q hq hf).pair hq

/-- A whole value that may be told fails to pack by its size or by a number in it. -/
theorem pack_error (hb : v.BuildableRoot o) (h : v.pack = .error f) : FailsBy f v := by
  have hmax : min o.maxChildren maxChildren ≤ maxChildren := Nat.min_le_right _ _
  cases hb with
  | @raw v hv hn =>
      rw [pack, if_pos (holdsScalar_of_isScalar hv), piece_eq_leafPiece hv] at h
      rcases Container.packRaw_error h with hf | hf
      · exact .inl hf
      · exact (leafPiece_error hv hf).elem List.mem_cons_self
  | container hv hb =>
      cases hb with
      | scalar hs => cases hv.symm.trans hs
      | array hd hn he =>
          rw [pack, elemPieces_eq_map] at h
          rcases packElems_error hd (Nat.le_trans hn hmax) h with hf | ⟨v, hv, hf⟩
          · exact .inl hf
          · exact (piece_error (he v hv) hf).elem hv
      | object hd hn hu hp =>
          rw [pack, pairPieces_eq_map] at h
          rcases packPairs_error hd (Nat.le_trans hn hmax) h with hf | ⟨q, hq, hf⟩
          · exact .inl hf
          · exact (piece_error (hp q hq) hf).pair hq

/-- A whole value that may be told and is storable fails to pack only by its size. -/
theorem isSize_of_pack (hb : v.BuildableRoot o) (hs : v.Storable) (h : v.pack = .error f) :
    f.isSize = true :=
  (pack_error hb h).isSize hs

/-! ### Canonical trees -/

theorem isTree_array (raw : Bool) {elems : List Value} (h : ∀ v ∈ elems, v.isTree = true) :
    (Value.array raw elems).isTree = true := by
  rw [isTree]
  induction elems with
  | nil => rfl
  | cons v vs ih =>
      obtain ⟨hv, hvs⟩ := List.forall_mem_cons.mp h
      rw [areTrees, hv, ih hvs]
      rfl

theorem isTree_object {pairs : List (Bytes × Value)} (h : ∀ p ∈ pairs, p.2.isTree = true) :
    (Value.object pairs).isTree = true := by
  rw [isTree]
  induction pairs with
  | nil => rfl
  | cons p ps ih =>
      obtain ⟨hp, hps⟩ := List.forall_mem_cons.mp h
      rw [holdTrees, hp, ih hps]
      rfl

theorem IsCanonical.isTree (h : v.IsCanonical) : v.isTree = true := by
  induction h with
  | @scalar v hv =>
      cases v with
      | null | bool | number | string => rfl
      | _ => cases hv
  | array he ih => exact isTree_array false ih
  | object ha hp ih => exact isTree_object ih

theorem IsCanonicalRoot.wrapped_or (h : v.IsCanonicalRoot) :
    (∃ w, v = .array true [w] ∧ w.isScalar = true) ∨ v.isScalar = false ∧ v.IsCanonical := by
  cases v with
  | array raw elems =>
      cases raw with
      | true =>
          obtain ⟨w, rfl, hw⟩ := h
          exact .inl ⟨w, rfl, hw⟩
      | false => exact .inr h
  | _ => exact .inr h

theorem IsCanonicalRoot.isTree (h : v.IsCanonicalRoot) : v.isTree = true := by
  obtain ⟨w, rfl, hw⟩ | ⟨-, hc⟩ := h.wrapped_or
  · exact isTree_array true (List.forall_mem_singleton.mpr (IsCanonical.scalar hw).isTree)
  · exact hc.isTree

theorem canonical_of_isCanonicalRoot (h : v.IsCanonicalRoot) : v.canonical = v := by
  obtain ⟨w, rfl, hw⟩ | ⟨hv, hc⟩ := h.wrapped_or
  · rw [canonical, canonicalElems_eq_map, List.map_singleton, canonicalMember_of_isScalar hw]
  · cases hc with
    | scalar hs => cases hv.symm.trans hs
    | array he => exact canonicalMember_of_isCanonical (.array he)
    | object ha hp => exact canonicalMember_of_isCanonical (.object ha hp)

theorem trace_of_pack_canonical (hc : v.IsCanonicalRoot) (h : v.pack = .ok c) :
    c.trace = v.rootTrace := by
  rw [trace_of_pack hc.isTree h, canonical_of_isCanonicalRoot hc]

/-! ### What packs is storable -/

theorem storable_of_piece (hc : v.IsCanonical) (h : v.piece level = .ok p) : v.Storable := by
  induction hc generalizing level p with
  | scalar hv =>
      rw [piece_eq_leafPiece hv] at h
      exact .scalar hv h
  | array _ ih =>
      rw [piece_array] at h
      obtain ⟨c, hpack, -⟩ := ok_of_map_ok h
      refine .array fun v hv => ?_
      obtain ⟨p, hp⟩ := ok_of_packElems hpack hv
      exact ih v hv hp
  | object ha _ ih =>
      rw [piece_object] at h
      obtain ⟨c, hpack, -⟩ := ok_of_map_ok h
      refine .object fun q hq => ?_
      obtain ⟨p, hp⟩ := ok_of_packPairs hpack ((kept_of_ascending ha).symm ▸ hq)
      exact ih q hq hp

/-- Outside all others an array or object is the same piece as a member and as a whole. -/
theorem piece_zero (hv : v.isScalar = false) (hc : v.IsCanonical) (h : v.pack = .ok c) :
    v.piece 0 = .ok (.ofContainer c) := by
  cases hc with
  | scalar hs => cases hv.symm.trans hs
  | array =>
      rw [pack, elemPieces_eq_map] at h
      rw [piece_array, packElems, h]
      rfl
  | object =>
      rw [pack, pairPieces_eq_map] at h
      rw [piece_object, packPairs, h]
      rfl

theorem storable_of_pack (hc : v.IsCanonicalRoot) (h : v.pack = .ok c) : v.Storable := by
  obtain ⟨w, rfl, hw⟩ | ⟨hv, hc⟩ := hc.wrapped_or
  · rw [pack, if_pos (holdsScalar_of_isScalar hw)] at h
    obtain ⟨-, p, hp, -⟩ := Container.packRaw_spec h
    exact .array (List.forall_mem_singleton.mpr (storable_of_piece (.scalar hw) hp))
  · exact storable_of_piece hc (piece_zero hv hc h)

/-! ### Trees that pack unless they are too large -/

/-- A canonical tree that may be told inside `level` containers and is storable. -/
structure Packable (level : Nat) (v : Value) : Prop where
  isCanonical : v.IsCanonical
  buildable : v.Buildable {} level
  storable : v.Storable

theorem Packable.scalar (hv : v.isScalar = true) (hs : v.Storable) : v.Packable level :=
  ⟨.scalar hv, .scalar hv, hs⟩

theorem Packable.array {elems : List Value} (hd : level < maxDepth)
    (hn : elems.length ≤ maxChildren) (he : ∀ v ∈ elems, v.Packable (level + 1)) :
    (Value.array false elems).Packable level where
  isCanonical := .array fun v hv => (he v hv).isCanonical
  buildable := .array hd (Nat.le_min.mpr ⟨hn, hn⟩) fun v hv => (he v hv).buildable
  storable := .array fun v hv => (he v hv).storable

theorem Packable.object {pairs : List (Bytes × Value)} (hd : level < maxDepth)
    (hn : pairs.length ≤ maxChildren) (ha : Keyed.Ascending Bytes.keyCompare pairs)
    (hp : ∀ p ∈ pairs, p.2.Packable (level + 1)) : (Value.object pairs).Packable level where
  isCanonical := .object ha fun p hm => (hp p hm).isCanonical
  buildable := .object hd (Nat.le_min.mpr ⟨hn, hn⟩) nofun fun p hm => (hp p hm).buildable
  storable := .object fun p hm => (hp p hm).storable

/-- A whole tree of that kind: a scalar in its wrapper, or an array or object. -/
structure PackableRoot (v : Value) : Prop where
  isCanonicalRoot : v.IsCanonicalRoot
  buildableRoot : v.BuildableRoot {}
  storable : v.Storable

theorem PackableRoot.raw (hv : v.isScalar = true) (hs : v.Storable) :
    (Value.array true [v]).PackableRoot where
  isCanonicalRoot := ⟨v, rfl, hv⟩
  buildableRoot := .raw hv (by decide)
  storable := .array (List.forall_mem_singleton.mpr hs)

theorem PackableRoot.of_packable (hv : v.isScalar = false) (h : v.Packable 0) :
    v.PackableRoot where
  isCanonicalRoot := h.isCanonical.root hv
  buildableRoot := .container hv h.buildable
  storable := h.storable

/-- What tells the events of such a tree builds the tree itself. -/
theorem PackableRoot.build_of_tells (h : v.PackableRoot) {t : Trace}
    (ht : t.Tells (v.stream .elem)) : PackedTree.build {} t.events = .ok v := by
  rw [Value.build_of_tells ht h.buildableRoot, settled_of_isCanonicalRoot h.isCanonicalRoot]

end Value

end PackedTree
