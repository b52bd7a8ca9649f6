import PackedTree.Proofs.PackingSize
import Mathlib.Tactic.SplitIfs

/-! # How small a packed value can be

Every child of a container takes up its descriptor and its content, whatever the padding
(`Container.Lies.weight_le`).  So a value takes at least its weight (`Value.weight_le_size`), which
is the counterpart of its bulk, and one whose weight exceeds what a field can hold does not pack
(`Value.weight_le_maxField`). -/

namespace PackedTree

/-- The bytes that the content of a child takes with its descriptor and no padding. -/
def Piece.weight (p : Piece) : Nat := 4 + p.content.length

namespace Container

variable {c : Container} {i o : Nat} {ps : List Piece}

/-- The children from a position on have their descriptors and their contents in the container. -/
theorem Lies.weight_le (h : c.Lies i o ps) (hi : i ≤ c.entryCount) :
    4 * i + o + (ps.map Piece.weight).sum ≤ 4 * c.entryCount + c.payload.length := by
  induction h with
  | nil hs ho =>
      rw [List.map_nil, List.sum_nil]
      omega
  | @cons i o o' p ps hp ht ih =>
      obtain ⟨d, hd, -⟩ := hp.entry
      have hlt := lt_of_entry hd
      have hstop := hp.stop
      have halign := Bytes.le_alignUp o p.tag.align_pos
      have hrest := ih hlt
      have hweight : p.weight = 4 + p.content.length := rfl
      rw [List.map_cons, List.sum_cons]
      omega

theorem Lies.weight_le_size (h : c.Lies 0 0 ps) : 4 + (ps.map Piece.weight).sum ≤ c.size := by
  have hle := h.weight_le (Nat.zero_le _)
  unfold size
  omega

/-! ### Containers that were put together -/

variable {level : Nat} {piece : Except Fault Piece} {pieces : List (Except Fault Piece)}

theorem size_le_of_packRaw (h : packRaw piece = .ok c) : c.size ≤ maxField :=
  (lies_of_ofPieces h).2.1

theorem size_le_of_packArray (h : packArray level pieces = .ok c) : c.size ≤ maxField := by
  unfold packArray at h
  split_ifs at h
  exact (lies_of_ofPieces h).2.1

theorem size_le_of_packObject {pairs : List (Bytes × Except Fault Piece)}
    (h : packObject level pairs = .ok c) : c.size ≤ maxField := by
  unfold packObject at h
  dsimp only at h
  split_ifs at h
  exact (lies_of_ofPieces h).2.1

end Container

namespace Value

/-! ### The weight of a value -/

mutual

/-- At most as many bytes as the content of a value takes. -/
def weight : Value → Nat
  | .null | .bool _ => 0
  | .number d => d.bytes.length
  | .string s => s.length
  | .array _ elems => 4 + weightElems elems
  | .object pairs => 4 + weightPairs pairs
  | .binary c => c.size

/-- At most as many bytes as elements take, with descriptors. -/
def weightElems : List Value → Nat
  | [] => 0
  | v :: vs => 4 + v.weight + weightElems vs

/-- At most as many bytes as keys and values take, with descriptors. -/
def weightPairs : List (Bytes × Value) → Nat
  | [] => 0
  | (k, v) :: ps => (4 + k.length) + (4 + v.weight) + weightPairs ps

end

theorem weightElems_eq (elems : List Value) :
    weightElems elems = (elems.map fun v => 4 + v.weight).sum := by
  induction elems with
  | nil => rfl
  | cons v vs ih => rw [weightElems, ih, List.map_cons, List.sum_cons]

theorem weightPairs_eq (pairs : List (Bytes × Value)) :
    weightPairs pairs =
      (pairs.map fun p => 4 + p.1.length).sum + (pairs.map fun p => 4 + p.2.weight).sum := by
  induction pairs with
  | nil => rfl
  | cons p ps ih =>
      rw [weightPairs, ih, List.map_cons, List.map_cons, List.sum_cons, List.sum_cons]
      omega

/-! ### What is packed -/

variable {level : Nat} {v : Value} {c : Container} {p : Piece}

theorem sum_weight_le {α : Type} {f : α → Except Fault Piece} {weight : α → Nat} {as : List α}
    {ps : List Piece} (h : as.map f = ps.map .ok)
    (hw : ∀ a ∈ as, ∀ p, f a = .ok p → weight a ≤ p.content.length) :
    (as.map fun a => 4 + weight a).sum ≤ (ps.map Piece.weight).sum := by
  induction as generalizing ps with
  | nil => exact Nat.zero_le _
  | cons a as ih =>
      obtain ⟨p, ps, rfl, hp, hps⟩ := List.map_eq_cons_iff.mp h.symm
      obtain ⟨ha, has⟩ := List.forall_mem_cons.mp hw
      have hle := ha p hp.symm
      have hrest := ih hps.symm has
      have hweight : p.weight = 4 + p.content.length := rfl
      rw [List.map_cons, List.map_cons, List.sum_cons, List.sum_cons]
      omega

theorem weight_le_of_packElems {elems : List Value} (h : packElems elems level = .ok c)
    (ih : ∀ v ∈ elems, ∀ p, v.piece (level + 1) = .ok p →
      v.canonicalMember.weight ≤ p.content.length) :
    (Value.array false (elems.map canonicalMember)).weight ≤ c.size := by
  obtain ⟨-, -, -, -, ps, hps, hl⟩ := Container.packArray_spec h
  have hsum := sum_weight_le hps ih
  have hsize := hl.weight_le_size
  rw [weight, weightElems_eq, List.map_map]
  exact (Nat.add_le_add_left hsum 4).trans hsize

theorem weight_le_of_packPairs {pairs : List (Bytes × Value)} (h : packPairs pairs level = .ok c)
    (ih : ∀ q ∈ kept pairs, ∀ p, q.2.piece (level + 1) = .ok p →
      q.2.canonicalMember.weight ≤ p.content.length) :
    (Value.object ((kept pairs).map fun q => (q.1, q.2.canonicalMember))).weight ≤ c.size := by
  obtain ⟨-, -, -, -, ps, hps, hl⟩ := Container.packObject_spec h
  rw [canonical_map fun v => v.piece (level + 1)] at hps hl
  rw [List.map_map] at hps
  have hsum := sum_weight_le hps ih
  have hsize := hl.weight_le_size
  rw [List.map_append, List.sum_append, Container.keyPieces, List.map_map, List.map_map] at hsize
  rw [weight, weightPairs_eq, List.map_map, List.map_map]
  exact (Nat.add_le_add_left (Nat.add_le_add_left hsum _) 4).trans hsize

theorem weight_le_of_piece (hv : v.isTree = true) (hp : v.piece level = .ok p) :
    v.canonicalMember.weight ≤ p.content.length := by
  refine piece_induction ?_ ?_ ?_ ?_ hv hp
  · intro v level p hs hp
    rw [canonicalMember_of_isScalar hs]
    cases v with
    | null | bool => rw [weight]; exact Nat.zero_le _
    | string s => cases hp; rw [weight, Piece.content_ofString]
    | number d =>
        simp only [leafPiece] at hp
        split at hp
        · cases hp; rw [weight]
        · cases hp
    | _ => cases hs
  · intro v level p ih
    rwa [canonicalMember_raw]
  · intro elems level c hc ih
    rw [canonicalMember_array, Piece.content_ofContainer, Container.length_bytes]
    exact weight_le_of_packElems hc ih
  · intro pairs level c hc ih
    rw [canonicalMember_object, Piece.content_ofContainer, Container.length_bytes]
    exact weight_le_of_packPairs hc ih

/-- A packed value takes at least the weight of its canonical form. -/
theorem weight_le_size (hv : v.isTree = true) (h : v.pack = .ok c) :
    v.canonical.weight ≤ c.size := by
  cases packsTo_of_pack hv h with
  | scalar hw hs hp hc h =>
      obtain ⟨-, q, hq, hl⟩ := Container.packRaw_spec h
      cases hq
      have hle := weight_le_of_piece hw hp
      have hsize := hl.weight_le_size
      rw [List.map_singleton, List.sum_singleton, Piece.weight] at hsize
      rw [hc, weight, weightElems, weightElems]
      omega
  | array h =>
      rw [canonical_array]
      exact weight_le_of_packElems h fun v hm p hp =>
        weight_le_of_piece (isTree_of_mem_elems hv hm) hp
  | object h =>
      rw [canonical_object]
      exact weight_le_of_packPairs h fun q hq p hp =>
        weight_le_of_piece (isTree_of_mem_pairs hv (mem_of_mem_kept hq)) hp

/-- A value that packs is not too heavy for the fields of the format. -/
theorem weight_le_maxField (hv : v.isTree = true) (h : v.pack = .ok c) :
    v.canonical.weight ≤ maxField := by
  refine (weight_le_size hv h).trans ?_
  cases packsTo_of_pack hv h with
  | scalar hw hs hp hc h => exact Container.size_le_of_packRaw h
  | array h => exact Container.size_le_of_packArray h
  | object h => exact Container.size_le_of_packObject h

end Value

end PackedTree
