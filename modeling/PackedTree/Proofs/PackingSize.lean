import PackedTree.Proofs.CanonicalPacking
import Mathlib.Algebra.Order.BigOperators.Group.List
import Mathlib.Algebra.GroupWithZero.Nat
import Mathlib.Algebra.Order.Group.Nat

/-! # How large a packed value becomes

A child takes up its descriptor, at most three bytes of padding, and its content; together with the
header of every container, this bounds the bytes that a value is packed to (`Value.bulk`).  Pieces
that stay within what a field can hold are laid out (`Container.exists_ofPieces`), and so a
canonical tree whose bulk fits a field packs (`Value.exists_pack`): no value is refused for its size
as long as it is small. -/

namespace PackedTree

/-- The most bytes that the content of a child takes with its padding and descriptor. -/
def Piece.room (p : Piece) : Nat := 7 + p.content.length

namespace Container

variable {offset : Nat} {p : Piece} {ps : List Piece}

/-! ### Pieces that fit -/

theorem padding_le_three (offset : Nat) (t : Tag) : Bytes.padding offset t.align ≤ 3 := by
  have hlt := Bytes.alignUp_lt offset t.align_pos
  have halign : t.align ≤ 4 := by cases t <;> decide
  unfold Bytes.padding
  omega

theorem make_of_le {tag : Tag} {field : Nat} {absolute : Bool} (h : field ≤ maxField) :
    Descriptor.make tag field absolute = .ok ⟨tag, absolute, field, h⟩ :=
  dif_pos h

theorem entry_of_le {pad : Nat} (h : pad + p.content.length ≤ maxField) :
    p.entry pad = .ok ⟨p.tag, false, pad + p.content.length, h⟩ :=
  Piece.entry_eq_ok_iff.mpr (make_of_le h)

theorem exists_describe (tooLarge : Fault) (index : Nat) (h : offset + p.room ≤ maxField) :
    ∃ d, describe tooLarge index offset p = .ok d ∧
      d.stop offset = offset + (Bytes.padding offset p.tag.align + p.content.length) := by
  have hpad := padding_le_three offset p.tag
  unfold Piece.room at h
  simp only [describe, bind, Except.bind]
  rw [entry_of_le (by omega)]
  have hstop : (Descriptor.mk p.tag false
      (Bytes.padding offset p.tag.align + p.content.length) (by omega)).stop offset =
        offset + (Bytes.padding offset p.tag.align + p.content.length) := rfl
  simp only [hstop]
  rw [if_neg (by omega)]
  split
  · exact ⟨_, make_of_le (by omega), rfl⟩
  · exact ⟨_, rfl, hstop⟩

theorem exists_layOut (tooLarge : Fault) (index : Nat)
    (h : offset + (ps.map Piece.room).sum ≤ maxField) :
    ∃ r, layOut tooLarge index offset (ps.map .ok) = .ok r ∧
      4 * ps.length + r.2.length ≤ (ps.map Piece.room).sum := by
  induction ps generalizing index offset with
  | nil => exact ⟨_, rfl, Nat.le_refl _⟩
  | cons p ps ih =>
      rw [List.map_cons, List.sum_cons] at h
      have hpad := padding_le_three offset p.tag
      have hroom : p.room = 7 + p.content.length := rfl
      have hp : offset + p.room ≤ maxField := by omega
      obtain ⟨d, hd, hstop⟩ := exists_describe tooLarge index hp
      have hps : d.stop offset + (ps.map Piece.room).sum ≤ maxField := by omega
      obtain ⟨⟨words, payload⟩, hr, hlen⟩ := ih (index + 1) hps
      refine ⟨(d.toWord :: words,
        List.replicate (Bytes.padding offset p.tag.align) 0 ++ (p.content ++ payload)), ?_, ?_⟩
      · simp only [List.map_cons, layOut, bind, Except.bind, hd, hr]
      · simp only [List.length_cons, List.length_append, List.length_replicate, List.map_cons,
          List.sum_cons]
        dsimp only at hlen
        omega

theorem exists_ofPieces {h : Header} {pieces : List (Except Fault Piece)}
    {hl : pieces.length = h.entryCount} (hp : pieces = ps.map .ok)
    (hfit : 4 + (ps.map Piece.room).sum ≤ maxField) :
    ∃ c, ofPieces h pieces hl = .ok c ∧
      c.bytes.length ≤ 4 + (ps.map Piece.room).sum := by
  subst hp
  have hfit0 : 0 + (ps.map Piece.room).sum ≤ maxField := by omega
  obtain ⟨r, hr, hlen⟩ := exists_layOut h.shape.tooLarge 0 hfit0
  have hn : ps.length = h.entryCount := by rwa [List.length_map] at hl
  unfold ofPieces
  split
  · next hf => cases hr.symm.trans hf
  · next words payload hw =>
      cases hr.symm.trans hw
      have hsize : ∀ c : Container, c.header = h → c.payload = payload →
          c.bytes.length ≤ 4 + (ps.map Piece.room).sum := by
        intro c hc hp
        rw [length_bytes, size, entryCount, hc, hp, ← hn]
        dsimp only at hlen
        omega
      have hle := hsize ⟨h, words, payload, (length_of_layOut hw).trans hl⟩ rfl rfl
      refine ⟨_, if_neg ?_, hle⟩
      rw [length_bytes] at hle
      omega

theorem exists_packRaw (hfit : 4 + p.room ≤ maxField) :
    ∃ c, packRaw (.ok p) = .ok c := by
  have hfit : 4 + ([p].map Piece.room).sum ≤ maxField := hfit
  obtain ⟨c, hc, -⟩ := exists_ofPieces rfl hfit
  exact ⟨c, hc⟩

theorem exists_packArray {level : Nat} {pieces : List (Except Fault Piece)} (hd : level < maxDepth)
    (hn : pieces.length ≤ maxChildren) (hp : pieces = ps.map .ok)
    (hfit : 4 + (ps.map Piece.room).sum ≤ maxField) :
    ∃ c, packArray level pieces = .ok c ∧ c.bytes.length ≤ 4 + (ps.map Piece.room).sum := by
  rw [packArray_eq hd hn rfl]
  exact exists_ofPieces hp hfit

theorem exists_packObject {level : Nat} {pairs : List (Bytes × Except Fault Piece)}
    {kept : List (Bytes × Except Fault Piece)} (hk : Keyed.canonical Bytes.keyCompare pairs = kept)
    (hd : level < maxDepth) (hn : kept.length ≤ maxChildren) (hp : kept.map Prod.snd = ps.map .ok)
    (hfit : 4 + ((keyPieces kept ++ ps).map Piece.room).sum ≤ maxField) :
    ∃ c, packObject level pairs = .ok c ∧
      c.bytes.length ≤ 4 + ((keyPieces kept ++ ps).map Piece.room).sum := by
  rw [packObject_eq hd hk hn]
  refine exists_ofPieces ?_ hfit
  rw [objectPieces, List.map_append, keyPieces, List.map_map, hp]
  rfl

end Container

namespace Value

/-! ### The bulk of a value -/

mutual

/-- At least as many bytes as the content of a value takes. -/
def bulk : Value → Nat
  | .null | .bool _ => 0
  | .number d => d.bytes.length
  | .string s => s.length
  | .array _ elems => 4 + bulkElems elems
  | .object pairs => 4 + bulkPairs pairs
  | .binary c => c.size

/-- At least as many bytes as elements take, with padding and descriptors. -/
def bulkElems : List Value → Nat
  | [] => 0
  | v :: vs => 7 + v.bulk + bulkElems vs

/-- At least as many bytes as keys and values take, with padding and descriptors. -/
def bulkPairs : List (Bytes × Value) → Nat
  | [] => 0
  | (k, v) :: ps => (7 + k.length) + (7 + v.bulk) + bulkPairs ps

end

theorem bulkElems_eq (elems : List Value) :
    bulkElems elems = (elems.map fun v => 7 + v.bulk).sum := by
  induction elems with
  | nil => rfl
  | cons v vs ih => rw [bulkElems, ih, List.map_cons, List.sum_cons]

theorem bulkPairs_eq (pairs : List (Bytes × Value)) :
    bulkPairs pairs =
      (pairs.map fun p => 7 + p.1.length).sum + (pairs.map fun p => 7 + p.2.bulk).sum := by
  induction pairs with
  | nil => rfl
  | cons p ps ih =>
      rw [bulkPairs, ih, List.map_cons, List.map_cons, List.sum_cons, List.sum_cons]
      omega

/-! ### What is not too large packs -/

variable {level : Nat} {v : Value}

theorem exists_pieces {α : Type} {f : α → Except Fault Piece} {size : α → Nat} {as : List α}
    (h : ∀ a ∈ as, ∃ p, f a = .ok p ∧ p.content.length ≤ size a) :
    ∃ ps : List Piece, as.map f = ps.map .ok ∧
      (ps.map Piece.room).sum ≤ (as.map fun a => 7 + size a).sum := by
  induction as with
  | nil => exact ⟨[], rfl, Nat.le_refl _⟩
  | cons a as ih =>
      obtain ⟨⟨p, hp, hle⟩, has⟩ := List.forall_mem_cons.mp h
      obtain ⟨ps, hps, hsum⟩ := ih has
      refine ⟨p :: ps, ?_, ?_⟩
      · rw [List.map_cons, List.map_cons, hp, hps]
      · have hroom : p.room = 7 + p.content.length := rfl
        rw [List.map_cons, List.map_cons, List.sum_cons, List.sum_cons]
        omega

theorem le_sum_of_mem {α : Type} (size : α → Nat) {as : List α} {a : α} (h : a ∈ as) :
    size a ≤ (as.map fun a => 7 + size a).sum := by
  have hle := List.le_sum_of_mem (List.mem_map_of_mem (f := fun a => 7 + size a) h)
  omega

/-- A value that packs within its bulk, wherever it stands. -/
def Compact (level : Nat) (v : Value) : Prop :=
  v.bulk ≤ maxField → ∃ p, v.piece level = .ok p ∧ p.content.length ≤ v.bulk

theorem exists_packElems {elems : List Value} (hd : level < maxDepth)
    (hn : elems.length ≤ maxChildren) (ih : ∀ v ∈ elems, Compact (level + 1) v)
    (hfit : 4 + bulkElems elems ≤ maxField) :
    ∃ c, packElems elems level = .ok c ∧ c.bytes.length ≤ 4 + bulkElems elems := by
  rw [bulkElems_eq] at hfit ⊢
  obtain ⟨ps, hps, hsum⟩ := exists_pieces fun v hv =>
    ih v hv (by have := le_sum_of_mem bulk hv; omega)
  obtain ⟨c, hc, hle⟩ := Container.exists_packArray hd (by rwa [List.length_map]) hps (by omega)
  exact ⟨c, hc, by omega⟩

theorem exists_packPairs {pairs : List (Bytes × Value)} (hd : level < maxDepth)
    (hn : pairs.length ≤ maxChildren) (ha : Keyed.Ascending Bytes.keyCompare pairs)
    (ih : ∀ p ∈ pairs, Compact (level + 1) p.2) (hfit : 4 + bulkPairs pairs ≤ maxField) :
    ∃ c, packPairs pairs level = .ok c ∧ c.bytes.length ≤ 4 + bulkPairs pairs := by
  rw [bulkPairs_eq] at hfit ⊢
  obtain ⟨ps, hps, hsum⟩ := exists_pieces fun p hp =>
    ih p hp (by have := le_sum_of_mem (fun p : Bytes × Value => p.2.bulk) hp; omega)
  have hkeys : ((Container.keyPieces (pairs.map fun p => (p.1, p.2.piece (level + 1))) ++ ps).map
      Piece.room).sum =
        (pairs.map fun p => 7 + p.1.length).sum + (ps.map Piece.room).sum := by
    rw [List.map_append, List.sum_append, Container.keyPieces, List.map_map, List.map_map]
    rfl
  have hcanonical := canonical_map (fun v => v.piece (level + 1)) pairs
  rw [kept_of_ascending ha] at hcanonical
  obtain ⟨c, hc, hle⟩ := Container.exists_packObject hcanonical hd (by rwa [List.length_map])
    (by rw [List.map_map]; exact hps) (by omega)
  exact ⟨c, hc, by omega⟩

theorem compact_of_isScalar (hv : v.isScalar = true) (hs : v.Storable) : Compact level v := by
  intro _
  obtain ⟨p, hp⟩ := hs.leafPiece hv
  refine ⟨p, by rw [piece_eq_leafPiece hv, hp], ?_⟩
  cases v with
  | null => cases hp; exact Nat.le_refl _
  | bool b => cases b <;> cases hp <;> exact Nat.le_refl _
  | string s => cases hp; exact Nat.le_refl _
  | number d =>
      simp only [leafPiece] at hp
      split at hp
      · cases hp; exact Nat.le_refl _
      · cases hp
  | _ => cases hv

theorem Packable.elems {raw : Bool} {elems : List Value}
    (h : (Value.array raw elems).Packable level) :
    raw = false ∧ level < maxDepth ∧ elems.length ≤ maxChildren ∧
      ∀ v ∈ elems, v.Packable (level + 1) := by
  obtain ⟨hc, hb, hs⟩ := h
  cases hc with
  | scalar hv => cases hv
  | array hc =>
      cases hb with
      | scalar hv => cases hv
      | array hd hn hb =>
          cases hs with
          | scalar hv => cases hv
          | array hs =>
              refine ⟨rfl, hd, Nat.le_trans hn (Nat.min_le_right _ _), fun v hv => ?_⟩
              exact ⟨hc v hv, hb v hv, hs v hv⟩

theorem Packable.pairs {pairs : List (Bytes × Value)} (h : (Value.object pairs).Packable level) :
    level < maxDepth ∧ pairs.length ≤ maxChildren ∧ Keyed.Ascending Bytes.keyCompare pairs ∧
      ∀ p ∈ pairs, p.2.Packable (level + 1) := by
  obtain ⟨hc, hb, hs⟩ := h
  cases hc with
  | scalar hv => cases hv
  | object ha hc =>
      cases hb with
      | scalar hv => cases hv
      | object hd hn _ hb =>
          cases hs with
          | scalar hv => cases hv
          | object hs =>
              refine ⟨hd, Nat.le_trans hn (Nat.min_le_right _ _), ha, fun p hp => ?_⟩
              exact ⟨hc p hp, hb p hp, hs p hp⟩

/-- A canonical tree whose bulk fits a field packs as a member. -/
theorem compact_of_packable (h : v.Packable level) : Compact level v := by
  induction v using induction_on_members generalizing level with
  | null | bool | number | string => exact compact_of_isScalar rfl h.storable
  | array raw elems ih =>
      intro hfit
      obtain ⟨rfl, hd, hn, he⟩ := h.elems
      rw [bulk] at hfit ⊢
      obtain ⟨c, hc, hle⟩ := exists_packElems hd hn (fun v hv => ih v hv (he v hv)) hfit
      refine ⟨.ofContainer c, ?_, hle⟩
      rw [piece_array, hc]
      rfl
  | object pairs ih =>
      intro hfit
      obtain ⟨hd, hn, ha, hp⟩ := h.pairs
      rw [bulk] at hfit ⊢
      obtain ⟨c, hc, hle⟩ := exists_packPairs hd hn ha (fun p hm => ih p hm (hp p hm)) hfit
      refine ⟨.ofContainer c, ?_, hle⟩
      rw [piece_object, hc]
      rfl
  | binary c =>
      cases h.isCanonical with
      | scalar hv => cases hv

theorem PackableRoot.packable (h : v.PackableRoot) (hv : ∀ w, v ≠ .array true [w]) :
    v.Packable 0 := by
  obtain ⟨hc, hb, hs⟩ := h
  cases hb with
  | raw hw => exact absurd rfl (hv _)
  | container hw hb =>
      refine ⟨?_, hb, hs⟩
      obtain ⟨w, rfl, -⟩ | ⟨-, hc⟩ := hc.wrapped_or
      · exact absurd rfl (hv w)
      · exact hc

/-- A whole canonical tree whose bulk fits a field packs. -/
theorem exists_pack (h : v.PackableRoot) (hfit : v.bulk ≤ maxField) : ∃ c, v.pack = .ok c := by
  obtain ⟨w, rfl, hw⟩ | ⟨hv, hcanon⟩ := h.isCanonicalRoot.wrapped_or
  · cases h.storable with
    | scalar hv => cases hv
    | array hs =>
        rw [bulk, bulkElems, bulkElems] at hfit
        have hcompact : Compact 1 w := compact_of_isScalar hw (hs w List.mem_cons_self)
        obtain ⟨p, hp, hle⟩ := hcompact (by omega)
        rw [pack, if_pos (holdsScalar_of_isScalar hw), hp]
        exact Container.exists_packRaw (by unfold Piece.room; omega)
  · cases hcanon with
    | scalar hs => cases hv.symm.trans hs
    | @array elems =>
        obtain ⟨-, hd, hn, he⟩ := (h.packable (by simp)).elems
        rw [bulk] at hfit
        have hcompact : ∀ v ∈ elems, Compact 1 v := fun v hv => compact_of_packable (he v hv)
        obtain ⟨c, hc, -⟩ := exists_packElems hd hn hcompact hfit
        rw [pack, elemPieces_eq_map]
        exact ⟨c, hc⟩
    | @object pairs =>
        obtain ⟨hd, hn, ha, hp⟩ := (h.packable (by simp)).pairs
        rw [bulk] at hfit
        have hcompact : ∀ p ∈ pairs, Compact 1 p.2 := fun p hm => compact_of_packable (hp p hm)
        obtain ⟨c, hc, -⟩ := exists_packPairs hd hn ha hcompact hfit
        rw [pack, pairPieces_eq_map]
        exact ⟨c, hc⟩

end Value

end PackedTree
