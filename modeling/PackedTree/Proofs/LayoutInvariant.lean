import PackedTree.Proofs.KeySearch
import PackedTree.Proofs.PackedWeight

/-! # The layout of packed values

`Container.WellLaid` collects what holds of the directory and the payload of every container in a
packed value: ends are recorded at the multiples of the stride and nowhere else, so that no start is
more than a stride of descriptors away; the ranges of the children follow one another and fill the
payload; keys ascend strictly; and a number or a nested container is its own bytes behind at most
three zero bytes that align it.

The single child is dealt with in `Container.Stores`; `wellLaid_of_storedIn` puts the children
together, and `Value.wellLaid_of_pack` reaches every container in a packed value, however deep. -/

namespace PackedTree

/-- The bytes of a number or of a nested container. -/
def Value.alignedBytes? : Value → Option Bytes
  | .number d => some d.bytes
  | .binary c => some c.bytes
  | _ => none

namespace Container

variable {c : Container} {i j o o' : Nat} {p : Piece} {ps : List Piece}

/-- What holds of the directory and the payload of a container in a packed value. -/
structure WellLaid (c : Container) : Prop where
  /-- A descriptor records an end exactly at the multiples of the stride. -/
  absolute : ∀ i < c.entryCount, ∃ d, c.entry i = .ok d ∧ (d.absolute = true ↔ i % stride = 0)
  /-- So every start, and the end of the last child, is found within a stride of descriptors. -/
  walk : ∀ i ≤ c.entryCount, ∃ o touched, c.walkBack i = .ok (o, touched) ∧ touched ≤ stride
  first : c.start 0 = .ok 0
  next : ∀ i < c.entryCount, ∃ o n, c.start i = .ok o ∧ c.length i = .ok n ∧
    c.start (i + 1) = .ok (o + n)
  last : c.start c.entryCount = .ok c.payload.length
  keys : c.isObject = true →
    ∃ keys, c.HasKeys keys ∧ keys.Pairwise fun k l => Bytes.keyCompare k l = .lt
  aligned : ∀ i d, c.entry i = .ok d → d.tag = .number ∨ d.tag = .container →
    ∃ x b o n pad, c.child i = .ok x ∧ x.alignedBytes? = some b ∧
      c.start i = .ok o ∧ c.length i = .ok n ∧ pad ≤ 3 ∧ 4 ∣ o + pad ∧
      c.payload.extract o (o + n) = List.replicate pad 0 ++ b

/-! ### One child -/

theorem Stores.start_next (h : c.Stores i o p o') : c.start (i + 1) = .ok o' := by
  obtain ⟨d, hd, -, -, hstop⟩ := h.entry
  rw [start_succ h.start hd, hstop]

theorem Stores.length_eq (h : c.Stores i o p o') :
    o' = o + (Bytes.padding o p.tag.align + p.content.length) := by
  have halign := Bytes.le_alignUp o p.tag.align_pos
  have hstop := h.stop
  unfold Bytes.padding
  omega

theorem Stores.length (h : c.Stores i o p o') : c.length i = .ok (o' - o) := by
  obtain ⟨d, hd, -, -, hstop⟩ := h.entry
  have hle := h.length_eq
  simp only [Container.length, hd, h.start, bind, Except.bind]
  unfold Descriptor.stop at hstop
  split_ifs at hstop ⊢
  · rw [hstop]
  · omega
  · rw [← hstop, Nat.add_sub_cancel_left]

theorem Stores.extract (h : c.Stores i o p o') :
    c.payload.extract o o' =
      List.replicate (Bytes.padding o p.tag.align) 0 ++ p.content := by
  rw [List.extract_eq_take_drop, h.payload, ← List.append_assoc]
  refine List.take_left' ?_
  rw [List.length_append, List.length_replicate, h.length_eq]
  omega

/-- Behind its padding a number or a nested container is aligned. -/
theorem dvd_add_padding (o : Nat) {t : Tag} (ht : t = .number ∨ t = .container) :
    4 ∣ o + Bytes.padding o t.align := by
  have halign : t.align = 4 := by rcases ht with rfl | rfl <;> rfl
  have hdvd := Bytes.dvd_alignUp o 4
  have hle := Bytes.le_alignUp o (show 0 < 4 by decide)
  rw [halign, Bytes.padding]
  omega

/-- Numbers and nested containers are the content of their own pieces. -/
theorem alignedBytes?_of_leafPiece {x : Value} (h : x.leafPiece = .ok p)
    (ht : p.tag = .number ∨ p.tag = .container) : x.alignedBytes? = some p.content := by
  cases x with
  | number d =>
      rw [Value.leafPiece] at h
      split at h
      · cases h
        rfl
      · cases h
  | binary c =>
      cases h
      rfl
  | null | string =>
      cases h
      rcases ht with ht | ht <;> cases ht
  | bool b =>
      cases b <;> cases h <;> rcases ht with ht | ht <;> cases ht
  | array | object => cases h

/-! ### Children in a row -/

theorem Lies.start_end (h : c.Lies j o ps) : c.start (j + ps.length) = .ok c.payload.length := by
  induction h with
  | nil hs ho => rw [← ho]; exact hs
  | cons hp ht ih => rwa [List.length_cons, Nat.add_comm _ 1, ← Nat.add_assoc]

/-- Where ends are recorded at the multiples of the stride, the walk back ends at the last of
them. -/
theorem walkBack_of_absolute
    (h : ∀ j ≤ i, ∃ d, c.entry j = .ok d ∧ d.absolute = decide (j % stride = 0)) :
    ∃ o, c.walkBack (i + 1) = .ok (o, i % stride + 1) := by
  induction i with
  | zero =>
      obtain ⟨d, hd, habs⟩ := h 0 (Nat.le_refl 0)
      have habs : d.absolute = true := habs
      refine ⟨d.field, ?_⟩
      simp only [walkBack, hd, bind, Except.bind, habs]
      rfl
  | succ i ih =>
      obtain ⟨d, hd, habs⟩ := h (i + 1) (Nat.le_refl _)
      obtain ⟨o, ho⟩ := ih fun j hj => h j (Nat.le_succ_of_le hj)
      rw [walkBack, hd]
      simp only [bind, Except.bind, habs, ho, decide_eq_true_eq]
      unfold stride at ho ⊢
      split_ifs with hs
      · exact ⟨d.field, by rw [hs]⟩
      · have hnext : i % 32 + 1 = (i + 1) % 32 := by omega
        exact ⟨o + d.field, by rw [hnext]⟩

theorem wellLaid_of_storedIn {v : Value} (hv : v.isTree = true) (h : v.StoredIn c) :
    c.WellLaid := by
  obtain ⟨ps, hlen, hl, hps⟩ := h.exists_pieces hv
  have hstores : ∀ i < c.entryCount, ∃ o o' p, p ∈ ps ∧ c.Stores i o p o' := fun i hi => by
    obtain ⟨o, o', hs⟩ := hl.stores (i := i) (by rwa [hlen])
    rw [Nat.zero_add] at hs
    exact ⟨o, o', _, List.getElem_mem _, hs⟩
  have hentry : ∀ i < c.entryCount, ∃ d, c.entry i = .ok d ∧
      d.absolute = decide (i % stride = 0) := fun i hi => by
    obtain ⟨o, o', p, -, hs⟩ := hstores i hi
    obtain ⟨d, hd, -, habs, -⟩ := hs.entry
    exact ⟨d, hd, habs⟩
  have hend := hl.start_end
  rw [Nat.zero_add, hlen] at hend
  constructor
  case absolute =>
    intro i hi
    obtain ⟨d, hd, habs⟩ := hentry i hi
    exact ⟨d, hd, by rw [habs, decide_eq_true_eq]⟩
  case walk =>
    intro i hi
    cases i with
    | zero => exact ⟨0, 0, rfl, Nat.zero_le _⟩
    | succ i =>
        obtain ⟨o, ho⟩ := walkBack_of_absolute (i := i) fun j hj => hentry j (by omega)
        exact ⟨o, _, ho, Nat.mod_lt i (by decide)⟩
  case first => exact hl.start
  case next =>
    intro i hi
    obtain ⟨o, o', p, -, hs⟩ := hstores i hi
    have hle := hs.length_eq
    refine ⟨o, o' - o, hs.start, hs.length, ?_⟩
    rw [hs.start_next]
    congr 1
    omega
  case last => exact hend
  case keys =>
    intro ho
    refine ⟨v.keys, h.hasKeys ho, ?_⟩
    cases v with
    | object pairs => exact Value.ascending_keys pairs
    | _ => exact .nil
  case aligned =>
    intro i d hd ht
    obtain ⟨o, o', p, hp, hs⟩ := hstores i (lt_of_entry hd)
    obtain ⟨d', hd', htag, -⟩ := hs.entry
    obtain rfl : d = d' := Except.ok.inj (hd.symm.trans hd')
    rw [htag] at ht
    obtain ⟨w, x, -, hx, -⟩ := hps p hp
    have hle := hs.length_eq
    refine ⟨x, p.content, o, o' - o, Bytes.padding o p.tag.align, ?_,
      alignedBytes?_of_leafPiece (p := p.copy) hx ht, hs.start, hs.length, padding_le_three o p.tag,
      dvd_add_padding o ht, ?_⟩
    · rw [hs.child, Value.decode_of_copy hx]
    · rw [Nat.add_sub_cancel' (by omega), hs.extract]

end Container

namespace Value

variable {v : Value} {c n : Container}

/-- Every container in a packed value, the outermost one included, is laid out well. -/
theorem wellLaid_of_pack (hv : v.isTree = true) (h : v.pack = .ok c)
    (hn : Relation.ReflTransGen Container.Holds c n) : n.WellLaid := by
  obtain ⟨w, hw, hpack⟩ := Container.IsPacked.of_reaches ⟨v, hv, h⟩ hn
  exact Container.wellLaid_of_storedIn hw (storedIn_of_pack hw hpack)

/-- The string in front of the object leaves three bytes of padding, and both containers are laid
out well. -/
theorem wellLaid_of_pack_nested :
    let v : Value := .array false [.string [120], .object [([97], .number ⟨7, 0⟩)]]
    ∃ c n, v.pack = .ok c ∧ c.child 1 = .ok (.binary n) ∧ c.WellLaid ∧ n.WellLaid := by
  intro v
  let n : Container := ⟨⟨.object, 1, by decide, by decide⟩, [2147483649, 268435468],
    [97, 0, 0, 0, 0, 0, 0, 0, 0, 0, 0, 0, 7], rfl⟩
  let c : Container := ⟨⟨.array, 2, by decide, by decide⟩, [2147483649, 1342177308],
    [120, 0, 0, 0, 1, 0, 0, 32, 1, 0, 0, 128, 12, 0, 0, 16, 97, 0, 0, 0, 0, 0, 0, 0, 0, 0, 0, 0, 7],
    rfl⟩
  have hs : Decimal.storable ⟨7, 0⟩ = true := by decide
  have hc : v.pack = .ok c := by
    simp only [v, pack, elemPieces, pairPieces, piece, leafPiece, hs, if_true]
    cbv
  have hn : c.child 1 = .ok (.binary n) := by cbv
  exact ⟨c, n, hc, hn, wellLaid_of_pack rfl hc .refl, wellLaid_of_pack rfl hc (.single ⟨1, hn⟩)⟩

end Value

end PackedTree
