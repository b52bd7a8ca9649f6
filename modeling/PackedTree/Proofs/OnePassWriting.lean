import PackedTree.Bytes.Draft
import PackedTree.Proofs.MemberPieces
import PackedTree.Proofs.PackedWeight

/-! # Writing values in one pass

`Value.pack` lays out the members of a container as pieces that do not know where they end up.  A
value can also be written straight into one growing draft: a container sets aside its directory,
lets every child write itself behind what is already there, and fills in the descriptors as it
learns the lengths.  There everything is aligned to positions of the whole draft, and the padding in
front of a nested container counts as part of it.

Both ways lead to the same bytes, because every container begins at a multiple of four and the
padding of a child depends on nothing but the remainder of its position
(`padding_add_four_mul`).  `Writer.Writes` says that a writer appends a piece behind its padding, or
fails as the piece does; `write_writes` proves it of every value, and `Value.written_eq_pack`
concludes that the container written for a value, or the fault, is the one it packs to.

So the members of a packed value are stored as if each stood alone (`Value.members_packed_alone`).
-/

namespace PackedTree

/-! ### Writers -/

/-- Something that appends itself to a draft and tells its relative descriptor. -/
abbrev Writer := Draft → Except Fault (Descriptor × Draft)

namespace Writer

def fail (f : Fault) : Writer := fun _ => .error f

/-- Writes the content of a piece at the next position that its tag allows. -/
def ofPiece (p : Piece) : Writer := fun w => do
  let (pad, w) := w.padTo p.tag.align
  let d ← p.entry pad
  .ok (d, w.append p.content)

/-- The descriptor of the child at `index` that ends at `stop`, in the form that the directory
has there. -/
def settle (tooLarge : Fault) (index stop : Nat) (d : Descriptor) : Except Fault Descriptor :=
  if maxField < stop then .error tooLarge
  else if index % stride = 0 then d.withStop stop
  else .ok d

/-- Writes children that follow `index` others of `total` bytes together, and fills in their
descriptors in the directory at `entries`. -/
def children (tooLarge : Fault) (entries : Nat) :
    Nat → Nat → List Writer → Draft → Except Fault Draft
  | _, _, [], w => .ok w
  | index, total, child :: rest, w => do
      let (d, w) ← child w
      let total := total + d.field
      let d ← settle tooLarge index total d
      -- The slot was set aside, so it is there to be filled in.
      let w := (w.patch? (entries + 4 * index) d.toWord).getD w
      children tooLarge entries (index + 1) total rest w

/-- Writes a container with the given header and children. -/
def container (h : Header) (rest : List Writer) : Writer := fun w => do
  let base := w.size
  let (_, w) := w.padTo Tag.container.align
  let (entries, w) := (w.word h.toWord).reserve (4 * rest.length)
  let w ← children h.shape.tooLarge entries 0 0 rest w
  if maxField < w.size - base then .error h.shape.tooLarge
  else
    let d ← Descriptor.make .container (w.size - base) false
    .ok (d, w)

theorem one_le_maxChildren : 1 ≤ maxChildren := by decide

theorem len_raw_one (_ : Shape.raw = .raw) : 1 = 1 := rfl

def raw (child : Writer) : Writer :=
  container ⟨.raw, 1, one_le_maxChildren, len_raw_one⟩ [child]

/-- Writes an array inside `level` containers. -/
def array (level : Nat) (elems : List Writer) : Writer :=
  if maxDepth ≤ level then fail (.tooDeep maxDepth)
  else if h : elems.length ≤ maxChildren then
    container ⟨.array, elems.length, h, nofun⟩ elems
  else fail (.tooManyElements elems.length maxChildren)

/-- Writes an object inside `level` containers: of its pairs those that stay, first their keys and
then their values. -/
def object (level : Nat) (pairs : List (Bytes × Writer)) : Writer :=
  if maxDepth ≤ level then fail (.tooDeep maxDepth)
  else
    let kept := Keyed.canonical Bytes.keyCompare pairs
    if h : kept.length ≤ maxChildren then
      container ⟨.object, kept.length, h, nofun⟩
        (kept.map (fun p => ofPiece (.ofString p.1)) ++ kept.map Prod.snd)
    else fail (.tooManyPairs kept.length maxChildren)

/-- The container that is written into an empty draft. -/
def whole (writer : Writer) : Except Fault Container := do
  let (_, w) ← writer .empty
  Container.ofBytes w.bytes

end Writer

namespace Value

mutual

/-- Writes a member inside `level` containers. -/
def write : Value → Nat → Writer
  | .array true [v], level => v.write (level + 1)
  | .array true _, _ => .fail (.unexpected .beginArray .rawSize)
  | .array false elems, level => .array level (elemWriters elems (level + 1))
  | .object pairs, level => .object level (pairWriters pairs (level + 1))
  | .binary c, _ => fun w => do Writer.ofPiece (← leafPiece (← c.unwrapped)) w
  | v, _ => fun w => do Writer.ofPiece (← v.leafPiece) w

def elemWriters : List Value → Nat → List Writer
  | [], _ => []
  | v :: vs, level => v.write level :: elemWriters vs level

/-- The writers of the values of pairs, with their keys. -/
def pairWriters : List (Bytes × Value) → Nat → List (Bytes × Writer)
  | [], _ => []
  | (k, v) :: ps, level => (k, v.write level) :: pairWriters ps level

end

/-- The container that is written for a whole value. -/
def written : Value → Except Fault Container
  | .binary c => Container.ofBytes (Draft.empty.append c.bytes).bytes
  | .array true [v] =>
      if v.holdsScalar then (Writer.raw (v.write 1)).whole
      else .error (.unexpected .beginArray .rawHoldsContainer)
  | .array true elems => .error (rawCountFault elems.length)
  | .array false elems => ((Value.array false elems).write 0).whole
  | .object pairs => ((Value.object pairs).write 0).whole
  | v => (Writer.raw (v.write 1)).whole

end Value

/-! ### Drafts -/

/-- Behind a multiple of four the padding is what it is at the beginning. -/
theorem padding_add_four_mul (k n : Nat) (t : Tag) :
    Bytes.padding (4 * k + n) t.align = Bytes.padding n t.align := by
  cases t <;> simp only [Bytes.padding, Bytes.alignUp, Tag.align] <;> omega

namespace Draft

variable {front payload : Bytes} {done : List UInt32} {left : Nat}

theorem patch?_slot (front back : Bytes) {slot : Bytes} (h : slot.length = 4) (w : UInt32) :
    (Draft.mk (front ++ (slot ++ back))).patch? front.length w =
      some ⟨front ++ (Bytes.ofWord w ++ back)⟩ := by
  have hdrop : (front ++ (slot ++ back)).drop (front.length + 4) = back := by
    rw [← List.drop_drop, List.drop_left, ← h, List.drop_left]
  have hlen : front.length + 4 ≤ (Draft.mk (front ++ (slot ++ back))).size := by
    rw [size, List.length_append, List.length_append]
    omega
  unfold patch?
  rw [if_pos hlen, List.take_left, hdrop, List.append_assoc]

/-- A draft that holds a directory of which `left` slots are not filled in yet. -/
def filling (front : Bytes) (done : List UInt32) (left : Nat) (payload : Bytes) : Draft :=
  ⟨front ++ (done.flatMap Bytes.ofWord ++ (List.replicate (4 * left) 0 ++ payload))⟩

theorem size_filling : (filling front done left payload).size =
    front.length + 4 * (done.length + left) + payload.length := by
  simp only [size, filling, List.length_append, Container.length_flatMap_ofWord,
    List.length_replicate]
  omega

theorem append_filling (b : Bytes) :
    (filling front done left payload).append b = filling front done left (payload ++ b) := by
  simp only [append, filling, List.append_assoc]

theorem patch?_filling (w : UInt32) :
    (filling front done (left + 1) payload).patch? (front.length + 4 * done.length) w =
      some (filling front (done ++ [w]) left payload) := by
  have hzeros : List.replicate (4 * (left + 1)) (0 : UInt8) =
      List.replicate 4 0 ++ List.replicate (4 * left) 0 := by
    rw [List.replicate_append_replicate]
    congr 1
    omega
  have hlen : (front ++ done.flatMap Bytes.ofWord).length = front.length + 4 * done.length := by
    rw [List.length_append, Container.length_flatMap_ofWord]
  have hzero : (List.replicate 4 (0 : UInt8)).length = 4 := List.length_replicate
  have hslot := patch?_slot (front ++ done.flatMap Bytes.ofWord)
    (List.replicate (4 * left) 0 ++ payload) hzero w
  rw [hlen] at hslot
  simp only [filling, hzeros, List.append_assoc, List.flatMap_append, List.flatMap_cons,
    List.flatMap_nil, List.append_nil] at hslot ⊢
  exact hslot

end Draft

/-! ### Writers of pieces -/

/-- What a piece takes up behind the position `offset`: its padding and its content. -/
def Piece.padded (p : Piece) (offset : Nat) : Bytes :=
  List.replicate (Bytes.padding offset p.tag.align) 0 ++ p.content

theorem Piece.length_padded (p : Piece) (offset : Nat) :
    offset + (p.padded offset).length = Bytes.alignUp offset p.tag.align + p.content.length := by
  have halign := Bytes.le_alignUp offset p.tag.align_pos
  rw [padded, List.length_append, List.length_replicate, Bytes.padding]
  omega

namespace Writer

open Container

variable {tooLarge : Fault} {index offset level : Nat} {d : Descriptor} {p : Piece}
  {writer : Writer} {writers : List Writer} {piece : Except Fault Piece}
  {pieces : List (Except Fault Piece)}

/-- The writer appends the piece behind the padding that it needs where it stands, or it fails as
the piece does. -/
def Writes (writer : Writer) (piece : Except Fault Piece) : Prop :=
  ∀ w, writer w = piece >>= fun p => ofPiece p w

theorem writes_ofPiece (p : Piece) : (ofPiece p).Writes (.ok p) := fun _ => rfl

theorem writes_fail (f : Fault) : (fail f).Writes (.error f) := fun _ => rfl

theorem stop_of_settle {e : Descriptor} (h : settle tooLarge index (d.stop offset) d = .ok e) :
    e.stop offset = d.stop offset := by
  unfold settle at h
  split_ifs at h
  · obtain ⟨-, habs, hfield⟩ := parts_of_make h
    rw [Descriptor.stop, habs, hfield]
    rfl
  · cases h
    rfl

theorem describe_eq (tooLarge : Fault) (index offset : Nat) (p : Piece) :
    describe tooLarge index offset p = (do
      let d ← p.entry (Bytes.padding offset p.tag.align)
      settle tooLarge index (d.stop offset) d) := rfl

/-- Writing a piece and settling its descriptor is describing the piece, where the draft is aligned
as the payload is. -/
theorem ofPiece_settle {α : Type} {w : Draft}
    (hw : Bytes.padding w.size p.tag.align = Bytes.padding offset p.tag.align)
    (k : Nat → Descriptor → Draft → Except Fault α) :
    (do
      let (d, w) ← ofPiece p w
      let e ← settle tooLarge index (offset + d.field) d
      k (offset + d.field) e w) =
    (do
      let d ← describe tooLarge index offset p
      k (d.stop offset) d (w.append (p.padded offset))) := by
  have happend : (w.append (List.replicate (Bytes.padding offset p.tag.align) 0)).append p.content =
      w.append (p.padded offset) := by
    simp only [Draft.append, Piece.padded, List.append_assoc]
  rw [describe_eq]
  simp only [ofPiece, Draft.padTo, hw, happend]
  cases hd : p.entry (Bytes.padding offset p.tag.align) with
  | error f => rfl
  | ok d =>
      obtain ⟨-, habs, -⟩ := parts_of_make (Piece.entry_eq_ok_iff.mp hd)
      have hstop : d.stop offset = offset + d.field := by
        rw [Descriptor.stop, habs]
        rfl
      simp only [bind, Except.bind, ← hstop]
      cases he : settle tooLarge index (d.stop offset) d with
      | error f => rfl
      | ok e =>
          show k (d.stop offset) e _ = k (e.stop offset) e _
          rw [stop_of_settle he]

/-- The draft that is left when the directory is filled in and the payload is complete. -/
def filled (front : Bytes) (done : List UInt32) (payload : Bytes) (r : List UInt32 × Bytes) :
    Draft :=
  .filling front (done ++ r.1) 0 (payload ++ r.2)

theorem map_filled_layOut_cons (front payload : Bytes) (done : List UInt32)
    (hd : describe tooLarge index offset p = .ok d) :
    (layOut tooLarge index offset (.ok p :: pieces)).map (filled front done payload) =
      (layOut tooLarge (index + 1) (d.stop offset) pieces).map
        (filled front (done ++ [d.toWord]) (payload ++ p.padded offset)) := by
  simp only [layOut, hd, bind, Except.bind]
  cases layOut tooLarge (index + 1) (d.stop offset) pieces with
  | error f => rfl
  | ok r =>
      simp only [Except.map, filled, Piece.padded, List.append_assoc, List.cons_append,
        List.nil_append]

/-- Writers of pieces, one after the other, write what is laid out for the pieces. -/
theorem children_eq_layOut (tooLarge : Fault) {front : Bytes} (done : List UInt32) (payload : Bytes)
    (hfront : 4 ∣ front.length) (h : List.Forall₂ Writes writers pieces) :
    children tooLarge front.length done.length payload.length writers
        (.filling front done writers.length payload) =
      (layOut tooLarge done.length payload.length pieces).map (filled front done payload) := by
  induction h generalizing done payload with
  | nil => simp only [children, layOut, Except.map, filled, List.append_nil, List.length_nil]
  | @cons writer piece writers pieces hw _ ih =>
      rw [children, hw]
      cases piece with
      | error f => rfl
      | ok p =>
          obtain ⟨k, hk⟩ := hfront
          -- The child stands behind whole words, which leaves its padding as in the payload alone.
          have hpad : Bytes.padding (Draft.filling front done (writers.length + 1) payload).size
              p.tag.align = Bytes.padding payload.length p.tag.align := by
            rw [Draft.size_filling, hk, ← Nat.mul_add, padding_add_four_mul]
          refine (ofPiece_settle hpad fun total d w => children tooLarge front.length
            (done.length + 1) total writers
              ((w.patch? (front.length + 4 * done.length) d.toWord).getD w)).trans ?_
          cases hd : describe tooLarge done.length payload.length p with
          | error f =>
              simp only [layOut, hd, bind, Except.bind]
              rfl
          | ok d =>
              obtain ⟨-, -, hstop, -⟩ := describe_spec hd
              have hlen : (payload ++ p.padded payload.length).length = d.stop payload.length := by
                rw [List.length_append, p.length_padded, hstop]
              have hdone : (done ++ [d.toWord]).length = done.length + 1 := List.length_append
              have hrest := ih (done ++ [d.toWord]) (payload ++ p.padded payload.length)
              rw [hlen, hdone] at hrest
              rw [map_filled_layOut_cons front payload done hd, Draft.append_filling]
              show children _ _ _ _ _ ((Draft.patch? _ _ _).getD _) = _
              rw [Draft.patch?_filling]
              exact hrest

/-! ### Writers of containers -/

theorem ofPieces_of_layOut {h : Header} (hl : pieces.length = h.entryCount)
    {r : List UInt32 × Bytes} (hr : layOut h.shape.tooLarge 0 0 pieces = .ok r) :
    ∃ c : Container, c.header = h ∧ c.words = r.1 ∧ c.payload = r.2 ∧
      ofPieces h pieces hl = if maxField < c.size then .error h.shape.tooLarge else .ok c := by
  refine ⟨⟨h, r.1, r.2, (length_of_layOut hr).trans hl⟩, rfl, rfl, rfl, ?_⟩
  unfold ofPieces
  split
  · next hf => cases hr.symm.trans hf
  · next hok =>
      cases hr.symm.trans hok
      rfl

theorem ofPieces_of_layOut_error {h : Header} {hl : pieces.length = h.entryCount} {f : Fault}
    (hr : layOut h.shape.tooLarge 0 0 pieces = .error f) : ofPieces h pieces hl = .error f := by
  unfold ofPieces
  split
  · next hf =>
      cases hf.symm.trans hr
      rfl
  · next hok => cases hr.symm.trans hok

/-- A writer that writes a container, if there is one to write. -/
def WritesContainer (writer : Writer) (c : Except Fault Container) : Prop :=
  writer.Writes (c.map .ofContainer)

/-- What is written of a container before its directory. -/
def front (h : Header) (w : Draft) : Bytes :=
  w.bytes ++ (List.replicate (Bytes.padding w.size 4) 0 ++ Bytes.ofWord h.toWord)

theorem length_front (h : Header) (w : Draft) :
    (front h w).length = w.size + Bytes.padding w.size 4 + 4 := by
  simp only [front, List.length_append, List.length_replicate, Bytes.length_ofWord, Draft.size]
  omega

theorem four_dvd_length_front (h : Header) (w : Draft) : 4 ∣ (front h w).length := by
  have halign := Bytes.dvd_alignUp w.size 4
  have hle := Bytes.le_alignUp w.size (show 0 < 4 by decide)
  rw [length_front, Bytes.padding]
  omega

/-- The end of a container, once its children are written. -/
def finish (tooLarge : Fault) (base : Nat) (w : Draft) : Except Fault (Descriptor × Draft) :=
  if maxField < w.size - base then .error tooLarge
  else do
    let d ← Descriptor.make .container (w.size - base) false
    .ok (d, w)

theorem finish_of_le {tooLarge : Fault} {base : Nat} {w : Draft} (h : w.size - base ≤ maxField) :
    finish tooLarge base w = .ok (⟨.container, false, _, h⟩, w) := by
  rw [finish, if_neg (Nat.not_lt.mpr h), make_of_le h]
  rfl

theorem container_eq (h : Header) (writers : List Writer) (w : Draft) :
    container h writers w =
      (children h.shape.tooLarge (front h w).length 0 0 writers
        (.filling (front h w) [] writers.length [])) >>= finish h.shape.tooLarge w.size := by
  have hstart : (((w.padTo 4).2.word h.toWord).reserve (4 * writers.length)) =
      ((front h w).length, .filling (front h w) [] writers.length []) := by
    simp only [Draft.reserve, Draft.word, Draft.append, Draft.padTo, Draft.filling, front,
      Draft.size, List.append_assoc, List.flatMap_nil, List.nil_append, List.append_nil]
  have htag : Tag.container.align = 4 := rfl
  simp only [container, htag, hstart]
  rfl

/-- The draft behind which a container was appended, with its padding. -/
def appended (w : Draft) (c : Container) : Draft :=
  (w.append (List.replicate (Bytes.padding w.size 4) 0)).append c.bytes

/-- The finished draft ends with the container, which ends with its payload. -/
theorem filled_eq_append {h : Header} {r : List UInt32 × Bytes} {c : Container} (w : Draft)
    (hh : c.header = h) (hw : c.words = r.1) (hp : c.payload = r.2) :
    filled (front h w) [] [] r = appended w c := by
  simp only [appended, filled, Draft.filling, front, Draft.append, bytes, ← hh, ← hw, ← hp,
    List.nil_append, List.append_assoc, Nat.mul_zero, List.replicate_zero]

theorem size_appended (w : Draft) (c : Container) :
    (appended w c).size - w.size = Bytes.padding w.size 4 + c.size := by
  rw [appended, Draft.size_append, Draft.size_append, List.length_replicate, length_bytes]
  omega

/-- A container that is appended as a piece ends as one that is written child by child: if it is too
large with its padding, by the fault of its shape. -/
theorem ofPiece_container (c : Container) (w : Draft) :
    ofPiece (.ofContainer c) w = finish c.header.shape.tooLarge w.size (appended w c) := by
  have hsize := size_appended w c
  have hentry : ofPiece (.ofContainer c) w = (do
      let d ← (Piece.ofContainer c).entry (Bytes.padding w.size 4)
      .ok (d, appended w c)) := rfl
  rw [hentry, finish, hsize, Piece.entry, Piece.content_ofContainer, length_bytes]
  split_ifs with hmax
  · rw [Descriptor.make, dif_neg (Nat.not_le.mpr hmax)]
    rfl
  · rw [make_of_le (Nat.not_lt.mp hmax)]
    rw [Piece.ofContainer, make_of_le (Nat.not_lt.mp hmax)]
    rfl

/-- Writers of pieces make a writer of the container that is put together from the pieces. -/
theorem writesContainer_container {h : Header} (hw : List.Forall₂ Writes writers pieces)
    (hl : pieces.length = h.entryCount) :
    (container h writers).WritesContainer (ofPieces h pieces hl) := by
  intro w
  have hchildren := children_eq_layOut h.shape.tooLarge [] [] (four_dvd_length_front h w) hw
  rw [container_eq]
  refine (congrArg (· >>= finish h.shape.tooLarge w.size) hchildren).trans ?_
  cases hr : layOut h.shape.tooLarge 0 0 pieces with
  | error f =>
      rw [ofPieces_of_layOut_error hr]
      rfl
  | ok r =>
      obtain ⟨c, hh, hwords, hpayload, hc⟩ := ofPieces_of_layOut hl hr
      rw [hc]
      show finish h.shape.tooLarge w.size (filled (front h w) [] [] r) = _
      rw [filled_eq_append w hh hwords hpayload]
      split_ifs with hmax
      · rw [finish, size_appended, if_pos (by omega)]
        rfl
      · rw [← hh]
        exact (ofPiece_container c w).symm

theorem writesContainer_raw (h : writer.Writes piece) :
    (raw writer).WritesContainer (packRaw piece) :=
  writesContainer_container (.cons h .nil) rfl

theorem writesContainer_array (h : List.Forall₂ Writes writers pieces) :
    (array level writers).WritesContainer (packArray level pieces) := by
  have hlen := h.length_eq
  unfold array packArray
  split_ifs with hd hn hn' hn'
  · exact writes_fail _
  · have hh : (⟨.array, writers.length, hn, nofun⟩ : Header) =
        ⟨.array, pieces.length, hn', nofun⟩ := by simp only [hlen]
    rw [hh]
    exact writesContainer_container h rfl
  · omega
  · omega
  · rw [hlen]
    exact writes_fail _

theorem forall₂_writes {α : Type} {as : List α} {f : α → Writer} {g : α → Except Fault Piece}
    (h : ∀ a ∈ as, (f a).Writes (g a)) : List.Forall₂ Writes (as.map f) (as.map g) := by
  rw [List.forall₂_map_left_iff, List.forall₂_map_right_iff]
  exact List.forall₂_same.mpr h

theorem writesContainer_object {pairs : List (Bytes × Value)} {f : Value → Writer}
    {g : Value → Except Fault Piece} (h : ∀ q ∈ Value.kept pairs, (f q.2).Writes (g q.2)) :
    (object level (pairs.map fun q => (q.1, f q.2))).WritesContainer
      (packObject level (pairs.map fun q => (q.1, g q.2))) := by
  unfold object packObject
  dsimp only
  simp only [Value.canonical_map f, Value.canonical_map g, objectPieces, List.length_map,
    List.map_map]
  split_ifs with hd hn
  · exact writes_fail _
  · refine writesContainer_container (List.rel_append ?_ ?_) _
    · exact forall₂_writes fun q _ => writes_ofPiece (.ofString q.1)
    · exact forall₂_writes h
  · exact writes_fail _

end Writer

namespace Value

variable {v : Value} {level : Nat} {c : Container}

open Writer

/-! ### Writers of values -/

theorem elemWriters_eq_map (elems : List Value) (level : Nat) :
    elemWriters elems level = elems.map fun v => v.write level := by
  induction elems with
  | nil => rfl
  | cons v vs ih => rw [elemWriters, ih, List.map_cons]

theorem pairWriters_eq_map (pairs : List (Bytes × Value)) (level : Nat) :
    pairWriters pairs level = pairs.map fun q => (q.1, q.2.write level) := by
  induction pairs with
  | nil => rfl
  | cons q qs ih => rw [pairWriters, ih, List.map_cons]

/-- What writes a member writes its piece, wherever the member stands. -/
theorem write_writes (v : Value) (level : Nat) : (v.write level).Writes (v.piece level) := by
  induction v using induction_on_members generalizing level with
  | null | bool | number | string =>
      intro w
      rw [piece_eq_leafPiece rfl]
      rfl
  | array raw elems ih =>
      cases raw with
      | true =>
          match elems, ih with
          | [v], ih =>
              rw [write, piece]
              exact ih v (List.mem_singleton_self v) (level + 1)
          | [], _ => exact writes_fail _
          | _ :: _ :: _, _ => exact writes_fail _
      | false =>
          rw [write, piece, elemWriters_eq_map, elemPieces_eq_map]
          exact writesContainer_array (forall₂_writes fun v hv => ih v hv (level + 1))
  | object pairs ih =>
      rw [write, piece, pairWriters_eq_map, pairPieces_eq_map]
      exact writesContainer_object (f := fun v => v.write (level + 1))
        (g := fun v => v.piece (level + 1)) fun q hq => ih q (mem_of_mem_kept hq) (level + 1)
  | binary c =>
      intro w
      rw [write, piece]
      cases c.unwrapped <;> rfl

end Value

/-! ### Whole values -/

theorem Writer.WritesContainer.whole_eq {writer : Writer} {x : Except Fault Container}
    (h : writer.WritesContainer x) (hx : ∀ c, x = .ok c → c.size ≤ maxField) :
    writer.whole = x := by
  unfold whole
  rw [h .empty]
  cases x with
  | error f => rfl
  | ok c =>
      have hfit : (Writer.appended .empty c).size - Draft.empty.size ≤ maxField := by
        rw [size_appended, show Bytes.padding Draft.empty.size 4 = 0 from rfl, Nat.zero_add]
        exact hx c rfl
      show (Writer.ofPiece (.ofContainer c) .empty >>= _) = _
      rw [ofPiece_container, finish_of_le hfit]
      exact Container.ofBytes_bytes c

namespace Value

variable {v : Value} {level : Nat} {c : Container}

open Writer

/-- Written in one pass, a value becomes the container that it packs to, or fails as packing it
does. -/
theorem written_eq_pack (v : Value) : v.written = v.pack := by
  have hraw : ∀ v : Value, (raw (v.write 1)).whole = Container.packRaw (v.piece 1) :=
    fun v => (writesContainer_raw (v.write_writes 1)).whole_eq fun _ => Container.size_le_of_packRaw
  cases v with
  | null | bool | number | string =>
      rw [(pack_scalar rfl).1]
      exact hraw _
  | array raw elems =>
      cases raw with
      | true =>
          match elems with
          | [v] =>
              rw [written, pack, hraw]
          | [] => rfl
          | _ :: _ :: _ => rfl
      | false =>
          rw [written, pack, elemPieces_eq_map, write, elemWriters_eq_map]
          refine (writesContainer_array ?_).whole_eq fun _ => Container.size_le_of_packArray
          exact forall₂_writes fun v _ => v.write_writes 1
  | object pairs =>
      rw [written, pack, pairPieces_eq_map, write, pairWriters_eq_map]
      refine (writesContainer_object (f := fun v => v.write 1) (g := fun v => v.piece 1)
        fun q _ => q.2.write_writes 1).whole_eq fun _ => Container.size_le_of_packObject
  | binary c => exact Container.ofBytes_bytes c

theorem piece_of_pack (hv : v.isTree = true) (h : v.pack = .ok c) (hs : v.bare.isScalar = false)
    {p : Piece} (hp : v.piece level = .ok p) : p.copy = (Piece.ofContainer c).copy := by
  obtain ⟨x, hx, hheld⟩ := exists_held hv hp
  have hbare := bare_of_pack hv h hs
  rw [hbare] at hs hheld
  cases hheld with
  | scalar hscalar => cases hs.symm.trans hscalar
  | container _ hpack =>
      cases h.symm.trans hpack
      exact (Except.ok.inj hx).symm

/-- In whatever draft an array or object is written, it appends its container behind padding. -/
theorem bytes_of_write (hv : v.isTree = true) (h : v.pack = .ok c) (hs : v.bare.isScalar = false)
    {w w' : Draft} {d : Descriptor} (hw : v.write level w = .ok (d, w')) :
    w'.bytes = w.bytes ++ (List.replicate (Bytes.padding w.size 4) 0 ++ c.bytes) := by
  rw [v.write_writes level w] at hw
  cases hp : v.piece level with
  | error f => rw [hp] at hw; cases hw
  | ok p =>
      have hcopy := piece_of_pack hv h hs hp
      obtain ⟨tag, content, shape⟩ := p
      obtain rfl : tag = .container := congrArg Piece.tag hcopy
      obtain rfl : content = c.bytes := congrArg Piece.content hcopy
      rw [hp] at hw
      simp only [bind, Except.bind, ofPiece, Draft.padTo] at hw
      split at hw
      · cases hw
      · cases hw
        simp only [Draft.append, List.append_assoc]
        rfl

/-- What has a container as its piece can be written where the container fits a field. -/
theorem exists_write (hp : v.piece level = .ok (.ofContainer c)) {w : Draft}
    (hfit : Bytes.padding w.size 4 + c.size ≤ maxField) :
    ∃ d w', v.write level w = .ok (d, w') := by
  rw [← size_appended] at hfit
  have hwrite : v.write level w = finish c.header.shape.tooLarge w.size (appended w c) := by
    rw [v.write_writes level w, hp]
    exact ofPiece_container c w
  rw [hwrite, finish_of_le hfit]
  exact ⟨_, _, rfl⟩

/-- A value that packs is written as the same container in one pass.  Its members are its children
behind the keys, each without the wrappers around it: a scalar as it is, and an array or object as
the container that it packs to alone.  What precedes an array or object in the draft, and how deep
it is nested, is seen in nothing but the padding in front of it. -/
theorem members_packed_alone (hv : v.isTree = true) (h : v.pack = .ok c) :
    v.written = .ok c ∧ c.len = v.members.length ∧
      (∀ (i : Nat) (hi : i < v.members.length),
        (v.members[i].bare.isScalar = true →
          c.child (v.keys.length + i) = .ok v.members[i].bare) ∧
        (v.members[i].bare.isScalar = false →
          ∃ d, c.child (v.keys.length + i) = .ok (.binary d) ∧ v.members[i].bare.pack = .ok d)) ∧
      (v.bare.isScalar = false → ∀ level w d w', v.write level w = .ok (d, w') →
        w'.bytes = w.bytes ++ (List.replicate (Bytes.padding w.size 4) 0 ++ c.bytes)) := by
  have hstored := storedIn_of_pack hv h
  refine ⟨v.written_eq_pack.trans h, hstored.len, fun i hi => ?_, fun hs level w d w' =>
    bytes_of_write hv h hs⟩
  obtain ⟨x, hx, hheld⟩ := hstored.exists_child hv hi
  generalize v.members[i].bare = m at hheld ⊢
  cases hheld with
  | scalar hscalar => exact ⟨fun _ => hx, fun hs => (nomatch hs.symm.trans hscalar)⟩
  | container hcontainer hpack =>
      exact ⟨fun hs => (nomatch hs.symm.trans hcontainer), fun _ => ⟨_, hx, hpack⟩⟩

/-- The value of the second key is an array in two wrappers: it is the last child, packed as if it
stood alone, and behind a byte it is written behind three bytes of padding. -/
theorem members_packed_alone_wrapped :
    let elems : Value := .array false [.string [120], .number ⟨7, 0⟩]
    let v : Value := .object [([98], .array true [.array true [elems]]), ([97], .number ⟨5, 1⟩)]
    ∃ c d, v.pack = .ok c ∧ elems.pack = .ok d ∧ v.written = .ok c ∧
      c.child 2 = .ok (.number ⟨5, 1⟩) ∧ c.child 3 = .ok (.binary d) ∧
      ∃ e w', v.write 3 ⟨[1]⟩ = .ok (e, w') ∧ w'.bytes = [1] ++ ([0, 0, 0] ++ c.bytes) := by
  intro elems v
  let d : Container := ⟨⟨.array, 2, by decide, by decide⟩, [2147483649, 268435468],
    [120, 0, 0, 0, 0, 0, 0, 0, 0, 0, 0, 0, 7], rfl⟩
  let c : Container := ⟨⟨.object, 2, by decide, by decide⟩,
    [2147483649, 1, 268435467, 1342177308],
    [97, 98, 0, 0, 1, 0, 0, 0, 0, 0, 0, 0, 5, 0, 0, 0, 2, 0, 0, 64, 1, 0, 0, 128, 12, 0, 0, 16, 120,
      0, 0, 0, 0, 0, 0, 0, 0, 0, 0, 0, 7], rfl⟩
  have hs : Decimal.storable ⟨5, 1⟩ = true := by decide
  have hs' : Decimal.storable ⟨7, 0⟩ = true := by decide
  have hc : v.pack = .ok c := by
    simp only [v, elems, pack, elemPieces, pairPieces, piece, leafPiece, hs, hs', if_true]
    cbv
  have hd : elems.pack = .ok d := by
    simp only [elems, pack, elemPieces, piece, leafPiece, hs', if_true]
    cbv
  have hm : v.members = [.number ⟨5, 1⟩, .array true [.array true [elems]]] := by cbv
  have hk : v.keys.length = 2 := by cbv
  obtain ⟨hwritten, -, hchild, hwrite⟩ := members_packed_alone (v := v) rfl hc
  have hnumber := (hchild 0 (by rw [hm]; decide)).1
  have helems := (hchild 1 (by rw [hm]; decide)).2
  simp only [hm, hk] at hnumber helems
  obtain ⟨d', hd', hpack⟩ := helems rfl
  obtain rfl := Except.ok.inj (hpack.symm.trans hd)
  have hp : v.piece 3 = .ok (.ofContainer c) := by
    simp only [v, elems, elemPieces, pairPieces, piece, leafPiece, hs, hs', if_true]
    cbv
  obtain ⟨e, w', hw⟩ := exists_write (w := ⟨[1]⟩) hp (by decide)
  have hbytes := hwrite rfl 3 _ e w' hw
  have hpad : List.replicate (Bytes.padding (Draft.mk [1]).size 4) (0 : UInt8) = [0, 0, 0] := rfl
  rw [hpad] at hbytes
  exact ⟨c, d, hc, hd, hwritten, hnumber rfl, hd', e, w', hw, hbytes⟩

end Value

end PackedTree
