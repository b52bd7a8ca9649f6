import PackedTree.Container.Child
import PackedTree.Keyed

/-! # Laying out a container

A container is put together from the pieces of its children.  The content of each piece goes
to the next position that its tag allows, the padding in between counts as part of the child,
and the directory records lengths, or at multiples of `stride` ends.  A piece does not depend
on where it ends up, so nested containers are laid out first and become pieces like any other
child.  Only when a nested container fits a field alone and not with the padding in front of it,
the fault is that of its own shape; a container that is copied has no fault of its own.

`length_of_layOut` says that every piece gets its descriptor. -/

namespace PackedTree

/-- The stored form of one child; `shape` is that of a container which was laid out here. -/
structure Piece where
  tag : Tag
  content : Bytes
  shape : Option Shape
deriving DecidableEq, Repr

namespace Piece

/-- A string as a piece. -/
def ofString (s : Bytes) : Piece := ⟨.string, s, none⟩

/-- A container that was laid out here as a piece. -/
def ofContainer (c : Container) : Piece := ⟨.container, c.bytes, some c.header.shape⟩

/-- The piece of the same content that is copied from elsewhere. -/
def copy (p : Piece) : Piece := { p with shape := none }

/-- The descriptor of a piece behind `pad` bytes of padding, with the length of both. -/
def entry (p : Piece) (pad : Nat) : Except Fault Descriptor :=
  (Descriptor.make p.tag (pad + p.content.length) false).mapError fun f =>
    match p.shape with
    | none => f
    | some s => s.tooLarge

@[simp] theorem content_ofString (s : Bytes) : (ofString s).content = s := rfl

@[simp] theorem content_ofContainer (c : Container) : (ofContainer c).content = c.bytes := rfl

theorem entry_eq_ok_iff {p : Piece} {pad : Nat} {d : Descriptor} :
    p.entry pad = .ok d ↔ Descriptor.make p.tag (pad + p.content.length) false = .ok d := by
  unfold entry
  cases Descriptor.make p.tag (pad + p.content.length) false with
  | error f => exact ⟨nofun, nofun⟩
  | ok e => exact Iff.rfl

theorem entry_copy {p : Piece} {pad : Nat} {d : Descriptor} (h : p.entry pad = .ok d) :
    p.copy.entry pad = .ok d := by
  rw [entry_eq_ok_iff] at h ⊢
  exact h

end Piece

namespace Container

/-- The descriptor of a piece that follows `index` others, of which the last ends at `offset`;
`tooLarge` is the fault when the end does not fit a field. -/
def describe (tooLarge : Fault) (index offset : Nat) (p : Piece) : Except Fault Descriptor := do
  let d ← p.entry (Bytes.padding offset p.tag.align)
  if maxField < d.stop offset then .error tooLarge
  else if index % stride = 0 then d.withStop (d.stop offset)
  else .ok d

/-- The directory and the payload of pieces that follow `index` others, of which the last ends
at `offset`. -/
def layOut (tooLarge : Fault) : Nat → Nat → List (Except Fault Piece) →
    Except Fault (List UInt32 × Bytes)
  | _, _, [] => .ok ([], [])
  | index, offset, piece :: pieces => do
      let p ← piece
      let d ← describe tooLarge index offset p
      let (words, payload) ← layOut tooLarge (index + 1) (d.stop offset) pieces
      .ok (d.toWord :: words,
        List.replicate (Bytes.padding offset p.tag.align) 0 ++ (p.content ++ payload))

theorem length_of_layOut {tooLarge : Fault} {index offset : Nat}
    {pieces : List (Except Fault Piece)} {r : List UInt32 × Bytes}
    (h : layOut tooLarge index offset pieces = .ok r) : r.1.length = pieces.length := by
  induction pieces generalizing index offset r with
  | nil => cases h; rfl
  | cons piece pieces ih =>
      simp only [layOut, bind, Except.bind] at h
      split at h
      · cases h
      · split at h
        · cases h
        · split at h
          · cases h
          · next hr => cases h; exact congrArg Nat.succ (ih hr)

/-- The container with the given header and pieces. -/
def ofPieces (h : Header) (pieces : List (Except Fault Piece))
    (hl : pieces.length = h.entryCount) : Except Fault Container :=
  match hr : layOut h.shape.tooLarge 0 0 pieces with
  | .error f => .error f
  | .ok (words, payload) =>
      let c : Container := ⟨h, words, payload, (length_of_layOut hr).trans hl⟩
      if maxField < c.size then .error h.shape.tooLarge else .ok c

/-- The wrapper around one scalar. -/
def packRaw (piece : Except Fault Piece) : Except Fault Container :=
  ofPieces ⟨.raw, 1, by decide, fun _ => rfl⟩ [piece] rfl

/-- An array inside `level` others. -/
def packArray (level : Nat) (pieces : List (Except Fault Piece)) : Except Fault Container :=
  if maxDepth ≤ level then .error (.tooDeep maxDepth)
  else if h : pieces.length ≤ maxChildren then
    ofPieces ⟨.array, pieces.length, h, nofun⟩ pieces rfl
  else .error (.tooManyElements pieces.length maxChildren)

/-- The pieces of an object: first those of its keys, then those of its values. -/
def objectPieces (pairs : List (Bytes × Except Fault Piece)) : List (Except Fault Piece) :=
  pairs.map (fun p => .ok (.ofString p.1)) ++ pairs.map Prod.snd

theorem length_objectPieces (pairs : List (Bytes × Except Fault Piece)) :
    (objectPieces pairs).length = 2 * pairs.length := by
  rw [objectPieces, List.length_append, List.length_map, List.length_map, Nat.two_mul]

/-- An object inside `level` others. -/
def packObject (level : Nat) (pairs : List (Bytes × Except Fault Piece)) :
    Except Fault Container :=
  if maxDepth ≤ level then .error (.tooDeep maxDepth)
  else
    let kept := Keyed.canonical Bytes.keyCompare pairs
    if h : kept.length ≤ maxChildren then
      ofPieces ⟨.object, kept.length, h, nofun⟩ (objectPieces kept) (length_objectPieces kept)
    else .error (.tooManyPairs kept.length maxChildren)

end Container

end PackedTree
