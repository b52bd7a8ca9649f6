import PackedTree.Container.Layout
import PackedTree.Value.Basic

/-! # Packing values

The outermost value decides the container: a bare scalar is wrapped, an object is made
canonical, and a value that is already packed stays as it is.  Inside, a raw wrapper is
replaced by the value that it wraps, and packed members are copied. -/

namespace PackedTree.Value

/-- Whether a value is a scalar once raw wrappers are taken off.  A packed wrapper is taken at
its word. -/
def holdsScalar : Value → Bool
  | .array true [v] => v.holdsScalar
  | .array _ _ => false
  | .object _ => false
  | .binary c => c.isRaw
  | _ => true

/-- The piece of a value that has no members to pack. -/
def leafPiece : Value → Except Fault Piece
  | .null => .ok ⟨.null, [], none⟩
  | .bool false => .ok ⟨.no, [], none⟩
  | .bool true => .ok ⟨.yes, [], none⟩
  | .string s => .ok (.ofString s)
  | .number d => if d.storable then .ok ⟨.number, d.bytes, none⟩ else .error .invalidNumber
  | .binary c => .ok (Piece.ofContainer c).copy
  | .array _ _ | .object _ => .error (.unexpected .elem .scalarRequired)

mutual

/-- The piece of a member inside `level` containers. -/
def piece : Value → Nat → Except Fault Piece
  | .array true [v], level => v.piece (level + 1)
  | .array true _, _ => .error (.unexpected .beginArray .rawSize)
  | .array false elems, level =>
      (Container.packArray level (elemPieces elems (level + 1))).map .ofContainer
  | .object pairs, level =>
      (Container.packObject level (pairPieces pairs (level + 1))).map .ofContainer
  | .binary c, _ => do leafPiece (← c.unwrapped)
  | v, _ => v.leafPiece

def elemPieces : List Value → Nat → List (Except Fault Piece)
  | [], _ => []
  | v :: vs, level => v.piece level :: elemPieces vs level

/-- The pieces of the values of pairs, with their keys. -/
def pairPieces : List (Bytes × Value) → Nat → List (Bytes × Except Fault Piece)
  | [], _ => []
  | (k, v) :: ps, level => (k, v.piece level) :: pairPieces ps level

end

/-- The fault of a whole raw array that does not have one element: it is counted first. -/
def rawCountFault (count : Nat) : Fault :=
  if maxChildren < count then .tooManyElements count maxChildren
  else .unexpected .beginArray .rawSize

/-- The container of a value. -/
def pack : Value → Except Fault Container
  | .binary c => .ok c
  | .array true [v] =>
      if v.holdsScalar then Container.packRaw (v.piece 1)
      else .error (.unexpected .beginArray .rawHoldsContainer)
  | .array true elems => .error (rawCountFault elems.length)
  | .array false elems => Container.packArray 0 (elemPieces elems 1)
  | .object pairs => Container.packObject 0 (pairPieces pairs 1)
  | v => Container.packRaw v.leafPiece

end PackedTree.Value
