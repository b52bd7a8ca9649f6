import PackedTree.Bytes.Basic

/-! # Hash mixing

A 32-bit state absorbs one number at a time by `33 * state + n`.  A byte string is absorbed
as a marker, its length, and its bytes from last to first, so that a string never mixes like
the sequence of its parts.  Finished hashes are folded together with a rotation in between,
which makes the fold depend on their order.  All arithmetic wraps at 32 bits. -/

namespace PackedTree.Mix

/-- The state that has absorbed nothing. -/
def start : UInt32 := 5381

/-- The number that announces a byte string. -/
def stringMarker : UInt32 := 982454837

/-- Absorbs one number. -/
def number (state n : UInt32) : UInt32 := state * 33 + n

def string (state : UInt32) (b : Bytes) : UInt32 :=
  b.foldr (fun x s => number s x.toUInt32)
    (number (number state stringMarker) (UInt32.ofNat b.length))

/-- The hash of a byte string on its own. -/
def hash (b : Bytes) : UInt32 := string start b

/-- Folds a finished hash into an accumulator. -/
def fold (acc item : UInt32) : UInt32 := (acc <<< 1 ||| acc >>> 31) ^^^ item

end PackedTree.Mix
