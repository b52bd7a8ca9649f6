/-! # The limits of the format

A descriptor has 28 bits for a length or an end position, and a header has 28 bits for the
number of children; deeper nesting than `maxDepth` is refused by everything that builds or
unfolds whole trees. -/

namespace PackedTree

/-- The bits of a length or an end position. -/
def fieldBits : Nat := 28

/-- The number of values that a length or an end position can have. -/
def fieldSpan : Nat := 1 <<< fieldBits

theorem fieldSpan_eq : fieldSpan = 268435456 := rfl

/-- The largest length or end position. -/
def maxField : Nat := fieldSpan - 1

/-- The most elements of an array, or pairs of an object. -/
def maxChildren : Nat := fieldSpan - 1

/-- The most containers around a value; the outermost one is at depth one. -/
def maxDepth : Nat := 512

/-- Descriptors at multiples of this position record where a child ends, all others how long
it is. -/
def stride : Nat := 32

end PackedTree
