import PackedTree.Container.Basic
import PackedTree.Bytes.KeyOrder
import PackedTree.Decimal.Basic

/-! # Values

A value is a scalar, an array or object held as a tree, or a container that is still packed.
Strings are bytes and need not be text.  An object is a list of pairs in any order, in which
a key may occur more than once; canonical objects have strictly ascending keys. -/

namespace PackedTree

/-- A semi-structured value. -/
inductive Value where
  | null
  | bool (b : Bool)
  | number (d : Decimal)
  | string (s : Bytes)
  /-- An array; a raw one is the wrapper around a bare scalar. -/
  | array (raw : Bool) (elems : List Value)
  | object (pairs : List (Bytes × Value))
  /-- A packed array or object. -/
  | binary (c : Container)
deriving Repr, Inhabited

/-- The kinds of values. -/
inductive Kind where
  | null
  | string
  | number
  | bool
  | array
  | object
deriving DecidableEq, Repr

namespace Kind

/-- The place of a kind in the order of values. -/
def rank : Kind → Nat
  | null => 0
  | string => 1
  | number => 2
  | bool => 3
  | array => 4
  | object => 5

theorem rank_inj {k l : Kind} (h : k.rank = l.rank) : k = l := by
  cases k <;> cases l <;> simp_all [rank]

end Kind

namespace Value

/-- The kind of a value; packed or not makes no difference. -/
def kind : Value → Kind
  | null => .null
  | bool _ => .bool
  | number _ => .number
  | string _ => .string
  | array _ _ => .array
  | object _ => .object
  | binary c => if c.isObject then .object else .array

/-- Whether a value is neither an array nor an object. -/
def isScalar : Value → Bool
  | null | bool _ | number _ | string _ => true
  | array _ _ | object _ | binary _ => false

instance (v : Value) : Decidable (v = null) :=
  match v with
  | null => .isTrue rfl
  | bool _ | number _ | string _ | array _ _ | object _ | binary _ => .isFalse nofun

def bytes? : Value → Option Bytes
  | string s => some s
  | _ => none

/-- The text of a string, if it is text. -/
def text? (v : Value) : Option String := v.bytes?.bind Bytes.toText?

def number? : Value → Option Decimal
  | number d => some d
  | _ => none

/-- The truth value, if the value is one. -/
def bool? : Value → Option Bool
  | bool b => some b
  | _ => none

/-- The value of the first pair with the given key. -/
def find? (pairs : List (Bytes × Value)) (key : Bytes) : Option Value :=
  (pairs.find? fun p => p.1 == key).map Prod.snd

/-! ### Sameness -/

mutual

/-- Whether two values are the same when numbers are taken by value. -/
def same : Value → Value → Bool
  | null, null => true
  | bool a, bool b => a == b
  | number a, number b => a.compare b == .eq
  | string a, string b => a == b
  | array r as, array s bs => r == s && sameElems as bs
  | object ps, object qs => samePairs ps qs
  | binary c, binary d => c == d
  | _, _ => false

def sameElems : List Value → List Value → Bool
  | [], [] => true
  | a :: as, b :: bs => same a b && sameElems as bs
  | _, _ => false

def samePairs : List (Bytes × Value) → List (Bytes × Value) → Bool
  | [], [] => true
  | (k, a) :: ps, (l, b) :: qs => k == l && same a b && samePairs ps qs
  | _, _ => false

end

end Value

end PackedTree
