import PackedTree.Json.Numeral
import PackedTree.Keyed

/-! # JSON documents

A document is a tree of the six JSON types.  The members of an object are kept in ascending
order of their names, each name once; `Json.ofMembers` brings a list of members into that
form, and the member written last wins. -/

namespace PackedTree

/-- A JSON document. -/
inductive Json where
  | null
  | bool (b : Bool)
  | number (n : Numeral)
  | string (s : String)
  | array (items : List Json)
  | object (members : List (String × Json))
deriving Repr, Inhabited

/-- The order of names: by code points. -/
def Json.nameCompare (a b : String) : Ordering := compare a.toList b.toList

/-- The object with the given members. -/
def Json.ofMembers (members : List (String × Json)) : Json :=
  .object (Keyed.canonical Json.nameCompare members)

end PackedTree
