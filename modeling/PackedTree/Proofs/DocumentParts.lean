import PackedTree.Json.Basic
import PackedTree.Proofs.ValueStream

/-! # Documents and what is in them

The members of a document are documents, and so on (`Json.parts`); a document has a number of
members (`Json.width`) and nests a number of containers (`Json.depth`).  A scalar that is a whole
document counts as an array with one element (`Json.wrapped`).

`Json.revised` is what storing may change in a document: members that are null can go, and numbers
can be spelled differently.  Objects are compared as sets of members here: objects with the same
members in a different order are the same object (`Json.ofMembers_eq_of_perm`), as long as no name
repeats (`Json.NamesUnique`). -/

namespace PackedTree.Json

/-- Induction over a document with the hypothesis at every member. -/
@[elab_as_elim]
theorem induction_on_members {motive : Json → Prop} (null : motive .null)
    (bool : ∀ b, motive (.bool b)) (number : ∀ n, motive (.number n))
    (string : ∀ s, motive (.string s))
    (array : ∀ items, (∀ v ∈ items, motive v) → motive (.array items))
    (object : ∀ members, (∀ m ∈ members, motive m.2) → motive (.object members))
    (doc : Json) : motive doc :=
  match doc with
  | .null => null
  | .bool b => bool b
  | .number n => number n
  | .string s => string s
  | .array items => array items fun v _ =>
      induction_on_members null bool number string array object v
  | .object members => object members fun m _ =>
      induction_on_members null bool number string array object m.2
termination_by doc
decreasing_by
  · simp only [Json.array.sizeOf_spec]
    have := List.sizeOf_lt_of_mem ‹v ∈ items›
    omega
  · simp only [Json.object.sizeOf_spec]
    have := List.sizeOf_lt_of_mem ‹m ∈ members›
    obtain ⟨k, v⟩ := m
    simp only [Prod.mk.sizeOf_spec] at this ⊢
    omega

/-! ### Parts -/

def isScalar : Json → Bool
  | .array _ | .object _ => false
  | _ => true

def isNull : Json → Bool
  | .null => true
  | _ => false

/-- The documents directly inside a document. -/
def inner : Json → List Json
  | .array items => items
  | .object members => members.map Prod.snd
  | _ => []

def width (doc : Json) : Nat := doc.inner.length

mutual

/-- A document and all documents in it. -/
def parts : Json → List Json
  | .array items => .array items :: partsItems items
  | .object members => .object members :: partsMembers members
  | doc => [doc]

def partsItems : List Json → List Json
  | [] => []
  | v :: vs => v.parts ++ partsItems vs

def partsMembers : List (String × Json) → List Json
  | [] => []
  | (_, v) :: ms => v.parts ++ partsMembers ms

end

mutual

/-- The number of containers that a document nests. -/
def depth : Json → Nat
  | .array items => depthItems items + 1
  | .object members => depthMembers members + 1
  | _ => 0

def depthItems : List Json → Nat
  | [] => 0
  | v :: vs => max v.depth (depthItems vs)

def depthMembers : List (String × Json) → Nat
  | [] => 0
  | (_, v) :: ms => max v.depth (depthMembers ms)

end

/-- A document as a container: a scalar becomes the only element of an array. -/
def wrapped (doc : Json) : Json := if doc.isScalar then .array [doc] else doc

/-- No object in a document has two members of one name. -/
def NamesUnique (doc : Json) : Prop :=
  ∀ members, .object members ∈ doc.parts → (members.map Prod.fst).Nodup

section Parts

variable {doc : Json} {members : List (String × Json)} {n : Nat}

theorem partsItems_eq (items : List Json) : partsItems items = items.flatMap parts := by
  induction items with
  | nil => rfl
  | cons v vs ih => rw [partsItems, ih, List.flatMap_cons]

theorem partsMembers_eq (members : List (String × Json)) :
    partsMembers members = (members.map Prod.snd).flatMap parts := by
  induction members with
  | nil => rfl
  | cons m ms ih => rw [partsMembers, ih, List.map_cons, List.flatMap_cons]

theorem parts_eq (doc : Json) : doc.parts = doc :: doc.inner.flatMap parts := by
  cases doc with
  | array items => rw [parts, partsItems_eq]; rfl
  | object members => rw [parts, partsMembers_eq]; rfl
  | _ => simp [parts, inner]

theorem mem_parts_self (doc : Json) : doc ∈ doc.parts := by
  rw [parts_eq]
  exact List.mem_cons_self

theorem mem_parts_inner {v p : Json} (hv : v ∈ doc.inner) (hp : p ∈ v.parts) : p ∈ doc.parts := by
  rw [parts_eq]
  exact List.mem_cons_of_mem _ (List.mem_flatMap.mpr ⟨v, hv, hp⟩)

theorem forall_mem_parts_iff {P : Json → Prop} :
    (∀ p ∈ doc.parts, P p) ↔ P doc ∧ ∀ v ∈ doc.inner, ∀ p ∈ v.parts, P p := by
  rw [parts_eq, List.forall_mem_cons, List.forall_mem_flatMap]

theorem inner_of_isScalar (h : doc.isScalar = true) : doc.inner = [] := by
  cases doc with
  | array | object => cases h
  | _ => rfl

theorem number_mem_parts_wrapped {k : Numeral} :
    .number k ∈ doc.wrapped.parts ↔ .number k ∈ doc.parts := by
  unfold wrapped
  split
  · have hne : Json.number k ≠ .array [doc] := by simp
    rw [parts_eq, Json.inner, List.flatMap_singleton, List.mem_cons, or_iff_right hne]
  · exact Iff.rfl

theorem NamesUnique.inner (h : doc.NamesUnique) {v : Json} (hv : v ∈ doc.inner) :
    v.NamesUnique :=
  fun ms hm => h ms (mem_parts_inner hv hm)

theorem NamesUnique.names (h : (Json.object members).NamesUnique) :
    (members.map Prod.fst).Nodup :=
  h members (mem_parts_self _)

theorem depthItems_le_iff {items : List Json} :
    depthItems items ≤ n ↔ ∀ v ∈ items, v.depth ≤ n := by
  induction items with
  | nil => simp [depthItems]
  | cons v vs ih => rw [depthItems, Nat.max_le, ih, List.forall_mem_cons]

theorem depthMembers_eq (members : List (String × Json)) :
    depthMembers members = depthItems (members.map Prod.snd) := by
  induction members with
  | nil => rfl
  | cons m ms ih => rw [depthMembers, ih, List.map_cons, depthItems]

theorem depth_of_isScalar (h : doc.isScalar = true) : doc.depth = 0 := by
  cases doc with
  | array | object => cases h
  | _ => rfl

theorem depth_of_container (h : doc.isScalar = false) : doc.depth = depthItems doc.inner + 1 := by
  cases doc with
  | array items => rw [depth, inner]
  | object members => rw [depth, depthMembers_eq, inner]
  | _ => cases h

end Parts

/-! ### Objects as sets of members -/

instance : Std.TransCmp nameCompare := inferInstanceAs (Std.TransCmp (compareOn String.toList))

theorem eq_of_nameCompare {a b : String} (h : nameCompare a b = .eq) : a = b :=
  String.toList_inj.mp (Std.LawfulEqCmp.eq_of_compare h)

theorem ofMembers_eq_of_perm {ms ns : List (String × Json)} (h : (ms.map Prod.fst).Nodup)
    (hp : ms.Perm ns) : ofMembers ms = ofMembers ns := by
  have heq : ∀ k l, nameCompare k l = .eq → k = l := fun _ _ => eq_of_nameCompare
  have hn : (ns.map Prod.fst).Nodup := (hp.map Prod.fst).nodup_iff.mp h
  have hms := Keyed.perm_canonical heq h
  have hns := Keyed.perm_canonical heq hn
  unfold ofMembers
  congr 1
  refine Keyed.eq_of_ascending nameCompare (Keyed.ascending_canonical nameCompare ms)
    (Keyed.ascending_canonical nameCompare ns) fun m => ?_
  rw [hms.mem_iff, hns.mem_iff, hp.mem_iff]

/-! ### What storing may change -/

/-- Whether a member with the given document stays if null members are dropped or not. -/
def stays (skip : Bool) (doc : Json) : Bool := !(skip && doc.isNull)

mutual

/-- The document with its numbers spelled anew and, if `skip`, without the members of objects that
are null. -/
def revised (skip : Bool) (respell : Numeral → Numeral) : Json → Json
  | .null => .null
  | .bool b => .bool b
  | .number n => .number (respell n)
  | .string s => .string s
  | .array items => .array (revisedItems skip respell items)
  | .object members => ofMembers (revisedMembers skip respell members)

def revisedItems (skip : Bool) (respell : Numeral → Numeral) : List Json → List Json
  | [] => []
  | v :: vs => v.revised skip respell :: revisedItems skip respell vs

def revisedMembers (skip : Bool) (respell : Numeral → Numeral) :
    List (String × Json) → List (String × Json)
  | [] => []
  | (k, v) :: ms =>
      if v.stays skip then (k, v.revised skip respell) :: revisedMembers skip respell ms
      else revisedMembers skip respell ms

end

section Revised

variable (skip : Bool) (respell : Numeral → Numeral)

theorem revised_array (items : List Json) :
    (Json.array items).revised skip respell = .array (items.map (revised skip respell)) := by
  rw [revised]
  congr 1
  induction items with
  | nil => rfl
  | cons v vs ih => rw [revisedItems, ih, List.map_cons]

theorem revised_object (members : List (String × Json)) :
    (Json.object members).revised skip respell =
      ofMembers ((members.filter fun m => m.2.stays skip).map fun m =>
        (m.1, m.2.revised skip respell)) := by
  rw [revised]
  congr 1
  induction members with
  | nil => rfl
  | cons m ms ih =>
      rw [revisedMembers, ih, List.filter_cons]
      split
      · rw [List.map_cons]
      · rfl

end Revised

end PackedTree.Json
