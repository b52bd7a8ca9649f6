import PackedTree.Value.Packing
import PackedTree.Value.Trace
import PackedTree.Proofs.KeyedCanonical

/-! # Canonical values

The canonical form of a value is the one that its container stands for.  At every depth the pairs
of an object ascend strictly by key, and of a repeated key the pair written last stays
(`Keyed.written`); a raw wrapper inside a tree is replaced by the value that it wraps.  At the
root a bare scalar is wrapped (`canonical`).

`Value.induction_on_members` is induction over a value with the hypothesis at every member.  The
functions that go through members one after the other are maps (`elemPieces_eq_map` and its
like), which makes them fit that induction. -/

namespace PackedTree.Value

/-- Induction over a value with the hypothesis at every member. -/
@[elab_as_elim]
theorem induction_on_members {motive : Value → Prop} (null : motive .null)
    (bool : ∀ b, motive (.bool b)) (number : ∀ d, motive (.number d))
    (string : ∀ s, motive (.string s))
    (array : ∀ raw elems, (∀ v ∈ elems, motive v) → motive (.array raw elems))
    (object : ∀ pairs, (∀ p ∈ pairs, motive p.2) → motive (.object pairs))
    (binary : ∀ c, motive (.binary c)) (v : Value) : motive v :=
  match v with
  | .null => null
  | .bool b => bool b
  | .number d => number d
  | .string s => string s
  | .array raw elems => array raw elems fun v _ =>
      induction_on_members null bool number string array object binary v
  | .object pairs => object pairs fun p _ =>
      induction_on_members null bool number string array object binary p.2
  | .binary c => binary c
termination_by v
decreasing_by
  · simp only [Value.array.sizeOf_spec]
    have := List.sizeOf_lt_of_mem ‹v ∈ elems›
    omega
  · simp only [Value.object.sizeOf_spec]
    have := List.sizeOf_lt_of_mem ‹p ∈ pairs›
    obtain ⟨k, v⟩ := p
    simp only [Prod.mk.sizeOf_spec] at this ⊢
    omega

/-! ### Trees -/

mutual

/-- Whether no part of a value is packed. -/
def isTree : Value → Bool
  | .array _ elems => areTrees elems
  | .object pairs => holdTrees pairs
  | .binary _ => false
  | _ => true

def areTrees : List Value → Bool
  | [] => true
  | v :: vs => v.isTree && areTrees vs

def holdTrees : List (Bytes × Value) → Bool
  | [] => true
  | (_, v) :: ps => v.isTree && holdTrees ps

end

theorem isTree_of_mem_elems {raw : Bool} {elems : List Value}
    (h : (Value.array raw elems).isTree = true) {v : Value} (hv : v ∈ elems) :
    v.isTree = true := by
  unfold isTree at h
  induction elems with
  | nil => cases hv
  | cons w ws ih =>
      unfold areTrees at h
      obtain ⟨hw, hws⟩ := Bool.and_eq_true_iff.mp h
      cases hv with
      | head => exact hw
      | tail _ hv => exact ih hv hws

theorem isTree_of_mem_pairs {pairs : List (Bytes × Value)}
    (h : (Value.object pairs).isTree = true) {p : Bytes × Value} (hp : p ∈ pairs) :
    p.2.isTree = true := by
  unfold isTree at h
  induction pairs with
  | nil => cases hp
  | cons q qs ih =>
      unfold holdTrees at h
      obtain ⟨hq, hqs⟩ := Bool.and_eq_true_iff.mp h
      cases hp with
      | head => exact hq
      | tail _ hp => exact ih hp hqs

/-! ### The canonical form -/

mutual

/-- The canonical form of a value as a member of a container. -/
def canonicalMember : Value → Value
  | .array true [v] => v.canonicalMember
  | .array raw elems => .array raw (canonicalElems elems)
  | .object pairs => .object (Keyed.written Bytes.keyCompare (canonicalPairs pairs))
  | v => v

def canonicalElems : List Value → List Value
  | [] => []
  | v :: vs => v.canonicalMember :: canonicalElems vs

def canonicalPairs : List (Bytes × Value) → List (Bytes × Value)
  | [] => []
  | (k, v) :: ps => (k, v.canonicalMember) :: canonicalPairs ps

end

/-- The canonical form of a whole value. -/
def canonical : Value → Value
  | .array true elems => .array true (canonicalElems elems)
  | .array false elems => (Value.array false elems).canonicalMember
  | .object pairs => (Value.object pairs).canonicalMember
  | .binary c => .binary c
  | v => .array true [v]

/-! ### Members one after the other -/

theorem canonicalElems_eq_map (elems : List Value) :
    canonicalElems elems = elems.map canonicalMember := by
  induction elems with
  | nil => rfl
  | cons v vs ih => rw [canonicalElems, ih, List.map_cons]

theorem canonicalPairs_eq_map (pairs : List (Bytes × Value)) :
    canonicalPairs pairs = pairs.map fun p => (p.1, p.2.canonicalMember) := by
  induction pairs with
  | nil => rfl
  | cons p ps ih => rw [canonicalPairs, ih, List.map_cons]

theorem elemPieces_eq_map (elems : List Value) (level : Nat) :
    elemPieces elems level = elems.map fun v => v.piece level := by
  induction elems with
  | nil => rfl
  | cons v vs ih => rw [elemPieces, ih, List.map_cons]

theorem pairPieces_eq_map (pairs : List (Bytes × Value)) (level : Nat) :
    pairPieces pairs level = pairs.map fun p => (p.1, p.2.piece level) := by
  induction pairs with
  | nil => rfl
  | cons p ps ih => rw [pairPieces, ih, List.map_cons]

/-! ### Objects -/

/-- The pairs of an object that its canonical form keeps, with their values as they were. -/
def kept (pairs : List (Bytes × Value)) : List (Bytes × Value) :=
  Keyed.written Bytes.keyCompare pairs

theorem mem_of_mem_kept {pairs : List (Bytes × Value)} {p : Bytes × Value} (h : p ∈ kept pairs) :
    p ∈ pairs :=
  (Keyed.mem_of_last? Bytes.keyCompare ((Keyed.mem_written_iff Bytes.keyCompare pairs p).mp h)).1

theorem canonicalMember_object (pairs : List (Bytes × Value)) :
    (Value.object pairs).canonicalMember =
      .object ((kept pairs).map fun p => (p.1, p.2.canonicalMember)) := by
  rw [canonicalMember, canonicalPairs_eq_map, Keyed.written_map]
  rfl

theorem kept_of_ascending {pairs : List (Bytes × Value)}
    (h : Keyed.Ascending Bytes.keyCompare pairs) : kept pairs = pairs := by
  rw [kept, ← Keyed.canonical_eq_written, Keyed.canonical_of_ascending Bytes.keyCompare h]

/-- The kept pairs ascend, whatever their values are turned into. -/
theorem ascending_kept {α : Type} (f : Value → α) (pairs : List (Bytes × Value)) :
    Keyed.Ascending Bytes.keyCompare ((kept pairs).map fun p => (p.1, f p.2)) := by
  unfold kept
  rw [← Keyed.written_map]
  exact Keyed.ascending_written Bytes.keyCompare _

theorem canonical_map {α : Type} (f : Value → α) (pairs : List (Bytes × Value)) :
    Keyed.canonical Bytes.keyCompare (pairs.map fun p => (p.1, f p.2)) =
      (kept pairs).map fun p => (p.1, f p.2) := by
  rw [Keyed.canonical_eq_written, Keyed.written_map]
  rfl

/-! ### Values that are canonical already -/

/-- A canonical member: it contains no wrapper, and the keys of its objects ascend strictly. -/
inductive IsCanonical : Value → Prop
  | scalar {v : Value} (hv : v.isScalar = true) : IsCanonical v
  | array {elems : List Value} (he : ∀ v ∈ elems, IsCanonical v) :
      IsCanonical (.array false elems)
  | object {pairs : List (Bytes × Value)} (ha : Keyed.Ascending Bytes.keyCompare pairs)
      (hp : ∀ p ∈ pairs, IsCanonical p.2) : IsCanonical (.object pairs)

/-- A canonical whole value: a scalar in its wrapper, or a canonical array or object. -/
def IsCanonicalRoot : Value → Prop
  | .array true elems => ∃ v, elems = [v] ∧ v.isScalar = true
  | v => v.isScalar = false ∧ v.IsCanonical

theorem IsCanonical.root {v : Value} (h : v.IsCanonical) (hv : v.isScalar = false) :
    v.IsCanonicalRoot := by
  cases h with
  | scalar hs => cases hv.symm.trans hs
  | array he => exact ⟨rfl, .array he⟩
  | object ha hp => exact ⟨rfl, .object ha hp⟩

theorem canonicalMember_of_isScalar {v : Value} (hv : v.isScalar = true) :
    v.canonicalMember = v := by
  cases v with
  | null | bool | number | string => simp only [canonicalMember]
  | _ => cases hv

theorem canonicalMember_raw (v : Value) :
    (Value.array true [v]).canonicalMember = v.canonicalMember := by rw [canonicalMember]

theorem canonicalMember_array (elems : List Value) :
    (Value.array false elems).canonicalMember = .array false (elems.map canonicalMember) := by
  rw [canonicalMember, canonicalElems_eq_map]
  nofun

theorem canonicalMember_of_isCanonical {v : Value} (h : v.IsCanonical) :
    v.canonicalMember = v := by
  induction h with
  | scalar hv => exact canonicalMember_of_isScalar hv
  | array he ih =>
      rw [canonicalMember_array, List.map_congr_left ih, List.map_id']
  | @object pairs ha hp ih =>
      have hm : ∀ p ∈ pairs, (p.1, p.2.canonicalMember) = p := fun p hp => by rw [ih p hp]
      rw [canonicalMember_object, kept_of_ascending ha, List.map_congr_left hm, List.map_id']

end PackedTree.Value
