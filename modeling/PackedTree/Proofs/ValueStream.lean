import PackedTree.Builder
import PackedTree.Proofs.ValueCanonical

/-! # Values as event streams

`Value.stream` is the list of events that tells a tree, with every announced length zero;
`Event.unhinted` takes the announced lengths out of any other list, so that `es.map unhinted` is
the stream of a tree whatever lengths were announced.  `Value.BuildableRoot` says which trees may be
told under given options: how deep they nest, how many members their containers have, where a raw
wrapper may stand and whether keys may repeat.  `Value.settled` is what such a tree amounts to:
every object with its keys in ascending order, of each key the value written last, and without null
values where the options say so. -/

namespace PackedTree

/-- Whether an event carries no array, object or packed container. -/
def Event.isSimple : Event → Bool
  | .elem v | .value v => v.isScalar
  | _ => true

/-- The same event with zero in the place of an announced length. -/
def Event.unhinted : Event → Event
  | .beginArray _ raw => .beginArray 0 raw
  | .beginObject _ => .beginObject 0
  | e => e

@[simp] theorem Slot.isSimple_event (slot : Slot) (v : Value) :
    (slot.event v).isSimple = v.isScalar := by
  cases slot <;> rfl

@[simp] theorem Slot.unhinted_event (slot : Slot) (v : Value) :
    (slot.event v).unhinted = slot.event v := by
  cases slot <;> rfl

namespace Value

/-! ### The events of a tree -/

mutual

/-- The events that tell a value at a place of a tree; an array or object is told the same at both
places. -/
def stream : Value → Slot → List Event
  | .array raw elems, _ => .beginArray 0 raw :: (streamElems elems ++ [.endArray])
  | .object pairs, _ => .beginObject 0 :: (streamPairs pairs ++ [.endObject])
  | v, slot => [slot.event v]

def streamElems : List Value → List Event
  | [] => []
  | v :: vs => v.stream .elem ++ streamElems vs

def streamPairs : List (Bytes × Value) → List Event
  | [] => []
  | (k, v) :: ps => .key k :: (v.stream .value ++ streamPairs ps)

end

theorem stream_of_isScalar {v : Value} (hv : v.isScalar = true) (slot : Slot) :
    v.stream slot = [slot.event v] := by
  cases v with
  | null | bool | number | string => simp only [stream]
  | _ => cases hv

@[simp] theorem stream_array (raw : Bool) (elems : List Value) (slot : Slot) :
    (Value.array raw elems).stream slot =
      .beginArray 0 raw :: (streamElems elems ++ [.endArray]) := by
  rw [stream]

@[simp] theorem stream_object (pairs : List (Bytes × Value)) (slot : Slot) :
    (Value.object pairs).stream slot =
      .beginObject 0 :: (streamPairs pairs ++ [.endObject]) := by
  rw [stream]

@[simp] theorem streamElems_concat (elems : List Value) (v : Value) :
    streamElems (elems ++ [v]) = streamElems elems ++ v.stream .elem := by
  induction elems with
  | nil => simp [streamElems]
  | cons w ws ih => simp [streamElems, ih]

@[simp] theorem streamPairs_concat (pairs : List (Bytes × Value)) (k : Bytes) (v : Value) :
    streamPairs (pairs ++ [(k, v)]) = streamPairs pairs ++ .key k :: v.stream .value := by
  induction pairs with
  | nil => simp [streamPairs]
  | cons p ps ih =>
      obtain ⟨l, w⟩ := p
      simp [streamPairs, ih]

/-! ### Trees that may be told -/

/-- A value that may be told as a member inside `level` containers. -/
inductive Buildable (o : Options) : Nat → Value → Prop
  | scalar {level : Nat} {v : Value} (hv : v.isScalar = true) : Buildable o level v
  | array {level : Nat} {elems : List Value} (hd : level < maxDepth)
      (hn : elems.length ≤ min o.maxChildren maxChildren)
      (he : ∀ v ∈ elems, Buildable o (level + 1) v) : Buildable o level (.array false elems)
  | object {level : Nat} {pairs : List (Bytes × Value)} (hd : level < maxDepth)
      (hn : pairs.length ≤ min o.maxChildren maxChildren)
      (hu : o.uniqueKeys = true → (pairs.map Prod.fst).Nodup)
      (hp : ∀ p ∈ pairs, Buildable o (level + 1) p.2) : Buildable o level (.object pairs)

theorem Buildable.of_succ {o : Options} {level : Nat} {v : Value} (h : v.Buildable o (level + 1)) :
    v.Buildable o level := by
  generalize hl : level + 1 = l at h
  induction h generalizing level with
  | scalar hv => exact .scalar hv
  | array hd hn he ih =>
      subst hl
      exact .array (Nat.lt_of_succ_lt hd) hn fun v hv => ih v hv rfl
  | object hd hn hu hp ih =>
      subst hl
      exact .object (Nat.lt_of_succ_lt hd) hn hu fun p hp => ih p hp rfl

/-- A whole value that may be told: a scalar in its wrapper, or an array or object. -/
inductive BuildableRoot (o : Options) : Value → Prop
  | raw {v : Value} (hv : v.isScalar = true) (hn : 1 ≤ min o.maxChildren maxChildren) :
      BuildableRoot o (.array true [v])
  | container {v : Value} (hv : v.isScalar = false) (h : v.Buildable o 0) : BuildableRoot o v

/-! ### What they amount to -/

/-- The pairs of an object that stay: of each key the one written last, in ascending order, and
null values only if they are not dropped. -/
def staying (o : Options) (pairs : List (Bytes × Value)) : List (Bytes × Value) :=
  let kept := Keyed.written Bytes.keyCompare pairs
  if o.skipNulls then kept.filter fun p => p.2 ≠ .null else kept

mutual

/-- The value that a tree amounts to. -/
def settled (o : Options) : Value → Value
  | .array raw elems => .array raw (settledElems o elems)
  | .object pairs => .object (staying o (settledPairs o pairs))
  | v => v

def settledElems (o : Options) : List Value → List Value
  | [] => []
  | v :: vs => v.settled o :: settledElems o vs

def settledPairs (o : Options) : List (Bytes × Value) → List (Bytes × Value)
  | [] => []
  | (k, v) :: ps => (k, v.settled o) :: settledPairs o ps

end

variable (o : Options)

theorem settledElems_eq_map (elems : List Value) :
    settledElems o elems = elems.map (settled o) := by
  induction elems with
  | nil => rfl
  | cons v vs ih => rw [settledElems, ih, List.map_cons]

theorem settledPairs_eq_map (pairs : List (Bytes × Value)) :
    settledPairs o pairs = pairs.map fun p => (p.1, p.2.settled o) := by
  induction pairs with
  | nil => rfl
  | cons p ps ih => rw [settledPairs, ih, List.map_cons]

theorem settled_of_isScalar {v : Value} (hv : v.isScalar = true) : v.settled o = v := by
  cases v with
  | null | bool | number | string => simp only [settled]
  | _ => cases hv

theorem settled_array (raw : Bool) (elems : List Value) :
    (Value.array raw elems).settled o = .array raw (elems.map (settled o)) := by
  rw [settled, settledElems_eq_map]

theorem settled_object (pairs : List (Bytes × Value)) :
    (Value.object pairs).settled o =
      .object (staying o (pairs.map fun p => (p.1, p.2.settled o))) := by
  rw [settled, settledPairs_eq_map]

end Value

/-! ### Repeated keys -/

namespace Keyed

variable {κ α : Type} {cmp : κ → κ → Ordering}

theorem repeats_of_ascending {pairs : List (κ × α)} (h : Ascending cmp pairs) :
    repeats cmp pairs = 0 := by
  fun_induction repeats cmp pairs with
  | case1 => rfl
  | case2 p => rfl
  | case3 p q rest ih =>
      obtain ⟨hp, hr⟩ := List.pairwise_cons.mp h
      have hlt : cmp p.1 q.1 = .lt := hp q List.mem_cons_self
      rw [ih hr, hlt]
      rfl

/-- No pair is replaced exactly if no key occurs twice. -/
theorem overwritten_eq_zero_iff [Std.TransCmp cmp] (heq : ∀ k l, cmp k l = .eq → k = l)
    (pairs : List (κ × α)) : overwritten cmp pairs = 0 ↔ (pairs.map Prod.fst).Nodup := by
  have perm : (sorted cmp pairs).Perm pairs := List.mergeSort_perm _ _
  rw [← (perm.map Prod.fst).nodup_iff]
  constructor
  · intro h
    have len := length_lastOfRuns_add_repeats cmp (sorted cmp pairs)
    have zero : repeats cmp (sorted cmp pairs) = 0 := h
    have same : lastOfRuns cmp (sorted cmp pairs) = sorted cmp pairs :=
      (lastOfRuns_sublist cmp _).eq_of_length (by omega)
    have asc := ascending_canonical cmp pairs
    rw [canonical, same] at asc
    exact nodup_keys cmp asc
  · intro h
    rw [List.Nodup, List.pairwise_map] at h
    refine repeats_of_ascending ((pairwise_sorted cmp pairs).and h |>.imp ?_)
    rintro p q ⟨hle, hne⟩
    cases hc : cmp p.1 q.1 with
    | lt => rfl
    | eq => exact absurd (heq _ _ hc) hne
    | gt =>
        rw [hc] at hle
        cases hle

theorem perm_canonical [Std.TransCmp cmp] (heq : ∀ k l, cmp k l = .eq → k = l)
    {pairs : List (κ × α)} (h : (pairs.map Prod.fst).Nodup) :
    (canonical cmp pairs).Perm pairs := by
  have perm : (sorted cmp pairs).Perm pairs := List.mergeSort_perm _ _
  have zero := (overwritten_eq_zero_iff heq pairs).mpr h
  have len := length_canonical_add_overwritten cmp pairs
  rw [zero, Nat.add_zero, ← perm.length_eq] at len
  rwa [canonical, (lastOfRuns_sublist cmp _).eq_of_length len]

end Keyed

/-! ### The pairs that stay -/

namespace Value

variable {o : Options} {pairs : List (Bytes × Value)} {p : Bytes × Value}

theorem keepsPair_iff (p : Bytes × Value) : Builder.keepsPair p = true ↔ p.2 ≠ .null := by
  obtain ⟨k, v⟩ := p
  cases v <;> simp [Builder.keepsPair]

theorem keepsPair_eq : Builder.keepsPair = fun p => decide (p.2 ≠ .null) := by
  funext p
  rw [Bool.eq_iff_iff, keepsPair_iff, decide_eq_true_iff]

theorem mem_of_mem_staying (h : p ∈ staying o pairs) : p ∈ pairs := by
  unfold staying at h
  split at h
  · exact mem_of_mem_kept (List.mem_filter.mp h).1
  · exact mem_of_mem_kept h

theorem ascending_staying (pairs : List (Bytes × Value)) :
    Keyed.Ascending Bytes.keyCompare (staying o pairs) := by
  have ha := Keyed.ascending_written Bytes.keyCompare pairs
  unfold staying
  split
  · exact ha.filter _
  · exact ha

theorem length_staying_le (pairs : List (Bytes × Value)) :
    (staying o pairs).length ≤ pairs.length := by
  have hlen := Keyed.length_canonical_add_overwritten Bytes.keyCompare pairs
  have hfilter := List.length_filter_le (fun p : Bytes × Value => p.2 ≠ .null)
    (Keyed.written Bytes.keyCompare pairs)
  rw [Keyed.canonical_eq_written] at hlen
  unfold staying
  dsimp only
  split <;> omega

/-- Where no key occurs twice, only null values can go. -/
theorem perm_staying (hn : (pairs.map Prod.fst).Nodup) :
    (staying o pairs).Perm (pairs.filter fun p => !o.skipNulls || p.2 ≠ .null) := by
  have hperm := Keyed.perm_canonical (fun _ _ => Bytes.eq_of_keyCompare) hn
  rw [Keyed.canonical_eq_written] at hperm
  unfold staying
  cases o.skipNulls with
  | true => exact hperm.filter fun p => p.2 ≠ .null
  | false =>
      have hall : pairs.filter (fun p => !false || p.2 ≠ .null) = pairs :=
        List.filter_eq_self.mpr fun _ _ => rfl
      rwa [hall]

end Value

end PackedTree
