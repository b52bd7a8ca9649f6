import PackedTree.Order
import PackedTree.Proofs.DecimalOrder
import PackedTree.Proofs.TraceShape

/-! # The order of events at one place of a trace

Events compare case by case, and over all pairs of events the comparison is no order: an element
that is a string and a key are equal by rank, whatever they hold.  But among the events that can
come at one place of a trace it is the lexicographic order of four features: the rank, whether an
array is raw, the number of members, and the content of a scalar (`Owes.compare_eq_features`).
There it is a total preorder, and events that compare equal leave the same due
(`Owes.due_eq`). -/

namespace PackedTree

/-- The order that `cmp` puts on images under `f`. -/
def compareVia {α β : Type} (cmp : β → β → Ordering) (f : α → β) (a b : α) : Ordering :=
  cmp (f a) (f b)

instance {α β : Type} {cmp : β → β → Ordering} {f : α → β} [Std.OrientedCmp cmp] :
    Std.OrientedCmp (compareVia cmp f) where
  eq_swap {_ _} := Std.OrientedCmp.eq_swap (α := β)

instance {α β : Type} {cmp : β → β → Ordering} {f : α → β} [Std.TransCmp cmp] :
    Std.TransCmp (compareVia cmp f) where
  isLE_trans h₁ h₂ := by
    unfold compareVia at *
    exact Std.TransCmp.isLE_trans h₁ h₂

/-! ### Scalars -/

namespace Value

/-- The order of the three possible contents of a scalar; one that is lacking counts as a fixed
default. -/
def compareContent : Value → Value → Ordering :=
  compareLex (compareVia Bytes.keyCompare fun v => v.bytes?.getD []) <|
    compareLex (compareVia Decimal.compare fun v => v.number?.getD (.ofInt 0)) <|
      compareOn fun v => v.bool?.getD false

instance : Std.TransCmp compareContent :=
  inferInstanceAs (Std.TransCmp (compareLex _ (compareLex _ _)))

theorem compareScalars_eq_then {a b : Value} (ha : a.isScalar = true) (hb : b.isScalar = true) :
    a.compareScalars b =
      (Ord.compare (a.kind.rank + 1) (b.kind.rank + 1)).then (a.compareContent b) := by
  cases a <;> cases b <;> try first | rfl | contradiction
  case string.string s t =>
    show Bytes.keyCompare s t = (Bytes.keyCompare s t).then .eq
    rw [Ordering.then_eq]
  case number.number d e =>
    show d.compare e = (d.compare e).then .eq
    rw [Ordering.then_eq]

theorem rank_lt_of_isScalar {v : Value} (h : v.isScalar = true) : v.kind.rank < 4 := by
  cases v <;> first | exact of_decide_eq_true rfl | contradiction

end Value

namespace Slot

theorem compare_event (slot : Slot) (a b : Value) :
    (slot.event a).compare (slot.event b) = a.compareScalars b := by
  cases slot <;> rfl

theorem rank_event (slot : Slot) (v : Value) : (slot.event v).rank = v.kind.rank + 1 := by
  cases slot <;> rfl

end Slot

/-! ### Events -/

namespace Event

/-- Whether an event does not announce a raw array. -/
def isPlain : Event → Bool
  | beginArray _ raw => !raw
  | _ => true

def len : Event → Nat
  | beginArray m _ | beginObject m => m
  | _ => 0

/-- The scalar that an event shows; a key counts as a string. -/
def scalar : Event → Value
  | elem v | value v => v
  | key k => .string k
  | _ => .null

/-- The lexicographic order of the four features. -/
def compareFeatures : Event → Event → Ordering :=
  compareLex (compareOn rank) <| compareLex (compareOn isPlain) <| compareLex (compareOn len) <|
    compareVia Value.compareContent scalar

instance : Std.TransCmp compareFeatures :=
  inferInstanceAs (Std.TransCmp (compareLex _ (compareLex _ (compareLex _ _))))

theorem compareContent_null : Value.null.compareContent .null = .eq := Std.ReflCmp.compare_self

theorem rank_beginArray (m : Nat) (raw : Bool) : (beginArray m raw).rank = 5 := rfl

theorem rank_beginObject (m : Nat) : (beginObject m).rank = 6 := rfl

theorem beginArray_compare (m n : Nat) (r s : Bool) :
    (beginArray m r).compare (beginArray n s) =
      compareFeatures (beginArray m r) (beginArray n s) := by
  show _ = (Ord.compare (!r) (!s)).then
    ((Ord.compare m n).then (Value.compareContent .null .null))
  rw [compareContent_null, Ordering.then_eq]
  cases r <;> cases s <;> rfl

theorem beginObject_compare (m n : Nat) :
    (beginObject m).compare (beginObject n) = compareFeatures (beginObject m) (beginObject n) := by
  show _ = (Ord.compare m n).then (Value.compareContent .null .null)
  rw [compareContent_null, Ordering.then_eq]
  rfl

theorem compareFeatures_of_rank_ne {e d : Event} (h : e.rank ≠ d.rank) :
    e.compareFeatures d = Ord.compare e.rank d.rank := by
  show (Ord.compare e.rank d.rank).then _ = _
  rcases Nat.lt_or_gt_of_ne h with h | h
  · rw [Nat.compare_eq_lt.mpr h]
    rfl
  · rw [Nat.compare_eq_gt.mpr h]
    rfl

theorem compare_of_token_ne {e d : Event} (h : e.token ≠ d.token) :
    e.compare d = Ord.compare e.rank d.rank := by
  cases e <;> cases d <;> first | rfl | exact absurd rfl h

theorem compare_eq_of_rank_ne {e d : Event} (ht : e.token ≠ d.token) (hr : e.rank ≠ d.rank) :
    e.compare d = e.compareFeatures d := by
  rw [compare_of_token_ne ht, compareFeatures_of_rank_ne hr]

theorem compareFeatures_eq_eq {e d : Event} (h : e.compareFeatures d = .eq) :
    e.rank = d.rank ∧ e.len = d.len := by
  unfold compareFeatures at h
  simp only [compareLex_eq_eq, compareOn, Nat.compare_eq_eq] at h
  exact ⟨h.1, h.2.2.1⟩

end Event

namespace Slot

/-- Two beginnings of members of one sort, and what each member owes: two scalars, two arrays or
two objects. -/
inductive Alike (slot : Slot) : Event → List Due → Event → List Due → Prop
  | scalars {a b : Value} (ha : a.isScalar = true) (hb : b.isScalar = true) :
      Alike slot (slot.event a) [] (slot.event b) []
  | arrays (m n : Nat) (r s : Bool) :
      Alike slot (.beginArray m r) [.elems m] (.beginArray n s) [.elems n]
  | objects (m n : Nat) : Alike slot (.beginObject m) [.pairs m] (.beginObject n) [.pairs n]

namespace Opens

variable {slot : Slot} {e d : Event} {i₁ i₂ : List Due}

theorem token_event_ne (slot : Slot) (v : Value) :
    (slot.event v).token ≠ .beginArray ∧ (slot.event v).token ≠ .beginObject := by
  cases slot <;> exact ⟨nofun, nofun⟩

theorem rank_event_lt (slot : Slot) {v : Value} (hv : v.isScalar = true) :
    (slot.event v).rank < 5 := by
  have h := Value.rank_lt_of_isScalar hv
  rw [slot.rank_event]
  omega

/-- Members of two sorts begin with events of two tokens and of two ranks. -/
theorem alike_or_ne (h₁ : slot.Opens e i₁) (h₂ : slot.Opens d i₂) :
    slot.Alike e i₁ d i₂ ∨ e.token ≠ d.token ∧ e.rank ≠ d.rank := by
  cases h₁ with
  | @scalar a ha =>
      have ra := rank_event_lt slot ha
      obtain ⟨tokA, tokO⟩ := token_event_ne slot a
      cases h₂ with
      | scalar hb => exact .inl (.scalars ha hb)
      | array n raw => exact .inr ⟨tokA, by rw [Event.rank_beginArray]; omega⟩
      | object n => exact .inr ⟨tokO, by rw [Event.rank_beginObject]; omega⟩
  | array m raw =>
      cases h₂ with
      | @scalar b hb =>
          have rb := rank_event_lt slot hb
          exact .inr ⟨(token_event_ne slot b).1.symm, by rw [Event.rank_beginArray]; omega⟩
      | array n raw' => exact .inl (.arrays m n raw raw')
      | object n => exact .inr ⟨nofun, nofun⟩
  | object m =>
      cases h₂ with
      | @scalar b hb =>
          have rb := rank_event_lt slot hb
          exact .inr ⟨(token_event_ne slot b).2.symm, by rw [Event.rank_beginObject]; omega⟩
      | array n raw => exact .inr ⟨nofun, nofun⟩
      | object n => exact .inl (.objects m n)

theorem alike_of_rank_eq (h₁ : slot.Opens e i₁) (h₂ : slot.Opens d i₂) (hr : e.rank = d.rank) :
    slot.Alike e i₁ d i₂ :=
  (h₁.alike_or_ne h₂).resolve_right fun hne => hne.2 hr

theorem compare_eq_features (h₁ : slot.Opens e i₁) (h₂ : slot.Opens d i₂) :
    e.compare d = e.compareFeatures d := by
  rcases h₁.alike_or_ne h₂ with h | ⟨ht, hr⟩
  · cases h with
    | scalars ha hb =>
        rw [slot.compare_event, Value.compareScalars_eq_then ha hb]
        cases slot <;> rfl
    | arrays m n r s => exact Event.beginArray_compare m n r s
    | objects m n => exact Event.beginObject_compare m n
  · exact Event.compare_eq_of_rank_ne ht hr

/-- What a member owes is settled by the rank and the length of the event that begins it. -/
theorem inner_eq (h₁ : slot.Opens e i₁) (h₂ : slot.Opens d i₂) (hr : e.rank = d.rank)
    (hl : e.len = d.len) : i₁ = i₂ := by
  cases h₁.alike_of_rank_eq h₂ hr with
  | scalars ha hb => rfl
  | arrays m n r s => exact congrArg (fun k => [Due.elems k]) hl
  | objects m n => exact congrArg (fun k => [Due.pairs k]) hl

end Opens

end Slot

theorem Due.Takes.det {slot slot' : Slot} {d d₁ d₂ : Due} (h₁ : d.Takes slot d₁)
    (h₂ : d.Takes slot' d₂) : slot = slot' ∧ d₁ = d₂ := by
  cases h₁ <;> cases h₂ <;> exact ⟨rfl, rfl⟩

namespace Owes

variable {st st₁ st₂ : List Due} {e d : Event}

theorem compare_eq_features (h₁ : Owes st e st₁) (h₂ : Owes st d st₂) :
    e.compare d = e.compareFeatures d := by
  cases h₁ with
  | member hd he =>
      cases h₂ with
      | member hd' he' =>
          obtain ⟨rfl, rfl⟩ := hd.det hd'
          exact he.compare_eq_features he'
      | _ => cases hd
  | @key n st k =>
      cases h₂ with
      | member hd he => cases hd
      | @key _ _ l =>
          show Bytes.keyCompare k l = (Bytes.keyCompare k l).then .eq
          rw [Ordering.then_eq]
  | endArray =>
      cases h₂ with
      | member hd he => cases hd
      | endArray => rfl
  | endObject =>
      cases h₂ with
      | member hd he => cases hd
      | endObject => rfl

/-- Events that compare equal at one place leave the same due. -/
theorem due_eq (h₁ : Owes st e st₁) (h₂ : Owes st d st₂) (h : e.compare d = .eq) : st₁ = st₂ := by
  rw [h₁.compare_eq_features h₂] at h
  obtain ⟨hr, hl⟩ := Event.compareFeatures_eq_eq h
  cases h₁ with
  | member hd he =>
      cases h₂ with
      | member hd' he' =>
          obtain ⟨rfl, rfl⟩ := hd.det hd'
          rw [he.inner_eq he' hr hl]
      | _ => cases hd
  | _ =>
      cases h₂ with
      | member hd he => cases hd
      | _ => rfl

end Owes

end PackedTree
