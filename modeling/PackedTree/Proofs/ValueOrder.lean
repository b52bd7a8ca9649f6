import PackedTree.Proofs.PackingTrace
import PackedTree.Proofs.TraceOrder

/-! # The order of trees

`Value.order` is the order of values, defined over the trees: kinds in their fixed order, strings
by length and then by bytes, numbers by the rational number that they stand for, arrays by their
wrappers, their lengths and their elements, objects by their numbers of pairs and then by key and
value in turn.

Comparing the containers of two values is the same thing as comparing the canonical forms of the
values as trees (`compare_pack`), and the containers compare equal exactly if the canonical forms
are the same values.  The two tellings stay aligned as long as the trees agree (`tellsOrder`), and
the first difference in the tellings is the first difference in the trees. -/

namespace PackedTree

namespace Value

/-! ### The order -/

mutual

/-- The order of two values as trees. -/
def order : Value → Value → Ordering
  | .string s, .string t => (Ord.compare s.length t.length).then (Ord.compare s t)
  | .number d, .number e => Ord.compare d.value e.value
  | .bool a, .bool b => Ord.compare a b
  | .array r as, .array s bs =>
      (Ord.compare (!r) (!s)).then ((Ord.compare as.length bs.length).then (orderElems as bs))
  | .object ps, .object qs => (Ord.compare ps.length qs.length).then (orderPairs ps qs)
  | v, w => v.kind.compare w.kind

/-- The order of two lists of values of one length. -/
def orderElems : List Value → List Value → Ordering
  | v :: vs, w :: ws => (v.order w).then (orderElems vs ws)
  | _, _ => .eq

/-- The order of two lists of pairs of one length. -/
def orderPairs : List (Bytes × Value) → List (Bytes × Value) → Ordering
  | (k, v) :: ps, (l, w) :: qs =>
      ((Ord.compare k.length l.length).then (Ord.compare k l)).then
        ((v.order w).then (orderPairs ps qs))
  | _, _ => .eq

end

/-- The event with which the telling of a value begins. -/
def opening (slot : Slot) : Value → Event
  | .array raw elems => .beginArray elems.length raw
  | .object pairs => .beginObject pairs.length
  | v => slot.event v

/-- Values of different kinds differ where their tellings begin, and by their kinds. -/
theorem compare_opening_of_kind_ne {v w : Value} (hv : ∀ c, v ≠ .binary c)
    (hw : ∀ c, w ≠ .binary c) (h : v.kind ≠ w.kind) (slot : Slot) :
    (v.opening slot).compare (w.opening slot) = v.order w ∧ v.order w ≠ .eq := by
  cases v <;> cases w <;>
    first
    | exact absurd rfl h
    | exact absurd rfl (hv _)
    | exact absurd rfl (hw _)
    | exact ⟨by cases slot <;> rfl, fun h => by cases h⟩

theorem compareScalars_eq_order {v w : Value} (hv : v.isScalar = true) (hw : w.isScalar = true) :
    v.compareScalars w = v.order w := by
  cases v <;> cases w <;>
    first
    | exact Decimal.compare_eq_value _ _
    | rfl
    | cases hv

theorem IsCanonical.ne_binary {v : Value} (h : v.IsCanonical) (c : Container) : v ≠ .binary c := by
  rintro rfl
  cases h with
  | scalar hv => cases hv

theorem IsCanonical.trace_opening {v : Value} (h : v.IsCanonical) (slot : Slot) :
    ∃ t, v.trace slot = .next (v.opening slot) t := by
  cases h with
  | scalar hv =>
      refine ⟨.finished, ?_⟩
      rw [trace_of_isScalar hv]
      cases v with
      | null | bool | number | string => rfl
      | _ => cases hv
  | array he => exact ⟨_, trace_array _ slot⟩
  | object ha hp => exact ⟨_, trace_object _ slot⟩

theorem kind_ne_of_isScalar {v : Value} (hv : v.isScalar = true) :
    v.kind ≠ .array ∧ v.kind ≠ .object := by
  cases v with
  | null | bool | number | string => exact ⟨nofun, nofun⟩
  | _ => cases hv

/-- What relates canonical members of two kinds, scalars of one kind, and arrays and objects whose
members it relates to all others, relates any two canonical members. -/
@[elab_as_elim]
theorem IsCanonical.pair_induction {motive : Value → Value → Prop}
    (kinds : ∀ {v w}, v.IsCanonical → w.IsCanonical → v.kind ≠ w.kind → motive v w)
    (scalars : ∀ {v w}, v.isScalar = true → w.isScalar = true → v.kind = w.kind → motive v w)
    (arrays : ∀ {vs ws}, (∀ v ∈ vs, ∀ {w}, w.IsCanonical → motive v w) →
      (∀ w ∈ ws, w.IsCanonical) → motive (.array false vs) (.array false ws))
    (objects : ∀ {ps qs}, (∀ p ∈ ps, ∀ {w}, w.IsCanonical → motive p.2 w) →
      (∀ q ∈ qs, q.2.IsCanonical) → motive (.object ps) (.object qs))
    {v w : Value} (hv : v.IsCanonical) (hw : w.IsCanonical) : motive v w := by
  induction hv generalizing w with
  | @scalar v hs =>
      obtain ⟨ha, ho⟩ := kind_ne_of_isScalar hs
      by_cases hk : v.kind = w.kind
      · cases hw with
        | scalar hs' => exact scalars hs hs' hk
        | array he => exact absurd hk ha
        | object hk' hp => exact absurd hk ho
      · exact kinds (.scalar hs) hw hk
  | array he ih =>
      cases hw with
      | scalar hs => exact kinds (.array he) (.scalar hs) (kind_ne_of_isScalar hs).1.symm
      | array he' => exact arrays (fun v hm _ hw => ih v hm hw) he'
      | object hk hp => exact kinds (.array he) (.object hk hp) Kind.noConfusion
  | object hk hp ih =>
      cases hw with
      | scalar hs => exact kinds (.object hk hp) (.scalar hs) (kind_ne_of_isScalar hs).2.symm
      | array he => exact kinds (.object hk hp) (.array he) Kind.noConfusion
      | object hk' hp' => exact objects (fun p hm _ hw => ih p hm hw) hp'

/-! ### Members -/

/-- The tellings of a value and of any other canonical one compare as the values do; after values
that agree, what follows is compared. -/
def TellsOrder (v : Value) : Prop :=
  ∀ {w : Value}, w.IsCanonical → ∀ (slot : Slot) (t u : Trace),
    ((v.trace slot).append t).compare ((w.trace slot).append u) =
      Trace.first (v.order w) (t.compare u)

theorem compare_trace_of_kind_ne {v w : Value} (hv : v.IsCanonical) (hw : w.IsCanonical)
    (h : v.kind ≠ w.kind) (slot : Slot) (t u : Trace) :
    ((v.trace slot).append t).compare ((w.trace slot).append u) =
      Trace.first (v.order w) (t.compare u) := by
  obtain ⟨t', ht⟩ := hv.trace_opening slot
  obtain ⟨u', hu⟩ := hw.trace_opening slot
  obtain ⟨hc, hne⟩ := compare_opening_of_kind_ne hv.ne_binary hw.ne_binary h slot
  rw [ht, hu, Trace.append, Trace.append, Trace.compare_next, hc, Trace.first_of_ne hne,
    Trace.first_of_ne hne]

theorem compare_traceElems {vs ws : List Value} (ih : ∀ v ∈ vs, v.TellsOrder)
    (hw : ∀ w ∈ ws, w.IsCanonical) (hl : vs.length = ws.length) (t u : Trace) :
    ((traceElems vs).append t).compare ((traceElems ws).append u) =
      Trace.first (orderElems vs ws) (t.compare u) := by
  induction vs generalizing ws with
  | nil =>
      obtain rfl := List.length_eq_zero_iff.mp hl.symm
      rfl
  | cons v vs ih' =>
      cases ws with
      | nil => cases hl
      | cons w ws =>
          obtain ⟨hv, hvs⟩ := List.forall_mem_cons.mp ih
          obtain ⟨hw, hws⟩ := List.forall_mem_cons.mp hw
          rw [traceElems, traceElems, orderElems, Trace.append_assoc, Trace.append_assoc, hv hw,
            ih' hvs hws (Nat.succ.inj hl), Trace.first_then]

theorem compare_tracePairs {ps qs : List (Bytes × Value)} (ih : ∀ p ∈ ps, p.2.TellsOrder)
    (hq : ∀ q ∈ qs, q.2.IsCanonical) (hl : ps.length = qs.length) (t u : Trace) :
    ((tracePairs ps).append t).compare ((tracePairs qs).append u) =
      Trace.first (orderPairs ps qs) (t.compare u) := by
  induction ps generalizing qs with
  | nil =>
      obtain rfl := List.length_eq_zero_iff.mp hl.symm
      rfl
  | cons p ps ih' =>
      cases qs with
      | nil => cases hl
      | cons q qs =>
          obtain ⟨k, v⟩ := p
          obtain ⟨l, w⟩ := q
          obtain ⟨hv, hvs⟩ := List.forall_mem_cons.mp ih
          obtain ⟨hw, hws⟩ := List.forall_mem_cons.mp hq
          have hv : v.TellsOrder := hv
          have hw : w.IsCanonical := hw
          have hkey : (Event.key k).compare (.key l) =
              (Ord.compare k.length l.length).then (Ord.compare k l) := rfl
          rw [tracePairs, tracePairs, orderPairs, Trace.append, Trace.append, Trace.compare_next,
            hkey, Trace.append_assoc, Trace.append_assoc, hv hw, ih' hvs hws (Nat.succ.inj hl),
            ← Trace.first_then, ← Trace.first_then, Ordering.then_assoc]

theorem compare_arrays {r s : Bool} {vs ws : List Value} (ih : ∀ v ∈ vs, v.TellsOrder)
    (hw : ∀ w ∈ ws, w.IsCanonical) (t u : Trace) :
    (Trace.next (.beginArray vs.length r) ((traceElems vs).append (.next .endArray t))).compare
        (.next (.beginArray ws.length s) ((traceElems ws).append (.next .endArray u))) =
      Trace.first ((Value.array r vs).order (.array s ws)) (t.compare u) := by
  have hbegin : (Event.beginArray vs.length r).compare (.beginArray ws.length s) =
      (Ord.compare (!r) (!s)).then (Ord.compare vs.length ws.length) := by
    cases r <;> cases s <;> rfl
  rw [Trace.compare_next, hbegin, order, ← Ordering.then_assoc]
  generalize heq : (Ord.compare (!r) (!s)).then (Ord.compare vs.length ws.length) = o
  cases o with
  | eq =>
      have hl : vs.length = ws.length := Nat.compare_eq_eq.mp (Ordering.then_eq_eq.mp heq).2
      exact compare_traceElems ih hw hl _ _
  | _ => rfl

theorem compare_objects {ps qs : List (Bytes × Value)} (ih : ∀ p ∈ ps, p.2.TellsOrder)
    (hq : ∀ q ∈ qs, q.2.IsCanonical) (t u : Trace) :
    (Trace.next (.beginObject ps.length) ((tracePairs ps).append (.next .endObject t))).compare
        (.next (.beginObject qs.length) ((tracePairs qs).append (.next .endObject u))) =
      Trace.first ((Value.object ps).order (.object qs)) (t.compare u) := by
  have hbegin : (Event.beginObject ps.length).compare (.beginObject qs.length) =
      Ord.compare ps.length qs.length := rfl
  rw [Trace.compare_next, hbegin, order]
  generalize heq : Ord.compare ps.length qs.length = o
  cases o with
  | eq => exact compare_tracePairs ih hq (Nat.compare_eq_eq.mp heq) _ _
  | _ => rfl

/-- Canonical members are told in their order. -/
theorem tellsOrder {v : Value} (hv : v.IsCanonical) : v.TellsOrder := by
  intro w hw
  refine IsCanonical.pair_induction ?_ ?_ ?_ ?_ hv hw
  · intro v w hv hw hk slot t u
    exact compare_trace_of_kind_ne hv hw hk slot t u
  · intro v w hs hs' _ slot t u
    rw [trace_of_isScalar hs, trace_of_isScalar hs']
    show (Trace.next (slot.event v) t).compare (.next (slot.event w) u) = _
    rw [Trace.compare_next, slot.compare_event, compareScalars_eq_order hs hs']
  · intro vs ws ih hw slot t u
    rw [trace_array, trace_array, Trace.append, Trace.append, Trace.append_assoc,
      Trace.append_assoc]
    exact compare_arrays ih hw t u
  · intro ps qs ih hq slot t u
    rw [trace_object, trace_object, Trace.append, Trace.append, Trace.append_assoc,
      Trace.append_assoc]
    exact compare_objects ih hq t u

/-! ### Whole values -/

/-- A canonical whole value is an array or an object with canonical members. -/
theorem IsCanonicalRoot.cases {v : Value} (h : v.IsCanonicalRoot) :
    (∃ raw elems, v = .array raw elems ∧ ∀ w ∈ elems, w.IsCanonical) ∨
    ∃ pairs, v = .object pairs ∧ ∀ q ∈ pairs, q.2.IsCanonical := by
  cases v with
  | array raw elems =>
      cases raw with
      | true =>
          obtain ⟨w, rfl, hw⟩ := h
          exact .inl ⟨true, [w], rfl, fun _ hm => List.mem_singleton.mp hm ▸ .scalar hw⟩
      | false =>
          cases h.2 with
          | scalar hs => cases hs
          | array he => exact .inl ⟨false, elems, rfl, he⟩
  | object pairs =>
      cases h.2 with
      | scalar hs => cases hs
      | object ha hp => exact .inr ⟨pairs, rfl, hp⟩
  | binary c =>
      cases h.2 with
      | scalar hs => cases hs
  | _ => cases h.1

theorem compare_rootTrace {v w : Value} (hv : v.IsCanonicalRoot) (hw : w.IsCanonicalRoot) :
    v.rootTrace.compare w.rootTrace = .ok (v.order w) := by
  rw [← Trace.first_ok_eq (v.order w)]
  rcases hv.cases with ⟨r, vs, rfl, hvs⟩ | ⟨ps, rfl, hps⟩
  · rcases hw.cases with ⟨s, ws, rfl, hws⟩ | ⟨qs, rfl, hqs⟩
    · exact compare_arrays (fun v hm => tellsOrder (hvs v hm)) hws .finished .finished
    · rfl
  · rcases hw.cases with ⟨s, ws, rfl, hws⟩ | ⟨qs, rfl, hqs⟩
    · rfl
    · exact compare_objects (fun p hm => tellsOrder (hps p hm)) hqs .finished .finished

/-! ### Equality -/

/-- The order finds two canonical values equal exactly if they are the same. -/
def DecidesSame (v : Value) : Prop :=
  ∀ {w : Value}, w.IsCanonical → (v.order w = .eq ↔ v.same w = true)

theorem orderElems_eq_eq {vs ws : List Value} (ih : ∀ v ∈ vs, v.DecidesSame)
    (hw : ∀ w ∈ ws, w.IsCanonical) :
    vs.length = ws.length ∧ orderElems vs ws = .eq ↔ sameElems vs ws = true := by
  induction vs generalizing ws with
  | nil => cases ws <;> simp [orderElems, sameElems]
  | cons v vs ih' =>
      cases ws with
      | nil => simp [sameElems]
      | cons w ws =>
          obtain ⟨hv, hvs⟩ := List.forall_mem_cons.mp ih
          obtain ⟨hw, hws⟩ := List.forall_mem_cons.mp hw
          rw [orderElems, sameElems, Ordering.then_eq_eq, hv hw, Bool.and_eq_true,
            ← ih' hvs hws, List.length_cons, List.length_cons, Nat.succ_inj]
          exact and_left_comm

theorem orderPairs_eq_eq {ps qs : List (Bytes × Value)} (ih : ∀ p ∈ ps, p.2.DecidesSame)
    (hq : ∀ q ∈ qs, q.2.IsCanonical) :
    ps.length = qs.length ∧ orderPairs ps qs = .eq ↔ samePairs ps qs = true := by
  induction ps generalizing qs with
  | nil => cases qs <;> simp [orderPairs, samePairs]
  | cons p ps ih' =>
      cases qs with
      | nil => simp [samePairs]
      | cons q qs =>
          obtain ⟨k, v⟩ := p
          obtain ⟨l, w⟩ := q
          obtain ⟨hv, hvs⟩ := List.forall_mem_cons.mp ih
          obtain ⟨hw, hws⟩ := List.forall_mem_cons.mp hq
          have hkey : (Ord.compare k.length l.length).then (Ord.compare k l) = .eq ↔
              (k == l) = true := by
            rw [beq_iff_eq]
            exact Bytes.keyCompare_eq_iff
          have hval : v.order w = .eq ↔ v.same w = true := hv hw
          rw [orderPairs, samePairs, Ordering.then_eq_eq, hkey, Ordering.then_eq_eq, hval,
            Bool.and_eq_true, Bool.and_eq_true, ← ih' hvs hws, List.length_cons,
            List.length_cons, Nat.succ_inj, and_assoc]
          exact ⟨fun ⟨h, hk, hv, hp⟩ => ⟨hk, hv, h, hp⟩, fun ⟨hk, hv, h, hp⟩ => ⟨h, hk, hv, hp⟩⟩

theorem order_arrays_eq_eq {r s : Bool} {vs ws : List Value} (ih : ∀ v ∈ vs, v.DecidesSame)
    (hw : ∀ w ∈ ws, w.IsCanonical) :
    (Value.array r vs).order (.array s ws) = .eq ↔
      (Value.array r vs).same (.array s ws) = true := by
  have hr : Ord.compare (!r) (!s) = .eq ↔ (r == s) = true := by
    cases r <;> cases s <;> decide
  rw [order, same, Ordering.then_eq_eq, Ordering.then_eq_eq, Nat.compare_eq_eq, hr,
    orderElems_eq_eq ih hw, Bool.and_eq_true]

theorem order_objects_eq_eq {ps qs : List (Bytes × Value)} (ih : ∀ p ∈ ps, p.2.DecidesSame)
    (hq : ∀ q ∈ qs, q.2.IsCanonical) :
    (Value.object ps).order (.object qs) = .eq ↔
      (Value.object ps).same (.object qs) = true := by
  rw [order, same, Ordering.then_eq_eq, Nat.compare_eq_eq, orderPairs_eq_eq ih hq]

theorem kind_eq_of_same {v w : Value} (h : v.same w = true) (hv : ∀ c, v ≠ .binary c) :
    v.kind = w.kind := by
  cases v <;> cases w <;> first | rfl | cases h | exact absurd rfl (hv _)

theorem order_eq_eq_of_kind_ne {v w : Value} (hv : v.IsCanonical) (hw : w.IsCanonical)
    (h : v.kind ≠ w.kind) : v.order w = .eq ↔ v.same w = true := by
  refine iff_of_false ?_ fun hs => h (kind_eq_of_same hs hv.ne_binary)
  exact (compare_opening_of_kind_ne hv.ne_binary hw.ne_binary h .elem).2

theorem order_scalars_eq_eq {v w : Value} (hv : v.isScalar = true) (hw : w.isScalar = true)
    (h : v.kind = w.kind) : v.order w = .eq ↔ v.same w = true := by
  cases v with
  | null => cases w <;> first | exact ⟨fun _ => rfl, fun _ => rfl⟩ | cases h | cases hw
  | bool a =>
      cases w with
      | bool b => cases a <;> cases b <;> decide
      | _ => first | cases h | cases hw
  | number d =>
      cases w with
      | number e =>
          rw [order, same, ← Decimal.compare_eq_value, beq_iff_eq]
      | _ => first | cases h | cases hw
  | string s =>
      cases w with
      | string t =>
          rw [order, same, beq_iff_eq]
          exact Bytes.keyCompare_eq_iff
      | _ => first | cases h | cases hw
  | _ => cases hv

theorem decidesSame {v : Value} (hv : v.IsCanonical) : v.DecidesSame := by
  intro w hw
  refine IsCanonical.pair_induction ?_ ?_ ?_ ?_ hv hw
  · exact order_eq_eq_of_kind_ne
  · exact order_scalars_eq_eq
  · exact order_arrays_eq_eq
  · exact order_objects_eq_eq

theorem order_eq_eq_iff {v w : Value} (hv : v.IsCanonicalRoot) (hw : w.IsCanonicalRoot) :
    v.order w = .eq ↔ v.same w = true := by
  rcases hv.cases with ⟨r, vs, rfl, hvs⟩ | ⟨ps, rfl, hps⟩
  · rcases hw.cases with ⟨s, ws, rfl, hws⟩ | ⟨qs, rfl, hqs⟩
    · exact order_arrays_eq_eq (fun v hm => decidesSame (hvs v hm)) hws
    · exact iff_of_false nofun nofun
  · rcases hw.cases with ⟨s, ws, rfl, hws⟩ | ⟨qs, rfl, hqs⟩
    · exact iff_of_false nofun nofun
    · exact order_objects_eq_eq (fun p hm => decidesSame (hps p hm)) hqs

/-- The containers of two values compare as the canonical forms of the values, and they compare
equal exactly if those are the same. -/
theorem compare_pack {v w : Value} {c d : Container} (hv : v.isTree = true)
    (hw : w.isTree = true) (hc : v.pack = .ok c) (hd : w.pack = .ok d) :
    c.compare d = .ok (v.canonical.order w.canonical) ∧
      (c.compare d = .ok .eq ↔ v.canonical.same w.canonical = true) := by
  have cv := isCanonicalRoot_of_pack hv hc
  have cw := isCanonicalRoot_of_pack hw hd
  have heq : c.compare d = .ok (v.canonical.order w.canonical) := by
    rw [Container.compare, trace_of_pack hv hc, trace_of_pack hw hd]
    exact compare_rootTrace cv cw
  refine ⟨heq, ?_⟩
  rw [heq, Except.ok.injEq]
  exact order_eq_eq_iff cv cw

/-- Two spellings of one object pack to containers that compare equal. -/
theorem compare_pack_spellings :
    ∃ c d, (Value.object [([98], .number ⟨15, 1⟩), ([97], .null),
        ([98], .number ⟨150, 2⟩)]).pack = .ok c ∧
      (Value.object [([97], .null), ([98], .array true [.number ⟨15, 1⟩])]).pack = .ok d ∧
      c.payload ≠ d.payload ∧ c.compare d = .ok .eq := by
  have hs : Decimal.storable ⟨15, 1⟩ = true := by decide
  have hs' : Decimal.storable ⟨150, 2⟩ = true := by decide
  have hc : (Value.object [([98], .number ⟨15, 1⟩), ([97], .null),
      ([98], .number ⟨150, 2⟩)]).pack =
        .ok ⟨⟨.object, 2, by decide, by decide⟩, [2147483649, 1, 1073741824, 268435468],
          [97, 98, 0, 0, 2, 0, 0, 0, 0, 0, 0, 0, 150, 0], rfl⟩ := by
    simp only [pack, pairPieces, piece, leafPiece, hs, hs', if_true]
    cbv
  have hd : (Value.object [([97], .null), ([98], .array true [.number ⟨15, 1⟩])]).pack =
      .ok ⟨⟨.object, 2, by decide, by decide⟩, [2147483649, 1, 1073741824, 268435467],
        [97, 98, 0, 0, 1, 0, 0, 0, 0, 0, 0, 0, 15], rfl⟩ := by
    simp only [pack, pairPieces, piece, leafPiece, hs, if_true]
    cbv
  have hv : (Value.object [([98], .number ⟨15, 1⟩), ([97], .null),
      ([98], .number ⟨150, 2⟩)]).canonical =
        .object [([97], .null), ([98], .number ⟨150, 2⟩)] := by
    cbv
  have hw : (Value.object [([97], .null), ([98], .array true [.number ⟨15, 1⟩])]).canonical =
      .object [([97], .null), ([98], .number ⟨15, 1⟩)] := by
    cbv
  refine ⟨_, _, hc, hd, by decide, (compare_pack rfl rfl hc hd).2.mpr ?_⟩
  rw [hv, hw]
  decide

end Value

end PackedTree
