import PackedTree.Proofs.BuiltValues

/-! # What the options of a builder do

Dropping null values is the same whether each object does it when it ends or the whole value does it
in the end, and asking for unique keys only refuses.  Both are shown by letting two builders take
the same events.  If what the options of the second one make of an object corresponds to what those
of the first one make of it (`Options.Refine`), then the second builder holds at any time what
corresponds to what the first one holds; only where an object ends in which a key repeats may it
refuse alone (`Builder.run_follows`).

`Builder.ClosesRepeated` says that pushing events comes to the end of such an object, and then the
builder that asks for unique keys does refuse (`run_of_closesRepeated`).  `options_independent` is
the result for both options. -/

namespace PackedTree

/-! ### Dropping null values in the end -/

namespace Value

mutual

/-- The value without the null values of its objects, at any depth. -/
def dropNulls : Value → Value
  | .array raw elems => .array raw (dropNullsElems elems)
  | .object pairs => .object (dropNullsPairs pairs)
  | v => v

def dropNullsElems : List Value → List Value
  | [] => []
  | v :: vs => v.dropNulls :: dropNullsElems vs

def dropNullsPairs : List (Bytes × Value) → List (Bytes × Value)
  | [] => []
  | (k, v) :: ps =>
      if v = .null then dropNullsPairs ps else (k, v.dropNulls) :: dropNullsPairs ps

end

theorem dropNullsElems_eq_map (elems : List Value) :
    dropNullsElems elems = elems.map dropNulls := by
  induction elems with
  | nil => rfl
  | cons v vs ih => rw [dropNullsElems, ih, List.map_cons]

theorem dropNullsPairs_eq_map (pairs : List (Bytes × Value)) :
    dropNullsPairs pairs =
      (pairs.filter fun p => p.2 ≠ .null).map fun p => (p.1, p.2.dropNulls) := by
  induction pairs with
  | nil => rfl
  | cons p ps ih =>
      rw [dropNullsPairs, ih]
      by_cases hp : p.2 = .null
      · rw [if_pos hp, List.filter_cons_of_neg (by simpa using hp)]
      · rw [if_neg hp, List.filter_cons_of_pos (by simpa using hp), List.map_cons]

theorem dropNulls_of_isScalar {v : Value} (hv : v.isScalar = true) : v.dropNulls = v := by
  cases v with
  | null | bool | number | string => simp only [dropNulls]
  | _ => cases hv

theorem dropNulls_array (raw : Bool) (elems : List Value) :
    (Value.array raw elems).dropNulls = .array raw (elems.map dropNulls) := by
  rw [dropNulls, dropNullsElems_eq_map]

theorem dropNulls_object (pairs : List (Bytes × Value)) :
    (Value.object pairs).dropNulls =
      .object ((pairs.filter fun p => p.2 ≠ .null).map fun p => (p.1, p.2.dropNulls)) := by
  rw [dropNulls, dropNullsPairs_eq_map]

theorem dropNulls_eq_null_iff {v : Value} : v.dropNulls = .null ↔ v = .null := by
  cases v <;> simp [dropNulls]

end Value

/-! ### Options that correspond up to a change of values -/

open Value

/-- What pairs amount to under the options `o'` is what `g` makes of what they amount to under `o`,
and `o'` asks for unique keys wherever `o` does. -/
structure Options.Refine (o o' : Options) (g : Value → Value) : Prop where
  limit : o'.limit = o.limit
  uniqueKeys : o.uniqueKeys = true → o'.uniqueKeys = true
  scalar : ∀ v, v.isScalar = true → g v = v
  array : ∀ raw elems, g (.array raw elems) = .array raw (elems.map g)
  object : ∀ pairs, g (.object (staying o pairs)) =
    .object (staying o' (pairs.map fun p => (p.1, g p.2)))

theorem Options.refine_skipNulls (u : Bool) (m : Nat) :
    Options.Refine ⟨u, false, m⟩ ⟨u, true, m⟩ dropNulls where
  limit := rfl
  uniqueKeys := id
  scalar := fun _ => dropNulls_of_isScalar
  array := dropNulls_array
  object := fun pairs => by
    rw [dropNulls_object]
    unfold staying
    simp only [Keyed.written_map, List.filter_map, Function.comp_def, ne_eq, dropNulls_eq_null_iff,
      if_true]
    rfl

theorem Options.refine_uniqueKeys (s : Bool) (m : Nat) :
    Options.Refine ⟨false, s, m⟩ ⟨true, s, m⟩ id where
  limit := rfl
  uniqueKeys := nofun
  scalar := fun _ _ => rfl
  array := fun raw elems => by rw [List.map_id]; rfl
  object := fun pairs => by
    have hid : (pairs.map fun p => (p.1, id p.2)) = pairs := List.map_id pairs
    rw [hid]
    rfl

namespace Builder

/-! ### Objects in which a key repeats -/

/-- Pushing the events one by one comes to the end of an object in which a key repeats. -/
inductive ClosesRepeated : Builder → List Event → Prop
  | now {b : Builder} {pairs : List (Bytes × Value)} {frames : List Frame} {es : List Event}
      (hb : b.frames = .object pairs none :: frames) (hr : ¬ (pairs.map Prod.fst).Nodup) :
      ClosesRepeated b (.endObject :: es)
  | later {b b' : Builder} {e : Event} {es : List Event} (h : b.push e = (.ok none, b'))
      (ht : ClosesRepeated b' es) : ClosesRepeated b (e :: es)

variable {b b' : Builder} {es : List Event}

theorem ClosesRepeated.append (h : b.ClosesRepeated es) (fs : List Event) :
    b.ClosesRepeated (es ++ fs) := by
  induction h with
  | now hb hr => exact .now hb hr
  | later h _ ih => exact .later h ih

theorem Pushes.closesRepeated {fs : List Event} (h : Pushes b es b') (ht : b'.ClosesRepeated fs) :
    b.ClosesRepeated (es ++ fs) := by
  induction h with
  | nil => exact ht
  | cons h _ ih => exact .later h (ih ht)

end Builder

/-! ### Two builders -/

/-- The open container with its finished members changed. -/
def Frame.mapValues (g : Value → Value) : Frame → Frame
  | .array raw elems => .array raw (elems.map g)
  | .object pairs key => .object (pairs.map fun p => (p.1, g p.2)) key

namespace Builder

/-- The builder with other options, and with the finished members of its containers changed. -/
def carry (o' : Options) (g : Value → Value) (b : Builder) : Builder :=
  ⟨o', b.frames.map (Frame.mapValues g), b.complete⟩

/-- The second outcome corresponds to the first one; or the second builder alone asks for unique
keys and refuses, which it may do only under the given condition. -/
inductive Outcome.Follows (o o' : Options) (g : Value → Value) (repeated : Prop) :
    Outcome → Outcome → Prop
  | same {x : Outcome} (hx : x.2.options = o) :
      Follows o o' g repeated x (x.1.map (Option.map g), x.2.carry o' g)
  | refuses {x : Outcome} {b' : Builder} (hr : repeated) (hu : o.uniqueKeys = false)
      (hu' : o'.uniqueKeys = true) : Follows o o' g repeated x (.error .duplicateKey, b')

theorem Outcome.Follows.imp {o o' : Options} {g : Value → Value} {p q : Prop} {x y : Outcome}
    (h : x.Follows o o' g p y) (hpq : p → q) : x.Follows o o' g q y := by
  cases h with
  | same hx => exact .same hx
  | refuses hr hu hu' => exact .refuses (hpq hr) hu hu'

section Ends

variable {b : Builder} {pairs r : List (Bytes × Value)} {below : List Frame} {f : Fault}
  (hf : b.frames = .object pairs none :: below)
include hf

theorem step_endObject_of_ok (hr : finishPairs b.options pairs.reverse = .ok r) :
    b.step .endObject = store { b with frames := below } (.object r) := by
  simp only [step, hf, hr]

theorem step_endObject_of_error (hr : finishPairs b.options pairs.reverse = .error f) :
    b.step .endObject = (.error f, { b with frames := below }) := by
  simp only [step, hf, hr]

end Ends

section Follow

variable {o o' : Options} {g : Value → Value} (hg : o.Refine o' g) {b b' : Builder}
  (hb : b.options = o) {e : Event} {es : List Event} {p : Prop}
include hg hb

/-- Storing looks at the number of members and not at the members. -/
theorem store_follows (v : Value) :
    (b.store v).Follows o o' g p ((b.carry o' g).store (g v)) := by
  obtain ⟨_, frames, complete⟩ := b
  obtain rfl : _ = o := hb
  rcases frames with _ | ⟨⟨raw, elems⟩ | ⟨pairs, key⟩, below⟩
  · exact .same rfl
  · simp only [store, carry, List.map_cons, Frame.mapValues, List.length_map, hg.limit]
    split
    · exact .same rfl
    · exact .same rfl
  · simp only [store, carry, List.map_cons, Frame.mapValues, List.length_map, hg.limit]
    split
    · exact .same rfl
    · exact .same rfl

omit hg in
theorem enter_follows (token : Token) (f : Frame) :
    (b.enter token f).Follows o o' g p ((b.carry o' g).enter token (f.mapValues g)) := by
  have hclosed : (b.carry o' g).frames.head?.bind Frame.closedTo =
      b.frames.head?.bind Frame.closedTo := by
    rcases hf : b.frames with _ | ⟨⟨_ | _, _⟩ | ⟨_, _ | _⟩, below⟩ <;> simp only [carry, hf] <;> rfl
  have hdepth : (b.carry o' g).depth = b.depth := List.length_map _
  unfold enter
  rw [hclosed, hdepth]
  split
  · exact .same hb
  · split
    · exact .same hb
    · exact .same hb

/-- What an object amounts to corresponds, unless only the second builder minds a repeated key. -/
theorem endObject_follows {pairs : List (Bytes × Value)} {below : List Frame}
    (hf : b.frames = .object pairs none :: below) :
    (b.step .endObject).Follows o o' g (¬ (pairs.map Prod.fst).Nodup)
      ((b.carry o' g).step .endObject) := by
  subst hb
  let changed := pairs.map fun p => (p.1, g p.2)
  have hf' : (b.carry o' g).frames = .object changed none :: below.map (Frame.mapValues g) := by
    rw [carry, hf]
    rfl
  have hkeys : (pairs.reverse.map Prod.fst).Nodup ↔ (pairs.map Prod.fst).Nodup := by
    rw [List.map_reverse, List.nodup_reverse]
  have hkeys' : (changed.reverse.map Prod.fst).Nodup ↔ (pairs.map Prod.fst).Nodup := by
    rw [List.map_reverse, List.nodup_reverse, List.map_map]
    rfl
  by_cases hn : o'.uniqueKeys = true → (pairs.map Prod.fst).Nodup
  · have hfinish : finishPairs b.options pairs.reverse = .ok (staying b.options pairs.reverse) :=
      finishPairs_eq_ok_iff.mpr ⟨fun hu => hkeys.mpr (hn (hg.uniqueKeys hu)), rfl⟩
    have hfinish' : finishPairs o' changed.reverse = .ok (staying o' changed.reverse) :=
      finishPairs_eq_ok_iff.mpr ⟨fun hu => hkeys'.mpr (hn hu), rfl⟩
    have hobject : Value.object (staying o' changed.reverse) =
        g (.object (staying b.options pairs.reverse)) := by
      rw [hg.object, List.map_reverse]
    rw [step_endObject_of_ok hf hfinish, step_endObject_of_ok hf' hfinish', hobject]
    exact store_follows (b := { b with frames := below }) hg rfl _
  · obtain ⟨hu', hr⟩ := Classical.not_imp.mp hn
    have hfinish' := finishPairs_of_repeated hu' (mt hkeys'.mp hr)
    rw [step_endObject_of_error hf' hfinish']
    cases hu : b.options.uniqueKeys with
    | true =>
        have hfinish := finishPairs_of_repeated hu (mt hkeys.mp hr)
        rw [step_endObject_of_error hf hfinish]
        exact .same rfl
    | false => exact .refuses hr hu hu'

/-- A step keeps the second builder in correspondence with the first one. -/
theorem step_follows (he : e.isSimple = true) :
    (b.step e).Follows o o' g (b.ClosesRepeated [e]) ((b.carry o' g).step e) := by
  cases e with
  | beginArray len raw =>
      have hnil : (b.carry o' g).frames = [] ↔ b.frames = [] := List.map_eq_nil_iff
      simp only [step, ne_eq, hnil]
      split
      · exact .same hb
      · exact enter_follows hb .beginArray (.array raw [])
  | beginObject len => exact enter_follows hb .beginObject (.object [] none)
  | elem v =>
      have hstore := store_follows (p := b.ClosesRepeated [.elem v]) hg hb v
      rw [hg.scalar v he] at hstore
      obtain ⟨_, _ | ⟨⟨raw, elems⟩ | ⟨pairs, key⟩, below⟩, complete⟩ := b
      · exact .same hb
      · simp only [step, carry, List.map_cons, Frame.mapValues, ne_eq, List.map_eq_nil_iff]
        split
        · exact .same hb
        · exact hstore
      · exact .same hb
  | key k =>
      obtain ⟨_, _ | ⟨⟨raw, elems⟩ | ⟨pairs, _ | l⟩, below⟩, complete⟩ := b
      · exact .same hb
      · exact .same hb
      · exact .same hb
      · exact .same hb
  | value v =>
      have hstore := store_follows (p := b.ClosesRepeated [.value v]) hg hb v
      rw [hg.scalar v he] at hstore
      obtain ⟨_, _ | ⟨⟨raw, elems⟩ | ⟨pairs, _ | k⟩, below⟩, complete⟩ := b
      · exact .same hb
      · exact .same hb
      · exact .same hb
      · exact hstore
  | endArray =>
      obtain ⟨_, _ | ⟨⟨raw, elems⟩ | ⟨pairs, key⟩, below⟩, complete⟩ := b
      · exact .same hb
      · have hend (q : Prop) := store_follows (b := ⟨o, below, complete⟩) (p := q) hg rfl
          (.array raw elems.reverse)
        rw [hg.array, List.map_reverse] at hend
        simp only [step, carry, List.map_cons, Frame.mapValues, List.length_map]
        split
        · exact .same hb
        · obtain rfl : _ = o := hb
          exact hend _
      · exact .same hb
  | endObject =>
      obtain ⟨_, _ | ⟨⟨raw, elems⟩ | ⟨pairs, _ | key⟩, below⟩, complete⟩ := b
      · exact .same hb
      · exact .same hb
      · exact (endObject_follows hg hb rfl).imp fun hr => .now rfl hr
      · exact .same hb
  | done => exact .same hb

theorem feed_follows {t : Trace} {n : Nat} (ht : t.Nests n) (hc : b.complete = false)
    (hn : n < b.depth) :
    (b.feed none t).Follows o o' g (b.ClosesRepeated t.events) ((b.carry o' g).feed none t) := by
  induction ht generalizing b with
  | finished => exact .same hb
  | failed => exact .same hb
  | @next n n' e t he ht ih =>
      have hstep := step_follows hg hb he.isSimple
      have hcont := step_continues he hc (b.depth - n + n') (by omega) hn
      rw [feed, feed]
      cases hs : b.step e with
      | mk x b' =>
          rw [hs] at hstep hcont
          obtain ⟨hc', hok⟩ := hcont
          generalize (b.carry o' g).step e = y at hstep ⊢
          cases hstep with
          | refuses hr hu hu' => exact .refuses (hr.append t.events) hu hu'
          | same hb' =>
              cases x with
              | error f => exact .same hb'
              | ok r =>
                  obtain ⟨rfl, hd⟩ := hok r rfl
                  have hpush : b.push e = (.ok none, b') := (push_simple hc he.isSimple).trans hs
                  exact (ih hb' hc' (by omega)).imp fun hr => .later hpush hr

theorem member_follows (hc : b.complete = false) (slot : Slot) (v : Value) :
    (b.member slot v).Follows o o' g (b.ClosesRepeated (v.trace slot).events)
      ((b.carry o' g).member slot v) := by
  have hfeed := feed_follows hg hb (v.nests_trace slot) hc
  obtain ⟨_, _ | ⟨⟨raw, elems⟩ | ⟨pairs, key⟩, below⟩, complete⟩ := b
  · cases slot <;> exact .same hb
  · cases slot with
    | elem => exact hfeed (Nat.succ_pos _)
    | value => exact .same hb
  · cases slot with
    | elem => exact .same hb
    | value => exact hfeed (Nat.succ_pos _)

theorem push_follows (hc : b.complete = false) (e : Event) :
    (b.push e).Follows o o' g (b.ClosesRepeated e.unfolded) ((b.carry o' g).push e) := by
  have hc' : (b.carry o' g).complete = false := hc
  cases e with
  | elem v =>
      rw [push, push, hc, hc']
      exact member_follows hg hb hc .elem v
  | value v =>
      rw [push, push, hc, hc']
      exact member_follows hg hb hc .value v
  | _ =>
      rw [push_simple hc rfl, push_simple hc' rfl]
      exact step_follows hg hb rfl

omit hg hb in
/-- When the outermost container has ended the builders refuse the same events. -/
theorem run_carry_of_complete (hc : b.complete = true) (v : Value) :
    (b.carry o' g).run (some (g v)) es = (b.run (some v) es).map g := by
  cases es with
  | nil => rfl
  | cons e es =>
      by_cases he : e = .done
      · subst he
        rfl
      · have hc' : (b.carry o' g).complete = true := hc
        rw [run_some_cons he, run_some_cons he, push_of_complete hc, push_of_complete hc']
        rfl

/-- A run of the second builder ends as that of the first one does, or it alone refuses because it
comes to the end of an object in which a key repeats. -/
theorem run_follows (hc : b.complete = false) (es : List Event) :
    (b.carry o' g).run none es = (b.run none es).map g ∨
      (b.carry o' g).run none es = .error .duplicateKey ∧
        b.ClosesRepeated (es.flatMap Event.unfolded) ∧ o.uniqueKeys = false ∧
          o'.uniqueKeys = true := by
  induction es generalizing b with
  | nil => exact .inl rfl
  | cons e es ih =>
      have hpush := push_follows hg hb hc e
      rw [run_none_cons, run_none_cons, List.flatMap_cons]
      cases hs : b.push e with
      | mk x b' =>
          rw [hs] at hpush
          generalize (b.carry o' g).push e = y at hpush ⊢
          cases hpush with
          | refuses hr hu hu' => exact .inr ⟨rfl, hr.append _, hu, hu'⟩
          | same hb' =>
              rcases x with f | _ | v
              · exact .inl rfl
              · obtain ⟨hc', hp⟩ := pushes_unfolded hc hs
                refine (ih hb' hc').imp id ?_
                rintro ⟨hrun, hr, hu⟩
                exact ⟨hrun, hp.closesRepeated hr, hu⟩
              · exact .inl (run_carry_of_complete (unfolded_of_finished hc hs).1 v)

/-- Where a key repeats in an object that ends, a builder that asks for unique keys refuses. -/
theorem run_of_closesRepeated (hc : b.complete = false) (hu : o'.uniqueKeys = true)
    (h : b.ClosesRepeated es) : (b.carry o' g).run none es = .error .duplicateKey := by
  induction h with
  | @now b pairs frames es hf hr =>
      have hc' : (b.carry o' g).complete = false := hc
      have hf' : (b.carry o' g).frames =
          (Frame.object pairs none).mapValues g :: frames.map (Frame.mapValues g) := by
        rw [carry, hf]
        rfl
      have hkeys : ¬ ((pairs.map fun p => (p.1, g p.2)).reverse.map Prod.fst).Nodup := by
        rwa [List.map_reverse, List.nodup_reverse, List.map_map]
      rw [run_none_cons, push_simple hc' rfl,
        step_endObject_of_error hf' (finishPairs_of_repeated hu hkeys)]
  | @later b b' e es h ht ih =>
      have hpush := push_follows hg hb hc e
      rw [h] at hpush
      rw [run_none_cons]
      generalize (b.carry o' g).push e = y at hpush ⊢
      cases hpush with
      | refuses => rfl
      | same hb' => exact ih hb' (pushes_unfolded hc h).1

end Follow

/-! ### Both options -/

/-- Dropping null values is dropping them from what is built without it, with the same faults.
Asking for unique keys yields the same value or refuses, and it refuses exactly if an object ends in
which a key repeats; the events of nested and of packed members count as well. -/
theorem options_independent (es : List Event) (m : Nat) :
    (∀ u, build ⟨u, true, m⟩ es = (build ⟨u, false, m⟩ es).map dropNulls) ∧
    ∀ s v,
      (build ⟨true, s, m⟩ es = .ok v → build ⟨false, s, m⟩ es = .ok v) ∧
      (build ⟨false, s, m⟩ es = .ok v →
        (build ⟨true, s, m⟩ es = .ok v ∨ build ⟨true, s, m⟩ es = .error .duplicateKey) ∧
        (build ⟨true, s, m⟩ es = .error .duplicateKey ↔
          (empty ⟨false, s, m⟩).ClosesRepeated (es.flatMap Event.unfolded))) := by
  constructor
  · intro u
    have hrun := run_follows (Options.refine_skipNulls u m) (b := empty ⟨u, false, m⟩) rfl rfl es
    rcases hrun with h | ⟨-, -, hu, hu'⟩
    · exact h
    · cases hu.symm.trans hu'
  · intro s v
    have hrefine := Options.refine_uniqueKeys s m
    have hrun : build ⟨true, s, m⟩ es = build ⟨false, s, m⟩ es ∨
        build ⟨true, s, m⟩ es = .error .duplicateKey ∧
          (empty ⟨false, s, m⟩).ClosesRepeated (es.flatMap Event.unfolded) := by
      refine (run_follows hrefine (b := empty ⟨false, s, m⟩) rfl rfl es).imp ?_ ?_
      · intro h
        exact h.trans (by unfold build; cases run _ none es <;> rfl)
      · rintro ⟨h, hr, -⟩
        exact ⟨h, hr⟩
    refine ⟨?_, ?_⟩
    · intro hon
      rcases hrun with h | ⟨h, -⟩
      · exact h.symm.trans hon
      · cases hon.symm.trans h
    · intro hoff
      refine ⟨hrun.imp (fun h => h.trans hoff) And.left, ?_, ?_⟩
      · intro hon
        rcases hrun with h | ⟨-, hr⟩
        · cases hon.symm.trans (h.trans hoff)
        · exact hr
      · intro hr
        rcases hrun with h | ⟨h, -⟩
        · have hunfolded := run_unfolded (b := empty ⟨true, s, m⟩) rfl (h.trans hoff)
          have hrefused := run_of_closesRepeated hrefine (b := empty ⟨false, s, m⟩) rfl rfl rfl hr
          cases hunfolded.symm.trans hrefused
        · exact h

/-- The object with the repeated key is itself replaced by a null value, which is dropped. -/
theorem options_independent_replaced :
    let es : List Event := [.beginObject 0, .key [97],
      .value (.object [([98], .null), ([98], .bool true)]), .key [97], .value .null, .endObject]
    build ⟨false, false, 2⟩ es = .ok (.object [([97], .null)]) ∧
      build ⟨false, true, 2⟩ es = .ok (.object []) ∧
      build ⟨true, true, 2⟩ es = .error .duplicateKey := by
  intro es
  obtain ⟨hnulls, hkeys⟩ := options_independent es 2
  have hoff : build ⟨false, false, 2⟩ es = .ok (.object [([97], .null)]) := by cbv
  have hdropped : build ⟨false, true, 2⟩ es = .ok (.object []) := by
    rw [hnulls, hoff]
    rfl
  have hcloses : (empty ⟨false, true, 2⟩).ClosesRepeated (es.flatMap Event.unfolded) :=
    .later rfl <| .later rfl <| .later rfl <| .later rfl <| .later rfl <| .later rfl <|
      .later rfl <| .now rfl (by decide)
  exact ⟨hoff, hdropped, ((hkeys true _).2 hdropped).2.mpr hcloses⟩

end Builder

end PackedTree
