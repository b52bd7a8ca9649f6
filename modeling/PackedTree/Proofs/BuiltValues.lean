import PackedTree.Proofs.BuilderFeeding
import PackedTree.Proofs.PackingSize

/-! # What a builder yields packs

An event may carry a whole member, as a tree or packed.  Where a builder takes it, it takes the
events of the member one by one just as well (`run_unfolded`), so any value that is built is what
some tree amounts to (`told_of_build`).  The limits under which that tree was told are those of the
assembler or narrower, and they still hold when repeated keys and null values are gone
(`Buildable.settled`).

`pack_of_build` draws the conclusion: packing what was built fails only for its size or for a number
that cannot be stored, and otherwise it gives a container that can be read to its end and has as
many members. -/

namespace PackedTree

/-- The events of the member that an event carries, or the event itself. -/
def Event.unfolded : Event → List Event
  | .elem v => (v.trace .elem).events
  | .value v => (v.trace .value).events
  | e => [e]

theorem Event.isSimple_unfolded (e : Event) : ∀ d ∈ e.unfolded, d.isSimple = true := by
  cases e with
  | elem v => exact (v.nests_trace .elem).isSimple
  | value v => exact (v.nests_trace .value).isSimple
  | _ => exact List.forall_mem_singleton.mpr rfl

namespace Builder

variable {o : Options} {b b' : Builder} {e : Event} {r : Option Value} {v : Value}

/-! ### A value is finished when the builder is complete -/

theorem complete_of_store (hc : b.complete = false) (h : b.store v = (.ok r, b')) :
    b'.complete = r.isSome := by
  have hplaces := b.store_places v
  rw [h] at hplaces
  cases hplaces with
  | finished => rfl
  | elem | value => exact hc

theorem complete_of_step (hc : b.complete = false) (he : e.isSimple = true)
    (h : b.step e = (.ok r, b')) : b'.complete = r.isSome := by
  have hmoves := step_moves (b := b) he
  rw [h] at hmoves
  generalize hx : ((.ok r, b') : Outcome) = x at hmoves
  cases hmoves with
  | refused => cases hx
  | beginArray | beginObject | key => cases hx; exact hc
  | elem | value => exact complete_of_store hc hx.symm
  | @endArray _ _ frames | @endObject _ frames =>
      have hc : ({ b with frames := frames } : Builder).complete = false := hc
      exact complete_of_store hc hx.symm
  | repeatedKey => cases hx

/-! ### Whole members are told -/

/-- A member that is taken is a run of pushes over its events, and it finishes nothing. -/
theorem pushes_of_member {slot : Slot} (hc : b.complete = false)
    (h : b.member slot v = (.ok r, b')) :
    r = none ∧ b'.complete = false ∧ Pushes b (v.trace slot).events b' := by
  have hn := v.nests_trace slot
  have key (hpos : 0 < b.depth) (h : b.feed none (v.trace slot) = (.ok r, b')) :
      r = none ∧ b'.complete = false ∧ Pushes b (v.trace slot).events b' := by
    obtain ⟨hnone, hc'⟩ := none_of_feed hn hc hpos h
    exact ⟨hnone, hc', (pushes_of_feed hn hc hpos h).2⟩
  unfold member at h
  split at h
  · next hb => exact key (by rw [depth, hb]; exact Nat.succ_pos _) h
  · next hb => exact key (by rw [depth, hb]; exact Nat.succ_pos _) h
  · cases h
  · cases h

/-- An event that finishes nothing leads to where its unfolded events lead. -/
theorem pushes_unfolded (hc : b.complete = false) (h : b.push e = (.ok none, b')) :
    b'.complete = false ∧ Pushes b e.unfolded b' := by
  cases e with
  | elem v | value v =>
      rw [push, hc] at h
      exact (pushes_of_member hc h).2
  | _ =>
      have hstep := (push_simple hc rfl).symm.trans h
      exact ⟨complete_of_step hc rfl hstep, .cons h .nil⟩

theorem unfolded_of_finished (hc : b.complete = false) (h : b.push e = (.ok (some v), b')) :
    b'.complete = true ∧ e.unfolded = [e] := by
  cases e with
  | elem w | value w =>
      rw [push, hc] at h
      cases (pushes_of_member hc h).1
  | _ =>
      have hstep := (push_simple hc rfl).symm.trans h
      exact ⟨complete_of_step hc rfl hstep, rfl⟩

theorem run_unfolded {es : List Event} (hc : b.complete = false) (h : b.run none es = .ok v) :
    b.run none (es.flatMap Event.unfolded) = .ok v := by
  induction es generalizing b with
  | nil => cases h
  | cons e es ih =>
      rw [run_none_cons] at h
      rw [List.flatMap_cons]
      cases hpush : b.push e with
      | mk x b' =>
          rw [hpush] at h
          rcases x with f | _ | w
          · cases h
          · obtain ⟨hc', hp⟩ := pushes_unfolded hc hpush
            exact hp.run_append.trans (ih hc' h)
          · obtain ⟨hc', hu⟩ := unfolded_of_finished hc hpush
            obtain ⟨hw, hes⟩ := (run_complete_eq_ok_iff hc').mp h
            rw [hu, List.singleton_append, run_none_cons, hpush]
            refine (run_complete_eq_ok_iff hc').mpr ⟨hw, ?_⟩
            rcases hes with rfl | hdone
            · exact .inl rfl
            · obtain ⟨es, rfl⟩ := List.head?_eq_some_iff.mp hdone
              exact .inr rfl

/-- Whatever the events carry, a value that is built is what some tree that may be told amounts
to. -/
theorem told_of_build {es : List Event} (h : build o es = .ok v) :
    ∃ t : Value, t.BuildableRoot o ∧ v = t.settled o := by
  have hrun := run_unfolded (b := opened o []) rfl h
  have hsimple : ∀ d ∈ es.flatMap Event.unfolded, d.isSimple = true := fun d hd => by
    obtain ⟨e, -, hd⟩ := List.mem_flatMap.mp hd
    exact e.isSimple_unfolded d hd
  obtain ⟨t, -, -, -, -, -, ht, rfl⟩ := told_of_run .nothing hsimple hrun
  exact ⟨t, ht, rfl⟩

end Builder

namespace Value

variable {o : Options} {v : Value}

/-! ### What a tree amounts to stays within the limits -/

/-- What a member amounts to is canonical and may be told in the same place, without any options. -/
theorem Buildable.settled {level : Nat} (h : v.Buildable o level) :
    (v.settled o).IsCanonical ∧ (v.settled o).Buildable {} level := by
  have hmax : min o.maxChildren maxChildren ≤ min ({} : Options).maxChildren maxChildren :=
    Nat.le_min.mpr ⟨Nat.min_le_right _ _, Nat.min_le_right _ _⟩
  induction h with
  | scalar hv =>
      rw [settled_of_isScalar o hv]
      exact ⟨.scalar hv, .scalar hv⟩
  | array hd hn he ih =>
      rw [settled_array]
      refine ⟨.array (List.forall_mem_map.mpr fun v hv => (ih v hv).1), .array hd ?_
        (List.forall_mem_map.mpr fun v hv => (ih v hv).2)⟩
      rw [List.length_map]
      exact hn.trans hmax
  | @object level pairs hd hn hu hp ih =>
      have hmem : ∀ p ∈ staying o (pairs.map fun p => (p.1, p.2.settled o)),
          p.2.IsCanonical ∧ p.2.Buildable {} (level + 1) := fun p hp => by
        obtain ⟨q, hq, rfl⟩ := List.mem_map.mp (mem_of_mem_staying hp)
        exact ih q hq
      have hlen := length_staying_le (o := o) (pairs.map fun p => (p.1, p.2.settled o))
      rw [List.length_map] at hlen
      rw [settled_object]
      exact ⟨.object (ascending_staying _) fun p hp => (hmem p hp).1,
        .object hd (hlen.trans (hn.trans hmax)) nofun fun p hp => (hmem p hp).2⟩

theorem isScalar_settled (o : Options) (v : Value) : (v.settled o).isScalar = v.isScalar := by
  cases v <;> simp only [Value.settled] <;> rfl

theorem BuildableRoot.settled (h : v.BuildableRoot o) :
    (v.settled o).IsCanonicalRoot ∧ (v.settled o).BuildableRoot {} := by
  cases h with
  | @raw v hv hn =>
      rw [settled_array, List.map_singleton, settled_of_isScalar o hv]
      exact ⟨⟨v, rfl, hv⟩, .raw hv (by decide)⟩
  | container hv h =>
      obtain ⟨hc, hb⟩ := h.settled
      rw [← isScalar_settled o v] at hv
      exact ⟨hc.root hv, .container hv hb⟩

/-! ### Packing it -/

def width : Value → Nat
  | .array _ elems => elems.length
  | .object pairs => pairs.length
  | .binary c => c.len
  | _ => 0

theorem len_of_pack {c : Container} (hc : v.IsCanonicalRoot) (h : v.pack = .ok c) :
    c.len = v.width := by
  obtain ⟨w, rfl, hw⟩ | ⟨hv, hc⟩ := hc.wrapped_or
  · rw [pack, if_pos (holdsScalar_of_isScalar hw)] at h
    exact c.header.len_raw (Container.packRaw_spec h).1
  · cases hc with
    | scalar hs => cases hv.symm.trans hs
    | array he =>
        rw [pack, elemPieces_eq_map] at h
        rw [(Container.packArray_spec h).2.2.2.1, List.length_map]
        rfl
    | @object pairs ha hp =>
        rw [pack, pairPieces_eq_map] at h
        rw [(Container.packObject_spec h).2.2.2.1, canonical_map fun v => v.piece 1,
          List.length_map, kept_of_ascending ha]
        rfl

theorem validate_of_pack {c : Container} (hv : v.isTree = true) (h : v.pack = .ok c) :
    c.validate = .ok () := by
  unfold Container.validate
  rw [trace_of_pack hv h, (finishes_of_pack hv h).fault?]

end Value

/-- A value that was built, under any options and from any events, packs unless it becomes too large
or a number in it has a scale that cannot be stored.  If it packs, no number in it has such a scale,
and what it packs to validates and has as many members. -/
theorem Builder.pack_of_build {o : Options} {es : List Event} {v : Value}
    (h : build o es = .ok v) :
    (∀ f, v.pack = .error f → f.isSize = true ∨ f = .invalidNumber ∧
      ∃ d : Decimal, (Value.number d).Occurs v ∧
        (d.scale.toInt < -Decimal.maxScale ∨ Decimal.maxScale < d.scale.toInt)) ∧
    (v.Storable → v.bulk ≤ maxField → ∃ c, v.pack = .ok c) ∧
    ∀ c, v.pack = .ok c → v.Storable ∧ c.validate = .ok () ∧ c.len = v.width := by
  obtain ⟨t, ht, rfl⟩ := told_of_build h
  obtain ⟨hcanon, hroot⟩ := ht.settled
  refine ⟨fun f hf => ?_, fun hs => Value.exists_pack ⟨hcanon, hroot, hs⟩, fun c hc => ?_⟩
  · refine (Value.pack_error hroot hf).imp_right ?_
    rintro ⟨rfl, d, hd, hscale⟩
    refine ⟨rfl, d, hd, ?_⟩
    rw [Decimal.storable, Bool.and_eq_false_iff, decide_eq_false_iff_not,
      decide_eq_false_iff_not] at hscale
    omega
  · exact ⟨Value.storable_of_pack hcanon hc, Value.validate_of_pack hcanon.isTree hc,
      Value.len_of_pack hcanon hc⟩

/-- A packed array and a tree with a raw wrapper in it, under a repeated key and narrow options. -/
theorem Builder.pack_of_build_mixed :
    ∃ n v c, (Value.array false [.bool true]).pack = .ok n ∧
      build { skipNulls := true, maxChildren := 3 } [.beginObject 9, .key [98], .value (.binary n),
        .key [97], .value (.object [([98], .null), ([97], .array true [.number ⟨15, 1⟩])]),
        .key [98], .value (.bool false), .endObject] = .ok v ∧
      v.pack = .ok c ∧ c.validate = .ok () ∧ c.len = 2 := by
  let n : Container := ⟨⟨.array, 1, by decide, by decide⟩, [2952790016], [], rfl⟩
  have hn : (Value.array false [.bool true]).pack = .ok n := by cbv
  have hv : build { skipNulls := true, maxChildren := 3 } [.beginObject 9, .key [98],
      .value (.binary n), .key [97],
      .value (.object [([98], .null), ([97], .array true [.number ⟨15, 1⟩])]),
      .key [98], .value (.bool false), .endObject] =
        .ok (.object [([97], .object [([97], .number ⟨15, 1⟩)]), ([98], .bool false)]) := by
    cbv
  have hs : (Value.object
      [([97], .object [([97], .number ⟨15, 1⟩)]), ([98], .bool false)]).Storable := by
    refine .object ?_
    rintro p (_ | ⟨_, _ | ⟨_, ⟨⟩⟩⟩)
    · exact .object (List.forall_mem_singleton.mpr (.scalar rfl rfl))
    · exact .scalar rfl rfl
  obtain ⟨-, hpacks, hpacked⟩ := pack_of_build hv
  have hbulk : (Value.object
      [([97], .object [([97], .number ⟨15, 1⟩)]), ([98], .bool false)]).bulk = 62 := by cbv
  obtain ⟨c, hc⟩ := hpacks hs (hbulk ▸ by decide)
  obtain ⟨-, hvalid, hlen⟩ := hpacked c hc
  exact ⟨n, _, c, hn, hv, hc, hvalid, hlen⟩

end PackedTree
