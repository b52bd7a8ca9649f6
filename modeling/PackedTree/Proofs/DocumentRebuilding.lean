import PackedTree.Proofs.DocumentReading
import PackedTree.Proofs.DocumentRoundTrip
import PackedTree.Proofs.NumeralRereading
import PackedTree.Proofs.PackedWeight

/-! # A document that came out of a container is built again

What a container tells is the document that it was built of, revised: its numbers are spelled anew,
and null members may be gone.  Revising it once more changes nothing (`revised_revised`), and
building it gives the value that was stored, up to the scale of its numbers
(`exists_rebuilt`, `exists_rebuiltRoot`), whatever options the first value was built with.

The members of an object are told in the order of their keys and put into the order of their names;
built again, they end up in the order of their keys, and since no key repeats the order in between
does not matter (`staying_of_perm`). -/

namespace PackedTree

namespace Value

theorem staying_of_perm {ps qs : List (Bytes × Value)} (ha : Keyed.Ascending Bytes.keyCompare ps)
    (hperm : qs.Perm ps) : staying {} qs = ps := by
  have hn := Keyed.nodup_keys Bytes.keyCompare ha
  have hstay := perm_staying (o := {}) ((hperm.map Prod.fst).nodup_iff.mpr hn)
  have hall : (qs.filter fun p => !false || p.2 ≠ .null) = qs :=
    List.filter_eq_self.mpr fun _ _ => rfl
  rw [hall] at hstay
  refine Keyed.eq_of_ascending Bytes.keyCompare (ascending_staying qs) ha fun p => ?_
  rw [hstay.mem_iff, hperm.mem_iff]

theorem keys_of_samePairs {ps qs : List (Bytes × Value)} (h : samePairs ps qs = true) :
    ps.map Prod.fst = qs.map Prod.fst := by
  induction ps generalizing qs with
  | nil =>
      cases qs with
      | nil => rfl
      | cons q qs => cases h
  | cons p ps ih =>
      cases qs with
      | nil => cases h
      | cons q qs =>
          obtain ⟨k, v⟩ := p
          obtain ⟨l, w⟩ := q
          rw [samePairs, Bool.and_eq_true, Bool.and_eq_true, beq_iff_eq] at h
          rw [List.map_cons, List.map_cons, h.1.1, ih h.2]

end Value

namespace Json

variable {o : Options} {level : Nat} {doc : Json} {v : Value}

/-! ### Numbers -/

/-- A number that was read is read again from its new spelling, with the same value, and keeps that
spelling. -/
theorem exists_read_respelled {n : Numeral} {d : Decimal} (h : Decimal.read n.text = .ok d) :
    ∃ e, Decimal.read (respelled n).text = .ok e ∧ e.value = d.value ∧
      e.bytes.length ≤ d.bytes.length + 7 ∧ respelled (respelled n) = respelled n := by
  obtain ⟨m, hm, -⟩ := d.exists_numeral
  have hread := Decimal.read_of_chars (Decimal.value_of_read h).2 hm
  have hfirst : respelled n = m := by simp only [respelled, h, hm, Option.getD_some]
  have hsecond : respelled m = m := by
    simp only [respelled, hread, Decimal.chars_spelledOut, hm, Option.getD_some]
  rw [hfirst]
  exact ⟨_, hread, d.value_spelledOut, d.length_bytes_spelledOut_le, hsecond⟩

/-! ### Revising twice -/

theorem isScalar_revised (skip : Bool) (respell : Numeral → Numeral) (doc : Json) :
    (doc.revised skip respell).isScalar = doc.isScalar := by
  cases doc with
  | array items => rw [revised_array]; rfl
  | object members => rw [revised_object]; rfl
  | number n => rw [revised]; rfl
  | _ => rw [revised]

theorem ordered_revised (skip : Bool) (respell : Numeral → Numeral) (doc : Json) :
    (doc.revised skip respell).Ordered := by
  induction doc using induction_on_members with
  | null | bool | number | string =>
      exact ordered_of_isScalar ((isScalar_revised skip respell _).trans rfl)
  | array items ih =>
      rw [revised_array]
      exact ordered_array (List.forall_mem_map.mpr ih)
  | object members ih =>
      rw [revised_object]
      refine ordered_ofMembers (List.forall_mem_map.mpr fun m hm => ?_)
      exact ih m (List.mem_filter.mp hm).1

theorem depth_revised_le (skip : Bool) (respell : Numeral → Numeral) (doc : Json) :
    (doc.revised skip respell).depth ≤ doc.depth := by
  induction doc using induction_on_members with
  | null | bool | number | string =>
      rw [depth_of_isScalar ((isScalar_revised skip respell _).trans rfl)]
      exact Nat.zero_le _
  | array items ih =>
      rw [revised_array, depth, depth]
      refine Nat.succ_le_succ (depthItems_le_iff.mpr (List.forall_mem_map.mpr fun v hv => ?_))
      exact (ih v hv).trans (depthItems_le_iff.mp le_rfl v hv)
  | object members ih =>
      rw [revised_object, depth, depthMembers_eq]
      refine depth_ofMembers_le (List.forall_mem_map.mpr fun m hm => ?_)
      have hm := (List.mem_filter.mp hm).1
      exact (ih m hm).trans (depthItems_le_iff.mp le_rfl m.2 (List.mem_map_of_mem hm))

theorem revised_ofMembers {respell : Numeral → Numeral} {members : List (String × Json)}
    (h : ∀ m ∈ members, m.2.revised false respell = m.2) :
    (ofMembers members).revised false respell = ofMembers members := by
  have hkept : (Keyed.canonical nameCompare members).filter (fun m => m.2.stays false) =
      Keyed.canonical nameCompare members :=
    List.filter_eq_self.mpr fun _ _ => rfl
  have hsame : (Keyed.canonical nameCompare members).map (fun m =>
      (m.1, m.2.revised false respell)) = Keyed.canonical nameCompare members := by
    refine (List.map_congr_left fun m hm => ?_).trans (List.map_id _)
    rw [h m (Keyed.mem_of_mem_canonical nameCompare hm)]
    rfl
  rw [ofMembers, revised_object, hkept, hsame,
    ofMembers_of_ascending (Keyed.ascending_canonical nameCompare members)]

theorem revised_revised (h : doc.built o level = .ok v) (skip : Bool) :
    (doc.revised skip respelled).revised false respelled = doc.revised skip respelled := by
  induction doc using induction_on_members generalizing level v with
  | null | bool | string => rw [revised, revised]
  | number n =>
      rw [built] at h
      split at h
      · next d hd =>
          obtain ⟨-, -, -, -, hsettled⟩ := exists_read_respelled hd
          rw [revised, revised, hsettled]
      · cases h
  | array items ih =>
      obtain ⟨-, -, ws, hws, -⟩ := built_array_eq_ok_iff.mp h
      have hbuilt := exists_forall₂_iff.mp ⟨ws, hws⟩
      rw [revised_array, revised_array, List.map_map]
      refine congrArg Json.array (List.map_congr_left fun v hv => ?_)
      obtain ⟨w, hw⟩ := hbuilt v hv
      exact ih v hv hw
  | object members ih =>
      obtain ⟨-, -, ps, hps, -⟩ := built_object_eq_ok_iff.mp h
      have hbuilt := exists_forall₂_iff.mp ⟨ps, hps⟩
      rw [revised_object]
      refine revised_ofMembers (List.forall_mem_map.mpr fun m hm => ?_)
      have hm := (List.mem_filter.mp hm).1
      obtain ⟨p, hp⟩ := hbuilt m hm
      exact ih m hm hp.2

/-! ### Building again -/

/-- The same value, not much larger. -/
structure Renews (v w : Value) : Prop where
  same : v.same w = true
  bulk_le : w.bulk ≤ 2 * v.weight

/-- Built again with no option set, what became of a document is the same value as before. -/
def Rebuilds (o : Options) (level : Nat) (doc : Json) (v : Value) : Prop :=
  ∃ w, (doc.revised o.skipNulls respelled).built {} level = .ok w ∧ Renews v w

theorem rebuilds_of_isScalar (hd : doc.isScalar = true) (h : doc.built o level = .ok v) :
    Rebuilds o level doc v := by
  unfold Rebuilds
  cases doc with
  | null =>
      rw [built] at h
      cases h
      refine ⟨.null, by rw [revised, built], by rw [Value.same], ?_⟩
      rw [Value.bulk]
      exact Nat.zero_le _
  | bool b =>
      rw [built] at h
      cases h
      refine ⟨.bool b, by rw [revised, built], by rw [Value.same, beq_self_eq_true], ?_⟩
      rw [Value.bulk]
      exact Nat.zero_le _
  | string s =>
      rw [built] at h
      cases h
      refine ⟨.string (Bytes.ofText s), by rw [revised, built], by
        rw [Value.same, beq_self_eq_true], ?_⟩
      rw [Value.bulk, Value.weight]
      omega
  | number n =>
      rw [built] at h
      split at h
      · next d hd =>
          cases h
          obtain ⟨e, he, hvalue, hbytes, -⟩ := exists_read_respelled hd
          refine ⟨.number e, by rw [revised, built, he], ?_, ?_⟩
          · rw [Value.same, beq_iff_eq, Decimal.compare_eq_value, hvalue]
            exact Std.ReflCmp.compare_self
          · have hlen := d.length_bytes
            rw [Value.bulk, Value.weight]
            omega
      · cases h
  | array | object => cases hd

theorem exists_rebuilt_items {items : List Json} {ws : List Value}
    (h : List.Forall₂ (Rebuilds o level) items ws) :
    ∃ us, List.Forall₂ (fun v u => v.built {} level = .ok u)
        (items.map (revised o.skipNulls respelled)) us ∧
      Value.sameElems ws us = true ∧ Value.bulkElems us ≤ 2 * Value.weightElems ws := by
  induction h with
  | nil => exact ⟨[], .nil, by rw [Value.sameElems], Nat.zero_le _⟩
  | cons hv _ ih =>
      obtain ⟨u, hu, hsame, hbulk⟩ := hv
      obtain ⟨us, hus, hsames, hbulks⟩ := ih
      refine ⟨u :: us, .cons hu hus, ?_, ?_⟩
      · rw [Value.sameElems, hsame, hsames]
        rfl
      · rw [Value.bulkElems, Value.weightElems]
        omega

theorem exists_rebuilt_members {members : List (String × Json)} {ps : List (Bytes × Value)}
    (h : List.Forall₂ (fun m p => p.1 = Bytes.ofText m.1 ∧ Rebuilds o level m.2 p.2) members ps) :
    ∃ qs, List.Forall₂ (Builds {} level)
        (members.map fun m => (m.1, m.2.revised o.skipNulls respelled)) qs ∧
      Value.samePairs ps qs = true ∧ Value.bulkPairs qs ≤ 2 * Value.weightPairs ps := by
  induction h with
  | nil => exact ⟨[], .nil, by rw [Value.samePairs], Nat.zero_le _⟩
  | @cons m p ms ps hp _ ih =>
      obtain ⟨k, v⟩ := p
      obtain ⟨rfl, u, hu, hsame, hbulk⟩ := hp
      obtain ⟨qs, hqs, hsames, hbulks⟩ := ih
      have hsame : v.same u = true := hsame
      have hbulk : u.bulk ≤ 2 * v.weight := hbulk
      refine ⟨(Bytes.ofText m.1, u) :: qs, .cons ⟨rfl, hu⟩ hqs, ?_, ?_⟩
      · rw [Value.samePairs, hsame, hsames, beq_self_eq_true]
        rfl
      · rw [Value.bulkPairs, Value.weightPairs]
        omega

/-- Members with different names that build ascending pairs make up an object that builds them. -/
theorem built_ofMembers {members : List (String × Json)} {pairs : List (Bytes × Value)}
    (hd : level < maxDepth) (hlen : members.length ≤ ({} : Options).limit)
    (hn : (members.map Prod.fst).Nodup) (h : List.Forall₂ (Builds {} (level + 1)) members pairs)
    (ha : Keyed.Ascending Bytes.keyCompare pairs) :
    (ofMembers members).built {} level = .ok (.object pairs) := by
  have hperm : (Keyed.canonical nameCompare members).Perm members :=
    Keyed.perm_canonical (fun _ _ => eq_of_nameCompare) hn
  obtain ⟨qs, hqs, hqsperm⟩ := List.perm_comp_forall₂ hperm h
  refine built_object_eq_ok_iff.mpr ⟨hd, ?_, qs, hqs, fun hu => (by cases hu), ?_⟩
  · rwa [hperm.length_eq]
  · rw [Value.staying_of_perm ha hqsperm]

/-- What a document was built to is built of the revised document too. -/
theorem exists_rebuilt (hn : doc.NamesUnique) (h : doc.built o level = .ok v) :
    Rebuilds o level doc v := by
  have hmax : o.limit ≤ ({} : Options).limit := Nat.le_min.mpr
    ⟨Nat.min_le_right _ _, Nat.min_le_right _ _⟩
  induction doc using induction_on_members generalizing level v with
  | null | bool | number | string => exact rebuilds_of_isScalar rfl h
  | array items ih =>
      obtain ⟨hd, hlen, ws, hws, rfl⟩ := built_array_eq_ok_iff.mp h
      obtain ⟨us, hus, hsame, hbulk⟩ := exists_rebuilt_items
        (forall₂_of_mem hws fun v hv w hw => ih v hv (hn.inner hv) hw)
      refine ⟨.array false us, ?_, ?_, ?_⟩
      · rw [revised_array]
        refine built_array_eq_ok_iff.mpr ⟨hd, ?_, us, hus, rfl⟩
        rw [List.length_map]
        exact hlen.trans hmax
      · rw [Value.same, hsame]
        rfl
      · rw [Value.bulk, Value.weight]
        omega
  | object members ih =>
      obtain ⟨hd, hlen, ps, hps, -, rfl⟩ := built_object_eq_ok_iff.mp h
      obtain ⟨ms, hperm, hms⟩ := exists_perm_of_builds hps hn.names
      have hmem : ∀ m ∈ ms, m ∈ members := fun m hm =>
        (List.mem_filter.mp (hperm.mem_iff.mp hm)).1
      obtain ⟨qs, hqs, hsame, hbulk⟩ := exists_rebuilt_members
        (forall₂_of_mem hms fun m hm p hp =>
          ⟨hp.1, ih m (hmem m hm) (hn.inner (List.mem_map_of_mem (hmem m hm))) hp.2⟩)
      have hnames := nodup_names_of_perm hn.names hperm (revised o.skipNulls respelled)
      have hasc : Keyed.Ascending Bytes.keyCompare qs := by
        rw [Keyed.ascending_iff_keys, ← Value.keys_of_samePairs hsame, ← Keyed.ascending_iff_keys]
        exact Value.ascending_staying ps
      refine ⟨.object qs, ?_, ?_, ?_⟩
      · rw [revised_object, ← ofMembers_eq_of_perm hnames (hperm.map _)]
        refine built_ofMembers hd ?_ hnames hqs hasc
        rw [List.length_map, hperm.length_eq]
        exact (List.length_filter_le _ members).trans (hlen.trans hmax)
      · rw [Value.same, hsame]
      · rw [Value.bulk, Value.weight]
        omega

/-- What a whole document was built to is built of the revised document too. -/
theorem exists_rebuiltRoot (hn : doc.NamesUnique) (h : doc.builtRoot o = .ok v) :
    ∃ w, (doc.revised o.skipNulls respelled).builtRoot {} = .ok w ∧ Renews v w := by
  unfold builtRoot at h ⊢
  rw [isScalar_revised]
  split at h
  · next hd =>
      obtain ⟨u, hu, h⟩ := ok_of_bind_ok h
      split at h
      · cases h
      · cases h
        obtain ⟨w, hw, hsame, hbulk⟩ := exists_rebuilt hn hu
        refine ⟨.array true [w], ?_, ?_, ?_⟩
        · rw [if_pos hd, hw]
          rfl
        · rw [Value.same, Value.sameElems, Value.sameElems, hsame]
          rfl
        · rw [Value.bulk, Value.bulkElems, Value.bulkElems, Value.weight, Value.weightElems,
            Value.weightElems]
          omega
  · next hd =>
      rw [if_neg hd]
      exact exists_rebuilt hn h

theorem revised_revised_of_builtRoot (h : doc.builtRoot o = .ok v) (skip : Bool) :
    (doc.revised skip respelled).revised false respelled = doc.revised skip respelled := by
  unfold builtRoot at h
  split at h
  · obtain ⟨u, hu, -⟩ := ok_of_bind_ok h
    exact revised_revised hu skip
  · exact revised_revised h skip

end Json

end PackedTree
