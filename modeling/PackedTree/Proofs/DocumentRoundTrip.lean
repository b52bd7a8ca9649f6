import PackedTree.Proofs.DocumentBuilding
import PackedTree.Proofs.PackingSize
import PackedTree.Proofs.ValidatedExport
import Mathlib.Data.Fin.Basic
import Mathlib.Data.List.Perm.Basic

/-! # Documents come back from their containers

What a document was built to is put together again to the document with its numbers spelled anew and
without the null members that were dropped (`exports_of_built`).  On the way the members of an
object are brought in order twice, by the bytes of their keys and by the characters of their names;
since no name repeats, only the order changes (`exists_perm_of_builds`).

`pack_round_trip` is the result for whole documents: when they are packed, and what the container
tells. -/

namespace PackedTree.Json

variable {o : Options} {level : Nat} {doc : Json} {v : Value} {slot : Slot} {below : List Open}

/-! ### Scalars -/

/-- The spelling in which a number comes back. -/
def respelled (n : Numeral) : Numeral :=
  match Decimal.read n.text with
  | .ok d => (Numeral.ofChars? d.chars).getD n
  | .error _ => n

theorem ofScalar_number {n : Numeral} {d : Decimal} (h : Decimal.read n.text = .ok d) :
    ofScalar (.number d) = .ok (.number (respelled n)) ∧ (respelled n).value = n.value := by
  obtain ⟨m, hm, hvalue⟩ := d.exists_numeral
  have hrespelled : respelled n = m := by
    unfold respelled
    simp only [h, hm, Option.getD_some]
  rw [hrespelled]
  constructor
  · simp only [ofScalar, hm]
  · exact hvalue.trans (Decimal.value_of_read h).1

theorem textOf_ofText (s : String) : textOf (Bytes.ofText s) = .ok s := by
  unfold textOf
  rw [Bytes.toText?_ofText]

theorem ofScalar_of_built (hd : doc.isScalar = true) (h : doc.built o level = .ok v) (skip : Bool) :
    ofScalar v = .ok (doc.revised skip respelled) := by
  cases doc with
  | null => rw [built] at h; cases h; rw [revised]; rfl
  | bool b => rw [built] at h; cases h; rw [revised]; rfl
  | string s =>
      rw [built] at h
      cases h
      rw [revised, ofScalar, textOf_ofText]
      rfl
  | number n =>
      rw [built] at h
      split at h
      · next d hd =>
          cases h
          rw [revised, (ofScalar_number hd).1]
      · cases h
  | array | object => cases hd

/-! ### Members -/

/-- Put together behind open documents, a value closes the document that it was built of. -/
def Exports (o : Options) (level : Nat) (doc : Json) (v : Value) : Prop :=
  ∀ {slot : Slot} {below : List Open} (rest : Trace), Waits slot below →
    (doc.isScalar = true → below ≠ []) → below.length ≤ level →
    gather below ((v.trace slot).append rest) =
      resume rest (close (doc.revised o.skipNulls respelled) below)

theorem exports_of_isScalar (hd : doc.isScalar = true) (h : doc.built o level = .ok v) :
    Exports o level doc v := by
  intro slot below rest hw hroot _
  obtain ⟨hv, -⟩ := storable_of_built hd h
  have hscalar := ofScalar_of_built hd h o.skipNulls
  rw [Value.trace_of_isScalar hv, Trace.append, Trace.append, gather_next]
  cases hw with
  | root => exact absurd rfl (hroot hd)
  | elem => simp only [take, Slot.event, hscalar]; rfl
  | value => simp only [take, Slot.event, hscalar]; rfl

theorem gather_elems {items : List Json} {ws : List Value}
    (h : List.Forall₂ (Exports o (level + 1)) items ws) (hl : below.length ≤ level)
    (done : List Json) (rest : Trace) :
    gather (.array done :: below) ((Value.traceElems ws).append (.next .endArray rest)) =
      resume rest (close (.array (done.reverse ++ items.map (revised o.skipNulls respelled)))
        below) := by
  induction h generalizing done with
  | nil =>
      rw [Value.traceElems, Trace.append, gather_next, List.map_nil, List.append_nil]
      rfl
  | @cons v w vs ws hv _ ih =>
      rw [Value.traceElems, Trace.append_assoc,
        hv _ .elem (fun _ => List.cons_ne_nil _ _) (Nat.succ_le_succ hl)]
      refine (ih (v.revised o.skipNulls respelled :: done)).trans ?_
      rw [List.reverse_cons, List.append_assoc, List.singleton_append, List.map_cons]

theorem gather_pairs {members : List (String × Json)} {ps : List (Bytes × Value)}
    (h : List.Forall₂ (fun m p => p.1 = Bytes.ofText m.1 ∧ Exports o (level + 1) m.2 p.2)
      members ps) (hl : below.length ≤ level) (done : List (String × Json)) (rest : Trace) :
    gather (.object done none :: below) ((Value.tracePairs ps).append (.next .endObject rest)) =
      resume rest (close (ofMembers (done.reverse ++ members.map fun m =>
        (m.1, m.2.revised o.skipNulls respelled))) below) := by
  induction h generalizing done with
  | nil =>
      rw [Value.tracePairs, Trace.append, gather_next, List.map_nil, List.append_nil]
      rfl
  | @cons m p ms ps hp _ ih =>
      obtain ⟨k, v⟩ := p
      obtain ⟨rfl, hv⟩ := hp
      rw [Value.tracePairs, Trace.append, gather_next, Trace.append_assoc]
      simp only [take, textOf_ofText]
      show gather (.object done (some m.1) :: below) _ = _
      rw [hv _ .value (fun _ => List.cons_ne_nil _ _) (Nat.succ_le_succ hl)]
      refine (ih ((m.1, m.2.revised o.skipNulls respelled) :: done)).trans ?_
      rw [List.reverse_cons, List.append_assoc, List.singleton_append, List.map_cons]

/-! ### Objects -/

theorem stays_iff_ne_null {m : String × Json} {p : Bytes × Value} (h : Builds o level m p) :
    m.2.stays true = true ↔ p.2 ≠ .null := by
  obtain ⟨k, doc⟩ := m
  obtain ⟨l, v⟩ := p
  obtain ⟨-, h⟩ := h
  dsimp only at h ⊢
  cases doc with
  | null | bool | string => rw [built] at h; cases h; simp [stays, isNull]
  | number n =>
      rw [built] at h
      split at h
      · cases h; simp [stays, isNull]
      · cases h
  | array items =>
      obtain ⟨-, -, ws, -, rfl⟩ := built_array_eq_ok_iff.mp h
      simp [stays, isNull]
  | object members =>
      obtain ⟨-, -, ps, -, -, rfl⟩ := built_object_eq_ok_iff.mp h
      simp [stays, isNull]

/-- The pairs that stay in an object are, in some order, built of the members that stay. -/
theorem exists_perm_of_builds {members : List (String × Json)} {ps : List (Bytes × Value)}
    (h : List.Forall₂ (Builds o level) members ps) (hn : (members.map Prod.fst).Nodup) :
    ∃ ms, ms.Perm (members.filter fun m => m.2.stays o.skipNulls) ∧
      List.Forall₂ (Builds o level) ms (Value.staying o ps) := by
  have hstays : ∀ {m p}, Builds o level m p →
      (m.2.stays o.skipNulls = true ↔ (!o.skipNulls || p.2 ≠ .null) = true) := by
    intro m p hp
    cases o.skipNulls with
    | true => simpa using stays_iff_ne_null hp
    | false => simp [stays]
  have hfilter : List.Forall₂ (Builds o level) (members.filter fun m => m.2.stays o.skipNulls)
      (ps.filter fun p => !o.skipNulls || p.2 ≠ .null) :=
    List.rel_filter (fun _ _ hp => hstays hp) h
  have hcomp := List.perm_comp_forall₂ (Value.perm_staying (nodup_of_builds h hn))
    (List.Forall₂.flip (R := flip (Builds o level)) hfilter)
  obtain ⟨ms, hms, hperm⟩ := hcomp
  exact ⟨ms, hperm, hms.flip⟩

/-- The names of members of which some stay are different, whatever becomes of the documents. -/
theorem nodup_names_of_perm {members ms : List (String × Json)} {p : String × Json → Bool}
    (hn : (members.map Prod.fst).Nodup) (hperm : ms.Perm (members.filter p)) (f : Json → Json) :
    ((ms.map fun m => (m.1, f m.2)).map Prod.fst).Nodup := by
  have hsub : ((members.filter p).map Prod.fst).Sublist (members.map Prod.fst) :=
    List.filter_sublist.map Prod.fst
  rw [List.map_map]
  exact (hperm.map Prod.fst).nodup_iff.mpr (hsub.nodup hn)

/-- What a document was built to is put together to the document again. -/
theorem exports_of_built (hn : doc.NamesUnique) (h : doc.built o level = .ok v) :
    Exports o level doc v := by
  induction doc using induction_on_members generalizing level v with
  | null | bool | number | string => exact exports_of_isScalar rfl h
  | array items ih =>
      obtain ⟨hd, -, ws, hws, rfl⟩ := built_array_eq_ok_iff.mp h
      intro slot below rest hw _ hl
      have hexports : List.Forall₂ (Exports o (level + 1)) items ws :=
        forall₂_of_mem hws fun v hv w hw => ih v hv (hn.inner hv) hw
      rw [Value.trace_array, Trace.append, Trace.append_assoc, gather_next, take_beginArray hw,
        if_neg (by omega), revised_array]
      exact gather_elems hexports hl [] rest
  | object members ih =>
      obtain ⟨hd, -, ps, hps, -, rfl⟩ := built_object_eq_ok_iff.mp h
      intro slot below rest hw _ hl
      obtain ⟨ms, hperm, hms⟩ := exists_perm_of_builds hps hn.names
      have hmem : ∀ m ∈ ms, m ∈ members := fun m hm =>
        (List.mem_filter.mp (hperm.mem_iff.mp hm)).1
      have hexports : List.Forall₂ (fun m p => p.1 = Bytes.ofText m.1 ∧
          Exports o (level + 1) m.2 p.2) ms (Value.staying o ps) :=
        forall₂_of_mem hms fun m hm p hp =>
          ⟨hp.1, ih m (hmem m hm) (hn.inner (List.mem_map_of_mem (hmem m hm))) hp.2⟩
      have hnames := nodup_names_of_perm hn.names hperm (revised o.skipNulls respelled)
      rw [Value.trace_object, Trace.append, Trace.append_assoc, gather_next, take_beginObject hw,
        if_neg (by omega), revised_object, ← ofMembers_eq_of_perm hnames (hperm.map _)]
      exact gather_pairs hexports hl [] rest

/-! ### Whole documents -/

/-- A whole document that was built is told back by its container. -/
theorem json_of_builtRoot (hn : doc.NamesUnique) (h : doc.builtRoot o = .ok v) {c : Container}
    (hc : v.pack = .ok c) : c.json = .ok (doc.revised o.skipNulls respelled) := by
  have hroot := packableRoot_of_builtRoot h
  unfold Container.json
  rw [Value.trace_of_pack_canonical hroot.isCanonicalRoot hc]
  unfold builtRoot at h
  split at h
  · next hd =>
      obtain ⟨w, hw, h⟩ := ok_of_bind_ok h
      obtain ⟨hs, -⟩ := storable_of_built hd hw
      split at h
      · cases h
      · cases h
        rw [Value.rootTrace, Value.traceElems, Value.trace_of_isScalar hs]
        exact ofScalar_of_built hd hw o.skipNulls
  · next hd =>
      have hd := (Bool.not_eq_true _).mp hd
      have hgather := exports_of_built hn h .finished .root
        (fun hs => by rw [hd] at hs; cases hs) (Nat.le_refl 0)
      rw [Trace.append_finished] at hgather
      have hroot : ofTrace v.rootTrace = gather [] (v.trace .elem) := by
        cases doc with
        | array items =>
            obtain ⟨-, -, ws, -, rfl⟩ := built_array_eq_ok_iff.mp h
            rw [Value.trace_array]
            rfl
        | object members =>
            obtain ⟨-, -, ps, -, -, rfl⟩ := built_object_eq_ok_iff.mp h
            simp only [Value.rootTrace, Value.trace_object]
            rfl
        | _ => cases hd
      rw [hroot, hgather]
      rfl

/-- A document is built, but what it is built to is refused for its size, and it is large. -/
def TooLarge (o : Options) (doc : Json) : Prop :=
  ∃ v f, doc.value o = .ok v ∧ maxField < v.bulk ∧ doc.pack o = .error f ∧ f.isSize = true

theorem pack_eq (o : Options) (doc : Json) : doc.pack o = doc.builtRoot o >>= Value.pack := by
  rw [← value_eq]
  rfl

/-- A document is packed exactly if it is built, unless it is too large. -/
theorem packed_or_tooLarge_iff :
    ((∃ c, doc.pack o = .ok c) ∨ doc.TooLarge o) ↔ ∃ v, doc.builtRoot o = .ok v := by
  constructor
  · rintro (⟨c, hc⟩ | ⟨v, f, hv, -⟩)
    · rw [pack_eq] at hc
      obtain ⟨v, hv, -⟩ := ok_of_bind_ok hc
      exact ⟨v, hv⟩
    · rw [value_eq] at hv
      exact ⟨v, hv⟩
  · rintro ⟨v, hv⟩
    have hroot := packableRoot_of_builtRoot hv
    have hpack : doc.pack o = v.pack := by
      rw [pack_eq, hv]
      rfl
    cases h : v.pack with
    | ok c => exact .inl ⟨c, hpack.trans h⟩
    | error f =>
        refine .inr ⟨v, f, (value_eq o doc).trans hv, ?_, hpack.trans h,
          Value.isSize_of_pack hroot.buildableRoot hroot.storable h⟩
        by_contra hfit
        obtain ⟨c, hc⟩ := Value.exists_pack hroot (Nat.le_of_not_lt hfit)
        cases h.symm.trans hc

/-- A document in which no name repeats is packed exactly if it nests at most `maxDepth` containers,
none of them has more members than the limit in force, and every number is read as one that can be
stored; a scalar counts as an array of one element, and a document that is too large for the fields
of the format is set aside.  It makes no difference whether names may repeat.  What the container
tells is the document, without the null members of objects if those are dropped, and with every
number replaced by one of the same value. -/
theorem pack_round_trip (hn : doc.NamesUnique) (o : Options) :
    (((∃ c, doc.pack o = .ok c) ∨ doc.TooLarge o) ↔
      doc.wrapped.depth ≤ maxDepth ∧
        (∀ p ∈ doc.wrapped.parts, p.width ≤ min o.maxChildren maxChildren) ∧
        ∀ n, .number n ∈ doc.parts → ∃ d, Decimal.read n.text = .ok d ∧ d.storable = true) ∧
    (∀ u, doc.pack { o with uniqueKeys := u } = doc.pack o) ∧
    ∀ c, doc.pack o = .ok c →
      ∃ respell : Numeral → Numeral, (∀ n, .number n ∈ doc.parts → (respell n).value = n.value) ∧
        c.json = .ok (doc.revised o.skipNulls respell) := by
  have haccept := exists_builtRoot_iff (o := o) hn
  refine ⟨?_, ?_, ?_⟩
  · rw [packed_or_tooLarge_iff, haccept, ← Options.limit_eq]
    constructor
    · rintro ⟨hdepth, hwidth, hlegible⟩
      refine ⟨by omega, hwidth, fun n hn => ?_⟩
      obtain ⟨d, hd⟩ := hlegible n (number_mem_parts_wrapped.mpr hn)
      exact ⟨d, hd, (Decimal.value_of_read hd).2⟩
    · rintro ⟨hdepth, hwidth, hlegible⟩
      refine ⟨by omega, hwidth, fun n hn => ?_⟩
      obtain ⟨d, hd, -⟩ := hlegible n (number_mem_parts_wrapped.mp hn)
      exact ⟨d, hd⟩
  · intro u
    rw [pack_eq, pack_eq, builtRoot_uniqueKeys hn]
  · intro c hc
    rw [pack_eq] at hc
    obtain ⟨v, hv, hpack⟩ := ok_of_bind_ok hc
    have hlegible := (haccept.mp ⟨v, hv⟩).legible
    refine ⟨respelled, fun n hn => ?_, json_of_builtRoot hn hv hpack⟩
    obtain ⟨d, hd⟩ := hlegible n (number_mem_parts_wrapped.mpr hn)
    exact (ofScalar_number hd).2

/-- A null member is dropped and a null item is kept; the order of the names does not matter. -/
theorem pack_round_trip_null :
    ∃ (c : Container) (respell : Numeral → Numeral),
      (Json.object [("b", .array [.number ⟨true, 1, [5, 0], none⟩, .null]), ("aa", .null),
        ("a", .string "x")]).pack { skipNulls := true } = .ok c ∧
      (respell ⟨true, 1, [5, 0], none⟩).value = -3 / 2 ∧
      c.json = .ok (.object [("a", .string "x"),
        ("b", .array [.number (respell ⟨true, 1, [5, 0], none⟩), .null])]) := by
  generalize hdoc : Json.object [("b", .array [.number ⟨true, 1, [5, 0], none⟩, .null]),
    ("aa", .null), ("a", .string "x")] = doc
  have hparts : doc.parts = [doc, .array [.number ⟨true, 1, [5, 0], none⟩, .null],
      .number ⟨true, 1, [5, 0], none⟩, .null, .null, .string "x"] := by
    subst hdoc
    rfl
  have hn : doc.NamesUnique := by
    intro members hm
    rw [hparts] at hm
    subst hdoc
    simp only [List.mem_cons, Json.object.injEq, reduceCtorEq, List.not_mem_nil, or_false] at hm
    subst hm
    decide
  have hpack : doc.pack { skipNulls := true } =
      .ok ⟨⟨.object, 2, by decide, by decide⟩, [2147483649, 1, 1, 1342177303],
        [97, 98, 120, 0, 2, 0, 0, 64, 10, 0, 0, 144, 0, 0, 0, 64, 2, 0, 0, 0, 0, 0, 0, 0, 106, 255],
        rfl⟩ := by
    have hb : Bytes.ofText "b" = [98] := by decide
    have haa : Bytes.ofText "aa" = [97, 97] := by decide
    have ha : Bytes.ofText "a" = [97] := by decide
    have hx : Bytes.ofText "x" = [120] := by decide
    have hread : Decimal.read (⟨true, 1, [5, 0], none⟩ : Numeral).text = .ok ⟨-150, 2⟩ := by decide
    have hs : Decimal.storable ⟨-150, 2⟩ = true := by decide
    have hvalue : doc.value { skipNulls := true } = .ok (.object [([97], .string [120]),
        ([98], .array false [.number ⟨-150, 2⟩, .null])]) := by
      subst hdoc
      simp only [Json.value, wholeTrace, trace, traceMembers, traceItems, hb, haa, ha, hx, hread]
      cbv
    rw [Json.pack, hvalue]
    simp only [bind, Except.bind, Value.pack, Value.pairPieces, Value.piece, Value.elemPieces,
      Value.leafPiece, hs, if_true]
    cbv
  obtain ⟨-, -, htold⟩ := pack_round_trip hn { skipNulls := true }
  obtain ⟨respell, hvalue, hjson⟩ := htold _ hpack
  have hnumber := hvalue ⟨true, 1, [5, 0], none⟩ (by rw [hparts]; simp)
  refine ⟨_, respell, hpack, hnumber.trans ?_, hjson.trans ?_⟩
  · norm_num [Numeral.value, Numeral.power, Numeral.ofDigits]
  · subst hdoc
    cbv

end PackedTree.Json
