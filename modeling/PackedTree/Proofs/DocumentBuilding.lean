import PackedTree.Proofs.CanonicalPacking
import PackedTree.Proofs.DecimalReading
import PackedTree.Proofs.DocumentTelling

/-! # When a document is built, and to what

A document is built from what its members are built to, one by one (`built_array_eq_ok_iff`,
`built_object_eq_ok_iff`).  So it is built at all if its containers do not nest too deep or have too
many members, and its numbers are legible (`exists_builtRoot_iff`).  Where no name repeats it makes
no difference whether names may (`builtRoot_uniqueKeys`), and what is built can be packed but for
its size (`packableRoot_of_builtRoot`). -/

namespace PackedTree.Json

/-! ### Lists related member by member -/

section Related

variable {α β : Type} {R S : α → β → Prop} {as : List α} {bs : List β}

theorem exists_forall₂_iff : (∃ bs, List.Forall₂ R as bs) ↔ ∀ a ∈ as, ∃ b, R a b := by
  induction as with
  | nil => simp
  | cons a as ih =>
      rw [List.forall_mem_cons, ← ih]
      constructor
      · rintro ⟨_, h⟩
        cases h with
        | cons hb hbs => exact ⟨⟨_, hb⟩, _, hbs⟩
      · rintro ⟨⟨b, hb⟩, bs, hbs⟩
        exact ⟨b :: bs, .cons hb hbs⟩

theorem forall₂_of_mem (h : List.Forall₂ R as bs) (hS : ∀ a ∈ as, ∀ b, R a b → S a b) :
    List.Forall₂ S as bs := by
  have hboth := (List.forall₂_and_left (p := fun a => ∀ b, R a b → S a b) as bs).mpr ⟨hS, h⟩
  exact hboth.imp fun a b hab => hab.1 b hab.2

theorem forall_of_forall₂ {P : β → Prop} (h : List.Forall₂ R as bs)
    (hP : ∀ a ∈ as, ∀ b, R a b → P b) : ∀ b ∈ bs, P b := by
  induction h with
  | nil => nofun
  | cons hr _ ih =>
      obtain ⟨ha, has⟩ := List.forall_mem_cons.mp hP
      exact List.forall_mem_cons.mpr ⟨ha _ hr, ih has⟩

end Related

section Built

variable {o : Options} {level count : Nat} {items : List Json} {members : List (String × Json)}
  {doc : Json} {v : Value}

/-! ### Members one by one -/

theorem ok_of_bind_ok {α β : Type} {x : Except Fault α} {f : α → Except Fault β} {b : β}
    (h : x >>= f = .ok b) : ∃ a, x = .ok a ∧ f a = .ok b := by
  cases x with
  | error e => cases h
  | ok a => exact ⟨a, rfl, h⟩

/-- The pair is built of the member. -/
def Builds (o : Options) (level : Nat) (m : String × Json) (p : Bytes × Value) : Prop :=
  p.1 = Bytes.ofText m.1 ∧ m.2.built o level = .ok p.2

theorem builtItems_eq_ok_iff {ws : List Value} (hc : count ≤ o.limit) :
    builtItems o level count items = .ok ws ↔
      count + items.length ≤ o.limit ∧
        List.Forall₂ (fun v w => v.built o level = .ok w) items ws := by
  induction items generalizing count ws with
  | nil =>
      rw [builtItems, List.forall₂_nil_left_iff]
      constructor
      · rintro ⟨⟩
        exact ⟨hc, rfl⟩
      · rintro ⟨-, rfl⟩
        rfl
  | cons v vs ih =>
      rw [builtItems, List.forall₂_cons_left_iff, List.length_cons]
      constructor
      · intro h
        obtain ⟨w, hw, h⟩ := ok_of_bind_ok h
        split at h
        · cases h
        · obtain ⟨us, hus, h⟩ := ok_of_bind_ok h
          cases h
          obtain ⟨hn, hus⟩ := (ih (by omega)).mp hus
          exact ⟨by omega, w, us, hw, hus, rfl⟩
      · rintro ⟨hn, w, us, hw, hus, rfl⟩
        rw [hw]
        show (if _ then _ else _) = _
        rw [if_neg (by omega), (ih (by omega)).mpr ⟨by omega, hus⟩]
        rfl

theorem builtMembers_eq_ok_iff {ps : List (Bytes × Value)} (hc : count ≤ o.limit) :
    builtMembers o level count members = .ok ps ↔
      count + members.length ≤ o.limit ∧ List.Forall₂ (Builds o level) members ps := by
  induction members generalizing count ps with
  | nil =>
      rw [builtMembers, List.forall₂_nil_left_iff]
      constructor
      · rintro ⟨⟩
        exact ⟨hc, rfl⟩
      · rintro ⟨-, rfl⟩
        rfl
  | cons m ms ih =>
      obtain ⟨k, v⟩ := m
      rw [builtMembers, List.forall₂_cons_left_iff, List.length_cons]
      constructor
      · intro h
        obtain ⟨w, hw, h⟩ := ok_of_bind_ok h
        split at h
        · cases h
        · obtain ⟨qs, hqs, h⟩ := ok_of_bind_ok h
          cases h
          obtain ⟨hn, hqs⟩ := (ih (by omega)).mp hqs
          exact ⟨by omega, _, qs, ⟨rfl, hw⟩, hqs, rfl⟩
      · rintro ⟨hn, ⟨_, w⟩, qs, ⟨rfl, hw⟩, hqs, rfl⟩
        rw [hw]
        show (if _ then _ else _) = _
        rw [if_neg (by omega), (ih (by omega)).mpr ⟨by omega, hqs⟩]
        rfl

theorem built_array_eq_ok_iff :
    (Json.array items).built o level = .ok v ↔ level < maxDepth ∧ items.length ≤ o.limit ∧
      ∃ ws, List.Forall₂ (fun v w => v.built o (level + 1) = .ok w) items ws ∧
        v = .array false ws := by
  rw [built]
  by_cases hd : maxDepth ≤ level
  · rw [if_pos hd]
    constructor
    · rintro ⟨⟩
    · rintro ⟨hlevel, -⟩
      exact absurd hd (Nat.not_le.mpr hlevel)
  · rw [if_neg hd]
    constructor
    · intro h
      obtain ⟨ws, hws, h⟩ := ok_of_bind_ok h
      cases h
      obtain ⟨hn, hws⟩ := (builtItems_eq_ok_iff (Nat.zero_le _)).mp hws
      exact ⟨by omega, by omega, ws, hws, rfl⟩
    · rintro ⟨-, hn, ws, hws, rfl⟩
      rw [(builtItems_eq_ok_iff (Nat.zero_le _)).mpr ⟨by omega, hws⟩]
      rfl

theorem built_object_eq_ok_iff :
    (Json.object members).built o level = .ok v ↔ level < maxDepth ∧ members.length ≤ o.limit ∧
      ∃ ps, List.Forall₂ (Builds o (level + 1)) members ps ∧
        (o.uniqueKeys = true → (ps.map Prod.fst).Nodup) ∧ v = .object (Value.staying o ps) := by
  rw [built]
  by_cases hd : maxDepth ≤ level
  · rw [if_pos hd]
    constructor
    · rintro ⟨⟩
    · rintro ⟨hlevel, -⟩
      exact absurd hd (Nat.not_le.mpr hlevel)
  · rw [if_neg hd]
    constructor
    · intro h
      obtain ⟨ps, hps, h⟩ := ok_of_bind_ok h
      obtain ⟨qs, hqs, h⟩ := ok_of_bind_ok h
      cases h
      obtain ⟨hn, hps⟩ := (builtMembers_eq_ok_iff (Nat.zero_le _)).mp hps
      obtain ⟨hu, rfl⟩ := Builder.finishPairs_eq_ok_iff.mp hqs
      exact ⟨by omega, by omega, ps, hps, hu, rfl⟩
    · rintro ⟨-, hn, ps, hps, hu, rfl⟩
      rw [(builtMembers_eq_ok_iff (Nat.zero_le _)).mpr ⟨by omega, hps⟩]
      show Builder.finishPairs o ps >>= _ = _
      rw [Builder.finishPairs_eq_ok_iff.mpr ⟨hu, rfl⟩]
      rfl

theorem ofText_injective : Function.Injective Bytes.ofText := by
  intro s t h
  have hs := Bytes.toText?_ofText s
  rw [h, Bytes.toText?_ofText] at hs
  exact (Option.some.inj hs).symm

theorem nodup_of_builds {ps : List (Bytes × Value)} (h : List.Forall₂ (Builds o level) members ps)
    (hn : (members.map Prod.fst).Nodup) : (ps.map Prod.fst).Nodup := by
  have hkeys : ps.map Prod.fst = (members.map Prod.fst).map Bytes.ofText := by
    induction h with
    | nil => rfl
    | cons hp hps ih =>
        rw [List.map_cons, List.map_cons, List.map_cons, hp.1, ih (List.nodup_cons.mp hn).2]
  rw [hkeys]
  exact hn.map ofText_injective

theorem exists_builds_iff {m : String × Json} :
    (∃ p, Builds o level m p) ↔ ∃ v, m.2.built o level = .ok v := by
  constructor
  · rintro ⟨p, -, hp⟩
    exact ⟨p.2, hp⟩
  · rintro ⟨v, hv⟩
    exact ⟨(_, v), rfl, hv⟩

/-! ### When a document is built -/

/-- A document that nests few enough containers, has no container with too many members, and in
which every number is legible. -/
structure Acceptable (o : Options) (level : Nat) (doc : Json) : Prop where
  depth_le : level + doc.depth ≤ maxDepth
  width_le : ∀ p ∈ doc.parts, p.width ≤ o.limit
  legible : ∀ n, .number n ∈ doc.parts → ∃ d, Decimal.read n.text = .ok d

theorem acceptable_iff (hd : doc.isScalar = false) :
    doc.Acceptable o level ↔ level < maxDepth ∧ doc.width ≤ o.limit ∧
      ∀ v ∈ doc.inner, v.Acceptable o (level + 1) := by
  have hnumber : ∀ n, doc ≠ .number n := by
    rintro n rfl
    cases hd
  have hdepth := depth_of_container hd
  constructor
  · rintro ⟨hdepth_le, hwidth, hlegible⟩
    refine ⟨by omega, hwidth doc (mem_parts_self doc), fun v hv => ⟨?_, ?_, ?_⟩⟩
    · have hv := depthItems_le_iff.mp le_rfl v hv
      omega
    · exact fun p hp => hwidth p (mem_parts_inner hv hp)
    · exact fun n hn => hlegible n (mem_parts_inner hv hn)
  · rintro ⟨hlevel, hwidth, hinner⟩
    refine ⟨?_, forall_mem_parts_iff.mpr ⟨hwidth, fun v hv => (hinner v hv).width_le⟩, ?_⟩
    · have hle : depthItems doc.inner ≤ maxDepth - (level + 1) :=
        depthItems_le_iff.mpr fun v hv => by have := (hinner v hv).depth_le; omega
      omega
    · have hlegible : ∀ p ∈ doc.parts, ∀ n, p = .number n → ∃ d, Decimal.read n.text = .ok d :=
        forall_mem_parts_iff.mpr ⟨fun n hn => absurd hn (hnumber n),
          fun v hv p hp n hn => (hinner v hv).legible n (hn ▸ hp)⟩
      exact fun n hn => hlegible _ hn n rfl

theorem acceptable_of_isScalar (hd : doc.isScalar = true) (hl : level ≤ maxDepth) :
    doc.Acceptable o level ↔ ∀ n, doc = .number n → ∃ d, Decimal.read n.text = .ok d := by
  have hparts : doc.parts = [doc] := by
    rw [parts_eq, inner_of_isScalar hd, List.flatMap_nil]
  constructor
  · rintro h n rfl
    exact h.legible n (mem_parts_self _)
  · intro h
    refine ⟨?_, ?_, ?_⟩
    · rw [depth_of_isScalar hd]
      exact hl
    · rw [hparts, List.forall_mem_singleton, width, inner_of_isScalar hd]
      exact Nat.zero_le _
    · intro n hn
      rw [hparts, List.mem_singleton] at hn
      exact h n hn.symm

theorem exists_built_of_isScalar (hd : doc.isScalar = true) :
    (∃ v, doc.built o level = .ok v) ↔
      ∀ n, doc = .number n → ∃ d, Decimal.read n.text = .ok d := by
  cases doc with
  | null | bool b | string s => simp [built]
  | number n =>
      rw [built]
      cases hn : Decimal.read n.text with
      | ok d =>
          refine ⟨?_, fun _ => ⟨_, rfl⟩⟩
          rintro - _ ⟨⟩
          exact ⟨d, hn⟩
      | error f =>
          constructor
          · rintro ⟨v, ⟨⟩⟩
          · intro h
            obtain ⟨d, hd⟩ := h n rfl
            cases hn.symm.trans hd
  | array | object => cases hd

/-- A document without repeated names is built exactly if it is acceptable. -/
theorem exists_built_iff (hn : doc.NamesUnique) (hl : level ≤ maxDepth) :
    (∃ v, doc.built o level = .ok v) ↔ doc.Acceptable o level := by
  induction doc using induction_on_members generalizing level with
  | null | bool | number | string =>
      rw [acceptable_of_isScalar rfl hl, exists_built_of_isScalar rfl]
  | array items ih =>
      rw [acceptable_iff rfl]
      show _ ↔ level < maxDepth ∧ items.length ≤ o.limit ∧ ∀ v ∈ items, v.Acceptable o (level + 1)
      have hitems (hd : level < maxDepth) :
          (∃ ws, List.Forall₂ (fun v w => v.built o (level + 1) = .ok w) items ws) ↔
            ∀ v ∈ items, v.Acceptable o (level + 1) := by
        rw [exists_forall₂_iff]
        exact forall₂_congr fun v hv => ih v hv (hn.inner hv) hd
      constructor
      · rintro ⟨v, hv⟩
        obtain ⟨hd, hlen, ws, hws, -⟩ := built_array_eq_ok_iff.mp hv
        exact ⟨hd, hlen, (hitems hd).mp ⟨ws, hws⟩⟩
      · rintro ⟨hd, hlen, h⟩
        obtain ⟨ws, hws⟩ := (hitems hd).mpr h
        exact ⟨_, built_array_eq_ok_iff.mpr ⟨hd, hlen, ws, hws, rfl⟩⟩
  | object members ih =>
      rw [acceptable_iff rfl, width, inner, List.length_map, List.forall_mem_map]
      have hmembers (hd : level < maxDepth) :
          (∃ ps, List.Forall₂ (Builds o (level + 1)) members ps) ↔
            ∀ m ∈ members, m.2.Acceptable o (level + 1) := by
        rw [exists_forall₂_iff]
        exact forall₂_congr fun m hm => exists_builds_iff.trans
            (ih m hm (hn.inner (List.mem_map_of_mem hm)) hd)
      constructor
      · rintro ⟨v, hv⟩
        obtain ⟨hd, hlen, ps, hps, -⟩ := built_object_eq_ok_iff.mp hv
        exact ⟨hd, hlen, (hmembers hd).mp ⟨ps, hps⟩⟩
      · rintro ⟨hd, hlen, h⟩
        obtain ⟨ps, hps⟩ := (hmembers hd).mpr h
        exact ⟨_, built_object_eq_ok_iff.mpr
          ⟨hd, hlen, ps, hps, fun _ => nodup_of_builds hps hn.names, rfl⟩⟩

/-- A whole document without repeated names is built exactly if it is acceptable, where a scalar
counts as an array of one element. -/
theorem exists_builtRoot_iff (hn : doc.NamesUnique) :
    (∃ v, doc.builtRoot o = .ok v) ↔ doc.wrapped.Acceptable o 0 := by
  unfold builtRoot wrapped
  by_cases hd : doc.isScalar = true
  · have hbuilt := exists_built_iff (o := o) hn (show 1 ≤ maxDepth by decide)
    rw [if_pos hd, if_pos hd, acceptable_iff rfl, width, inner, List.forall_mem_singleton,
      List.length_singleton, ← hbuilt]
    constructor
    · rintro ⟨v, h⟩
      obtain ⟨w, hw, h⟩ := ok_of_bind_ok h
      split at h
      · cases h
      · exact ⟨by decide, by omega, w, hw⟩
    · rintro ⟨-, hlimit, w, hw⟩
      refine ⟨.array true [w], ?_⟩
      rw [hw]
      exact if_neg (by omega)
  · rw [if_neg hd, if_neg hd]
    exact exists_built_iff hn (Nat.zero_le _)

/-! ### Where no name repeats, names may repeat -/

theorem builtItems_congr {o' : Options} (hl : o'.limit = o.limit)
    (h : ∀ v ∈ items, v.built o' level = v.built o level) (count : Nat) :
    builtItems o' level count items = builtItems o level count items := by
  induction items generalizing count with
  | nil => rw [builtItems, builtItems]
  | cons v vs ih =>
      obtain ⟨hv, hvs⟩ := List.forall_mem_cons.mp h
      rw [builtItems, builtItems, hv, hl, ih hvs]

theorem builtMembers_congr {o' : Options} (hl : o'.limit = o.limit)
    (h : ∀ m ∈ members, m.2.built o' level = m.2.built o level) (count : Nat) :
    builtMembers o' level count members = builtMembers o level count members := by
  induction members generalizing count with
  | nil => rw [builtMembers, builtMembers]
  | cons m ms ih =>
      obtain ⟨k, v⟩ := m
      obtain ⟨hv, hvs⟩ := List.forall_mem_cons.mp h
      rw [builtMembers, builtMembers, hv, hl, ih hvs]

theorem built_uniqueKeys (hn : doc.NamesUnique) (u : Bool) :
    doc.built { o with uniqueKeys := u } level = doc.built o level := by
  have hlimit : { o with uniqueKeys := u }.limit = o.limit := rfl
  induction doc using induction_on_members generalizing level with
  | null | bool | number | string => rw [built, built]
  | array items ih =>
      have hitems : builtItems { o with uniqueKeys := u } (level + 1) 0 items =
          builtItems o (level + 1) 0 items :=
        builtItems_congr hlimit (fun v hv => ih v hv (hn.inner hv)) 0
      rw [built, built, hitems]
  | object members ih =>
      have hmembers : builtMembers { o with uniqueKeys := u } (level + 1) 0 members =
          builtMembers o (level + 1) 0 members :=
        builtMembers_congr hlimit
          (fun m hm => ih m hm (hn.inner (List.mem_map_of_mem hm))) 0
      rw [built, built, hmembers]
      cases hps : builtMembers o (level + 1) 0 members with
      | error f => rfl
      | ok ps =>
          have hbuilds := ((builtMembers_eq_ok_iff (Nat.zero_le _)).mp hps).2
          have hnodup := nodup_of_builds hbuilds hn.names
          have hfinish (o' : Options) : Builder.finishPairs o' ps = .ok (Value.staying o' ps) :=
            Builder.finishPairs_eq_ok_iff.mpr ⟨fun _ => hnodup, rfl⟩
          show (if _ then _ else Builder.finishPairs { o with uniqueKeys := u } ps >>= _) =
            if _ then _ else Builder.finishPairs o ps >>= _
          rw [hfinish, hfinish]
          rfl

theorem builtRoot_uniqueKeys (hn : doc.NamesUnique) (u : Bool) :
    doc.builtRoot { o with uniqueKeys := u } = doc.builtRoot o := by
  have hbuilt (n : Nat) : doc.built { o with uniqueKeys := u } n = doc.built o n :=
    built_uniqueKeys hn u
  unfold builtRoot
  rw [hbuilt, hbuilt]
  rfl

/-! ### What is built can be packed -/

theorem storable_number {d : Decimal} (h : d.storable = true) : (Value.number d).Storable := by
  have hp : (Value.number d).leafPiece = .ok ⟨.number, d.bytes, none⟩ := by
    simp only [Value.leafPiece, if_pos h]
  exact .scalar rfl hp

theorem storable_of_built (hd : doc.isScalar = true) (h : doc.built o level = .ok v) :
    v.isScalar = true ∧ v.Storable := by
  cases doc with
  | null => rw [built] at h; cases h; exact ⟨rfl, .scalar rfl rfl⟩
  | bool b => rw [built] at h; cases h; cases b <;> exact ⟨rfl, .scalar rfl rfl⟩
  | string s => rw [built] at h; cases h; exact ⟨rfl, .scalar rfl rfl⟩
  | number n =>
      rw [built] at h
      split at h
      · next d hd =>
          cases h
          exact ⟨rfl, storable_number (Decimal.value_of_read hd).2⟩
      · cases h
  | array | object => cases hd

/-- What a document is built to can be packed there, but for its size. -/
theorem packable_of_built (h : doc.built o level = .ok v) : v.Packable level := by
  have hmax : o.limit ≤ maxChildren := Nat.min_le_right _ _
  induction doc using induction_on_members generalizing level v with
  | null | bool | number | string =>
      obtain ⟨hv, hs⟩ := storable_of_built rfl h
      exact .scalar hv hs
  | array items ih =>
      obtain ⟨hd, hlen, ws, hws, rfl⟩ := built_array_eq_ok_iff.mp h
      refine .array hd ?_ (forall_of_forall₂ hws fun v hv w hw => ih v hv hw)
      rw [← hws.length_eq]
      exact hlen.trans hmax
  | object members ih =>
      obtain ⟨hd, hlen, ps, hps, -, rfl⟩ := built_object_eq_ok_iff.mp h
      have hpackable : ∀ p ∈ ps, p.2.Packable (level + 1) :=
        forall_of_forall₂ hps fun m hm p hp => ih m hm hp.2
      refine .object hd ?_ (Value.ascending_staying ps) fun p hp =>
        hpackable p (Value.mem_of_mem_staying hp)
      rw [hps.length_eq] at hlen
      exact (Value.length_staying_le ps).trans (hlen.trans hmax)

theorem isScalar_of_built (hd : doc.isScalar = false) (h : doc.built o level = .ok v) :
    v.isScalar = false := by
  cases doc with
  | array items =>
      obtain ⟨-, -, ws, -, rfl⟩ := built_array_eq_ok_iff.mp h
      rfl
  | object members =>
      obtain ⟨-, -, ps, -, -, rfl⟩ := built_object_eq_ok_iff.mp h
      rfl
  | _ => cases hd

theorem packableRoot_of_builtRoot (h : doc.builtRoot o = .ok v) : v.PackableRoot := by
  unfold builtRoot at h
  split at h
  · next hd =>
      obtain ⟨w, hw, h⟩ := ok_of_bind_ok h
      obtain ⟨hv, hs⟩ := storable_of_built hd hw
      split at h
      · cases h
      · cases h
        exact .raw hv hs
  · next hd =>
      exact .of_packable (isScalar_of_built ((Bool.not_eq_true _).mp hd) h) (packable_of_built h)

end Built

end PackedTree.Json
