import PackedTree.Proofs.AcceptedValues
import PackedTree.Proofs.OnePassWriting

/-! # The order of pairs

An object may list its pairs in any order.  What counts is which of the pairs with one key comes
last, so pairs may change places as long as those with one key stay in order among themselves
(`Value.StablyPermuted`).  `Value.Reorders` is one such change in some object of a value, however
deep it stands, and any number of them are reached by `Relation.ReflTransGen`.

A change affects the pieces of the containers around it no more than its own
(`Reorders.piece_eq`), and for a builder the tree without its wrappers is changed in the same way
(`Reorders.loose`), which affects neither whether it may be told nor what it amounts to.
`pair_order_irrelevant` draws the conclusion for packing, for writing in one pass and for
building. -/

namespace PackedTree

namespace Value

/-! ### Replacing one member -/

section Replace

variable {α β : Type} {a b : α} {v w : Value} {k : Bytes}

theorem map_replace {f : α → β} (h : f a = f b) (xs ys : List α) :
    (xs ++ a :: ys).map f = (xs ++ b :: ys).map f := by
  rw [List.map_append, List.map_cons, h, List.map_append, List.map_cons]

theorem forall_mem_replace {P : α → Prop} {xs ys : List α} (h : ∀ x ∈ xs ++ a :: ys, P x)
    (hab : P a → P b) : ∀ x ∈ xs ++ b :: ys, P x := by
  obtain ⟨hxs, hrest⟩ := List.forall_mem_append.mp h
  obtain ⟨ha, hys⟩ := List.forall_mem_cons.mp hrest
  exact List.forall_mem_append.mpr ⟨hxs, List.forall_mem_cons.mpr ⟨hab ha, hys⟩⟩

theorem map_replace_value {f : Value → β} (h : f v = f w) (ps qs : List (Bytes × Value)) :
    ((ps ++ (k, v) :: qs).map fun p => (p.1, f p.2)) =
      (ps ++ (k, w) :: qs).map fun p => (p.1, f p.2) :=
  map_replace (f := fun p : Bytes × Value => (p.1, f p.2)) (congrArg (Prod.mk k) h) ps qs

theorem forall_mem_replace_value {P : Value → Prop} {ps qs : List (Bytes × Value)}
    (h : ∀ p ∈ ps ++ (k, v) :: qs, P p.2) (hvw : P v → P w) :
    ∀ p ∈ ps ++ (k, w) :: qs, P p.2 :=
  forall_mem_replace (P := fun p : Bytes × Value => P p.2) h hvw

theorem alone_or_more (xs ys : List α) :
    xs = [] ∧ ys = [] ∨ ∀ x, ∃ a b rest, xs ++ x :: ys = a :: b :: rest := by
  rcases xs with _ | ⟨a, _ | ⟨b, xs⟩⟩
  · rcases ys with _ | ⟨b, ys⟩
    · exact .inl ⟨rfl, rfl⟩
    · exact .inr fun x => ⟨x, b, ys, rfl⟩
  · exact .inr fun x => ⟨a, x, ys, rfl⟩
  · exact .inr fun x => ⟨a, b, xs ++ x :: ys, rfl⟩

/-- What does no more than count the members of wrappers around several is the same for wrappers
that differ in one member. -/
theorem congr_of_more {f : Value → β} (g : Nat → β) {vs ws : List Value}
    (hmore : ∀ u, ∃ a b rest, vs ++ u :: ws = a :: b :: rest)
    (hf : ∀ a b rest, f (.array true (a :: b :: rest)) = g (a :: b :: rest).length) (v w : Value) :
    f (.array true (vs ++ v :: ws)) = f (.array true (vs ++ w :: ws)) := by
  have hcount : ∀ u, f (.array true (vs ++ u :: ws)) = g (vs ++ u :: ws).length := by
    intro u
    obtain ⟨a, b, rest, hu⟩ := hmore u
    rw [hu]
    exact hf a b rest
  rw [hcount, hcount, List.length_append, List.length_append, List.length_cons, List.length_cons]

end Replace

/-! ### Pairs in another order -/

/-- The same pairs in another order, with those of one key in the same order among themselves. -/
structure StablyPermuted {α : Type} (ps qs : List (Bytes × α)) : Prop where
  perm : ps.Perm qs
  sameKey : ∀ k, (ps.filter fun p => p.1 = k) = qs.filter fun p => p.1 = k

namespace StablyPermuted

variable {α β : Type} {ps qs : List (Bytes × α)}

theorem symm (h : StablyPermuted ps qs) : StablyPermuted qs ps :=
  ⟨h.perm.symm, fun k => (h.sameKey k).symm⟩

theorem swap {p q : Bytes × α} (h : p.1 ≠ q.1) (ps : List (Bytes × α)) :
    StablyPermuted (p :: q :: ps) (q :: p :: ps) where
  perm := .swap q p ps
  sameKey k := by
    by_cases hp : p.1 = k
    · have hq : ¬ q.1 = k := fun hq => h (hp.trans hq.symm)
      simp [hp, hq]
    · simp [List.filter_cons, hp]

theorem map (h : StablyPermuted ps qs) (f : α → β) :
    StablyPermuted (ps.map fun p => (p.1, f p.2)) (qs.map fun p => (p.1, f p.2)) where
  perm := h.perm.map _
  sameKey k := by
    rw [List.filter_map, List.filter_map]
    exact congrArg _ (h.sameKey k)

theorem last?_eq (h : StablyPermuted ps qs) (k : Bytes) :
    Keyed.last? Bytes.keyCompare k ps = Keyed.last? Bytes.keyCompare k qs := by
  have hkey : (fun p : Bytes × α => Bytes.keyCompare p.1 k == .eq) = fun p => decide (p.1 = k) := by
    funext p
    rw [Bool.eq_iff_iff, beq_iff_eq, decide_eq_true_eq]
    exact Bytes.keyCompare_eq_iff
  unfold Keyed.last?
  rw [hkey, h.sameKey k]

/-- Written one after the other, the pairs come to the same. -/
theorem written_eq (h : StablyPermuted ps qs) :
    Keyed.written Bytes.keyCompare ps = Keyed.written Bytes.keyCompare qs := by
  apply Keyed.eq_of_ascending Bytes.keyCompare
  · exact Keyed.ascending_written Bytes.keyCompare ps
  · exact Keyed.ascending_written Bytes.keyCompare qs
  · intro p
    rw [Keyed.mem_written_iff, Keyed.mem_written_iff, h.last?_eq]

end StablyPermuted

section Pairs

variable {ps qs : List (Bytes × Value)} (h : StablyPermuted ps qs)
include h

theorem packPairs_eq (level : Nat) : packPairs ps level = packPairs qs level := by
  have hpieces := (h.map fun v => v.piece (level + 1)).written_eq
  rw [← Keyed.canonical_eq_written, ← Keyed.canonical_eq_written] at hpieces
  simp only [packPairs, Container.packObject, hpieces]

theorem staying_eq (o : Options) : staying o ps = staying o qs := by
  unfold staying
  rw [h.written_eq]

end Pairs

/-! ### Values with pairs in another order -/

/-- The pairs of one object, somewhere in the value, are brought in another order. -/
inductive Reorders : Value → Value → Prop
  | pairs {ps qs : List (Bytes × Value)} (h : StablyPermuted ps qs) :
      Reorders (.object ps) (.object qs)
  | elem {raw : Bool} {before after : List Value} {v w : Value} (h : Reorders v w) :
      Reorders (.array raw (before ++ v :: after)) (.array raw (before ++ w :: after))
  | value {before after : List (Bytes × Value)} {k : Bytes} {v w : Value} (h : Reorders v w) :
      Reorders (.object (before ++ (k, v) :: after)) (.object (before ++ (k, w) :: after))

namespace Reorders

variable {v w : Value} {o : Options} {level : Nat}

theorem symm (h : Reorders v w) : Reorders w v := by
  induction h with
  | pairs h => exact .pairs h.symm
  | elem _ ih => exact .elem ih
  | value _ ih => exact .value ih

theorem isTree (h : Reorders v w) (hv : v.isTree = true) : w.isTree = true := by
  induction h with
  | pairs h =>
      apply isTree_object
      intro p hp
      exact isTree_of_mem_pairs hv (h.perm.mem_iff.mpr hp)
  | elem _ ih =>
      apply isTree_array
      exact forall_mem_replace (fun x hx => isTree_of_mem_elems hv hx) ih
  | value _ ih =>
      apply isTree_object
      exact forall_mem_replace_value (P := fun v => v.isTree = true)
        (fun p hp => isTree_of_mem_pairs hv hp) ih

/-! ### Packing -/

/-- A member packs to the same piece, or fails in the same way. -/
theorem piece_eq (h : Reorders v w) (level : Nat) : v.piece level = w.piece level := by
  induction h generalizing level with
  | pairs h => rw [piece_object, piece_object, packPairs_eq h]
  | @elem raw before after v w _ ih =>
      cases raw with
      | false =>
          rw [piece_array, piece_array, packElems, packElems, map_replace (ih (level + 1))]
      | true =>
          rcases alone_or_more before after with ⟨rfl, rfl⟩ | hmore
          · rw [List.nil_append, List.nil_append, piece, piece]
            exact ih (level + 1)
          · exact congr_of_more (f := fun u => u.piece level)
              (fun _ => .error (.unexpected .beginArray .rawSize)) hmore (fun _ _ _ => rfl) v w
  | value _ ih =>
      rw [piece_object, piece_object, packPairs, packPairs,
        map_replace_value (f := fun v => v.piece (level + 1)) (ih (level + 1))]

theorem holdsScalar_eq (h : Reorders v w) : v.holdsScalar = w.holdsScalar := by
  induction h with
  | pairs => rfl
  | @elem raw before after v w _ ih =>
      cases raw with
      | false => rfl
      | true =>
          rcases alone_or_more before after with ⟨rfl, rfl⟩ | hmore
          · rw [List.nil_append, List.nil_append, holdsScalar, holdsScalar]
            exact ih
          · exact congr_of_more (f := holdsScalar) (fun _ => false) hmore (fun _ _ _ => rfl) v w
  | value => rfl

/-- A whole value packs to the same container, or fails in the same way. -/
theorem pack_eq_pack (h : Reorders v w) : v.pack = w.pack := by
  cases h with
  | pairs h =>
      rw [pack, pack, pairPieces_eq_map, pairPieces_eq_map]
      exact packPairs_eq h 0
  | @elem raw before after v w h =>
      cases raw with
      | false =>
          rw [pack, pack, elemPieces_eq_map, elemPieces_eq_map, map_replace (h.piece_eq 1)]
      | true =>
          rcases alone_or_more before after with ⟨rfl, rfl⟩ | hmore
          · rw [List.nil_append, List.nil_append, pack, pack, h.holdsScalar_eq, h.piece_eq]
          · exact congr_of_more (f := pack) (fun n => .error (rawCountFault n)) hmore
              (fun _ _ _ => rfl) v w
  | value h =>
      rw [pack, pack, pairPieces_eq_map, pairPieces_eq_map,
        map_replace_value (f := fun v => v.piece 1) (h.piece_eq 1)]

/-! ### Building -/

theorem loose (h : Reorders v w) : Reorders v.loose w.loose := by
  induction h with
  | pairs h =>
      rw [loose_object, loose_object]
      exact .pairs (h.map Value.loose)
  | @elem raw before after v w _ ih =>
      cases raw with
      | false =>
          rw [loose_array, loose_array, List.map_append, List.map_append, List.map_cons,
            List.map_cons]
          exact .elem ih
      | true =>
          rcases alone_or_more before after with ⟨rfl, rfl⟩ | hmore
          · rw [List.nil_append, List.nil_append, loose_raw, loose_raw]
            exact ih
          · have hloose (x : Value) : (Value.array true (before ++ x :: after)).loose =
                .array true (before.map Value.loose ++ x.loose :: after.map Value.loose) := by
              obtain ⟨a, b, rest, hx⟩ := hmore x
              rw [← List.map_cons, ← List.map_append, hx, ← looseElems_eq_map]
              rfl
            rw [hloose, hloose]
            exact .elem ih
  | value _ ih =>
      rw [loose_object, loose_object, List.map_append, List.map_append, List.map_cons,
        List.map_cons]
      exact .value ih

theorem buildable (h : Reorders v w) (hb : v.Buildable o level) : w.Buildable o level := by
  induction h generalizing level with
  | pairs h =>
      cases hb with
      | scalar hs => cases hs
      | object hd hn hu hp =>
          refine .object hd (h.perm.length_eq ▸ hn) ?_ ?_
          · intro hunique
            exact (h.perm.map Prod.fst).nodup_iff.mp (hu hunique)
          · intro p hm
            exact hp p (h.perm.mem_iff.mpr hm)
  | elem _ ih =>
      cases hb with
      | scalar hs => cases hs
      | array hd hn he =>
          refine .array hd ?_ (forall_mem_replace he ih)
          rwa [List.length_append, List.length_cons] at hn ⊢
  | value _ ih =>
      cases hb with
      | scalar hs => cases hs
      | object hd hn hu hp =>
          refine .object hd ?_ ?_ (forall_mem_replace_value (P := Buildable o (level + 1)) hp ih)
          · rwa [List.length_append, List.length_cons] at hn ⊢
          · rwa [List.map_append, List.map_cons] at hu ⊢

theorem settled_eq (h : Reorders v w) : v.settled o = w.settled o := by
  induction h with
  | pairs h => rw [settled_object, settled_object, staying_eq (h.map _)]
  | elem _ ih => rw [settled_array, settled_array, map_replace ih]
  | value _ ih => rw [settled_object, settled_object, map_replace_value (f := settled o) ih]

/-- An array around the value is built exactly if one around the other value is, and it is the
same. -/
theorem build_iff (h : Reorders v w) (hv : v.isTree = true) (len : Nat) (x : Value) :
    PackedTree.build o [.beginArray len false, .elem v, .endArray] = .ok x ↔
      PackedTree.build o [.beginArray len false, .elem w, .endArray] = .ok x := by
  have hb : v.loose.Buildable o 1 ↔ w.loose.Buildable o 1 :=
    ⟨h.loose.buildable, h.symm.loose.buildable⟩
  rw [build_loose_iff hv, build_loose_iff (h.isTree hv), hb, h.loose.settled_eq]

end Reorders

/-- However the pairs of its objects are brought in another order, those with one key staying in
order among themselves, a tree packs to the same container or fails with the same fault, also when
it is written in one pass; and as the member of an array it builds to the same value, under any
options, or to none. -/
theorem pair_order_irrelevant {v w : Value} (hv : v.isTree = true)
    (h : Relation.ReflTransGen Reorders v w) :
    v.pack = w.pack ∧ v.written = w.written ∧ ∀ (o : Options) (len : Nat) (x : Value),
      PackedTree.build o [.beginArray len false, .elem v, .endArray] = .ok x ↔
        PackedTree.build o [.beginArray len false, .elem w, .endArray] = .ok x := by
  induction h using Relation.ReflTransGen.head_induction_on with
  | refl => exact ⟨rfl, rfl, fun o len x => Iff.rfl⟩
  | head hstep _ ih =>
      obtain ⟨hpack, -, hbuild⟩ := ih (hstep.isTree hv)
      have hpack := hstep.pack_eq_pack.trans hpack
      refine ⟨hpack, ?_, ?_⟩
      · rw [written_eq_pack, written_eq_pack, hpack]
      · intro o len x
        exact (hstep.build_iff hv len x).trans (hbuild o len x)

/-- The pairs of the inner object change places, and so do two pairs of the outer one; the two with
the same key stay in order, and the later one wins. -/
theorem pair_order_irrelevant_nested :
    let inner : List (Bytes × Value) := [([100], .null), ([99], .bool true)]
    let inner' : List (Bytes × Value) := [([99], .bool true), ([100], .null)]
    let v : Value := .object [([98], .object inner), ([97], .null), ([97], .bool false)]
    let w : Value := .object [([97], .null), ([98], .object inner'), ([97], .bool false)]
    v.pack = w.pack ∧ v.written = w.written ∧
      PackedTree.build {} [.beginArray 1 false, .elem w, .endArray] =
        .ok (.array false [.object [([97], .bool false), ([98], .object inner')]]) := by
  intro inner inner' v w
  have hinner : Reorders (.object inner) (.object inner') := .pairs (.swap (by decide) [])
  let u : Value := .object [([98], .object inner'), ([97], .null), ([97], .bool false)]
  have hfirst : Reorders v u := @Reorders.value [] _ _ _ _ hinner
  have hsecond : Reorders u w := .pairs (.swap (by decide) _)
  obtain ⟨hpack, hwritten, hbuild⟩ :=
    pair_order_irrelevant (v := v) rfl (.tail (.single hfirst) hsecond)
  refine ⟨hpack, hwritten, (hbuild {} 1 _).mp ?_⟩
  cbv

end Value

end PackedTree
