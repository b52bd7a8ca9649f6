import PackedTree.Json.Parser
import PackedTree.Proofs.DocumentParts

/-! # What the reader makes

In a document that comes from a text, the names of every object ascend strictly (`Json.Ordered`),
and no value has more containers around it than the reader has room for.  Both hold of whatever one
step of the reader puts together if they hold of the parts, and so of everything that is read, by
induction on the bound of the recursion (`readsWell`).

`wellRead_of_read` is the result for whole texts; since names ascend, none is repeated
(`Ordered.namesUnique`). -/

namespace PackedTree.Json

/-- In every object in a document the names ascend strictly. -/
def Ordered (doc : Json) : Prop :=
  ∀ members, .object members ∈ doc.parts → Keyed.Ascending nameCompare members

variable {doc : Json} {items : List Json} {members : List (String × Json)} {room fuel : Nat}

/-! ### Ascending names -/

theorem ordered_iff : doc.Ordered ↔
    (∀ members, doc = .object members → Keyed.Ascending nameCompare members) ∧
      ∀ v ∈ doc.inner, v.Ordered := by
  have hparts := @forall_mem_parts_iff doc fun p =>
    ∀ members, p = .object members → Keyed.Ascending nameCompare members
  constructor
  · intro h
    obtain ⟨hself, hinner⟩ := hparts.mp fun p hp members hm => h members (hm ▸ hp)
    exact ⟨hself, fun v hv members hm => hinner v hv _ hm members rfl⟩
  · rintro ⟨hself, hinner⟩ members hm
    exact hparts.mpr ⟨hself, fun v hv p hp members hm => hinner v hv members (hm ▸ hp)⟩ _ hm _ rfl

theorem Ordered.inner (h : doc.Ordered) {v : Json} (hv : v ∈ doc.inner) : v.Ordered :=
  (ordered_iff.mp h).2 v hv

theorem Ordered.ascending (h : (Json.object members).Ordered) :
    Keyed.Ascending nameCompare members :=
  h members (mem_parts_self _)

theorem Ordered.namesUnique (h : doc.Ordered) : doc.NamesUnique :=
  fun members hm => Keyed.nodup_keys nameCompare (h members hm)

theorem ordered_of_isScalar (h : doc.isScalar = true) : doc.Ordered := by
  rw [ordered_iff, inner_of_isScalar h]
  refine ⟨?_, nofun⟩
  rintro members rfl
  cases h

theorem ordered_array (h : ∀ v ∈ items, v.Ordered) : (Json.array items).Ordered :=
  ordered_iff.mpr ⟨nofun, h⟩

theorem ordered_ofMembers (h : ∀ m ∈ members, m.2.Ordered) : (ofMembers members).Ordered := by
  refine ordered_iff.mpr ⟨?_, List.forall_mem_map.mpr fun m hm => ?_⟩
  · rintro _ ⟨⟩
    exact Keyed.ascending_canonical nameCompare members
  · exact h m (Keyed.mem_of_mem_canonical nameCompare hm)

theorem ofMembers_of_ascending (h : Keyed.Ascending nameCompare members) :
    ofMembers members = .object members :=
  congrArg Json.object (Keyed.canonical_of_ascending nameCompare h)

theorem depth_ofMembers_le {n : Nat} (h : ∀ m ∈ members, m.2.depth ≤ n) :
    (ofMembers members).depth ≤ n + 1 := by
  rw [ofMembers, depth, depthMembers_eq]
  refine Nat.succ_le_succ (depthItems_le_iff.mpr (List.forall_mem_map.mpr fun m hm => ?_))
  exact h m (Keyed.mem_of_mem_canonical nameCompare hm)

/-! ### What one step puts together -/

/-- Ordered names and no more containers around a value than there is room for. -/
structure WellRead (room : Nat) (doc : Json) : Prop where
  ordered : doc.Ordered
  depth_le : doc.depth ≤ room

theorem WellRead.scalar (h : doc.isScalar = true) : WellRead room doc :=
  ⟨ordered_of_isScalar h, by rw [depth_of_isScalar h]; exact Nat.zero_le room⟩

theorem WellRead.array (h : ∀ v ∈ items, WellRead room v) : WellRead (room + 1) (.array items) := by
  refine ⟨ordered_array fun v hv => (h v hv).ordered, ?_⟩
  rw [depth]
  exact Nat.succ_le_succ (depthItems_le_iff.mpr fun v hv => (h v hv).depth_le)

theorem WellRead.ofMembers (h : ∀ m ∈ members, WellRead room m.2) :
    WellRead (room + 1) (ofMembers members) :=
  ⟨ordered_ofMembers fun m hm => (h m hm).ordered, depth_ofMembers_le fun m hm => (h m hm).depth_le⟩

theorem WellRead.finish (h : ∀ m ∈ members, WellRead room m.2)
    (hf : finishMembers members = some doc) : WellRead (room + 1) doc := by
  unfold finishMembers at hf
  split at hf
  · cases hf
    exact .ofMembers nofun
  · split at hf
    · split at hf
      · obtain ⟨n, -, rfl⟩ := Option.map_eq_some_iff.mp hf
        exact .scalar rfl
      · cases hf
    · cases hf
      exact .ofMembers h

/-! ### Reading -/

/-- Within the bound only such documents are read. -/
structure ReadsWell (fuel : Nat) : Prop where
  value : ∀ {room cs r}, readValue fuel room cs = some r → WellRead room r.1
  items : ∀ {room acc cs r}, (∀ v ∈ acc, WellRead room v) →
    readItems fuel room acc cs = some r → WellRead (room + 1) r.1
  members : ∀ {room acc cs r}, (∀ m ∈ acc, WellRead room m.2) →
    readMembers fuel room acc cs = some r → WellRead (room + 1) r.1

theorem ReadsWell.readValue (ih : ReadsWell fuel) {cs : List Char} {r : Json × List Char}
    (h : readValue (fuel + 1) room cs = some r) : WellRead room r.1 := by
  rw [Json.readValue] at h
  split at h
  · cases h; exact .scalar rfl
  · cases h; exact .scalar rfl
  · cases h; exact .scalar rfl
  · obtain ⟨s, -, rfl⟩ := Option.map_eq_some_iff.mp h
    exact .scalar rfl
  · cases room with
    | zero => cases h
    | succ room =>
        rw [if_neg (Nat.succ_ne_zero room)] at h
        split at h
        · cases h
          exact .array nofun
        · exact ih.items (List.forall_mem_nil _) h
  · cases room with
    | zero => cases h
    | succ room =>
        rw [if_neg (Nat.succ_ne_zero room)] at h
        split at h
        · cases h
          exact .ofMembers nofun
        · exact ih.members (List.forall_mem_nil _) h
  · obtain ⟨n, -, rfl⟩ := Option.map_eq_some_iff.mp h
    exact .scalar rfl

theorem ReadsWell.readItems (ih : ReadsWell fuel) {acc : List Json} {cs : List Char}
    {r : Json × List Char} (hacc : ∀ v ∈ acc, WellRead room v)
    (h : readItems (fuel + 1) room acc cs = some r) : WellRead (room + 1) r.1 := by
  rw [Json.readItems] at h
  split at h
  · cases h
  · next v cs hv =>
      have hall : ∀ w ∈ v :: acc, WellRead room w := List.forall_mem_cons.mpr ⟨ih.value hv, hacc⟩
      split at h
      · exact ih.items hall h
      · cases h
        exact .array fun w hw => hall w (List.mem_reverse.mp hw)
      · cases h

theorem ReadsWell.readMembers (ih : ReadsWell fuel) {acc : List (String × Json)} {cs : List Char}
    {r : Json × List Char} (hacc : ∀ m ∈ acc, WellRead room m.2)
    (h : readMembers (fuel + 1) room acc cs = some r) : WellRead (room + 1) r.1 := by
  rw [Json.readMembers] at h
  split at h
  · split at h
    · cases h
    · next k cs hk =>
        split at h
        · split at h
          · cases h
          · next v cs hv =>
              have hall : ∀ m ∈ (k, v) :: acc, WellRead room m.2 :=
                List.forall_mem_cons.mpr ⟨ih.value hv, hacc⟩
              split at h
              · exact ih.members hall h
              · obtain ⟨doc, hdoc, rfl⟩ := Option.map_eq_some_iff.mp h
                exact .finish (fun m hm => hall m (List.mem_reverse.mp hm)) hdoc
              · cases h
        · cases h
  · cases h

theorem readsWell (fuel : Nat) : ReadsWell fuel := by
  induction fuel with
  | zero => exact ⟨nofun, fun _ => nofun, fun _ => nofun⟩
  | succ fuel ih => exact ⟨ih.readValue, ih.readItems, ih.readMembers⟩

/-- A document that is read from a text has ordered names and does not nest too deep. -/
theorem wellRead_of_read {text : String} (h : read text = some doc) : WellRead maxNesting doc := by
  unfold read at h
  split at h
  · next hv =>
      split at h
      · cases h
        exact (readsWell _).value hv
      · cases h
  · cases h

end PackedTree.Json
