import PackedTree.Container.Lookup
import PackedTree.Proofs.MemberPieces

/-! # Looking up a key

The value of a key is looked up by a binary search whose probes decode keys.  Whatever the container
holds, a value that is found belongs to a pair with the key (`search_sound`); a key that no pair has
is not found (`search_of_not_mem`); and where the keys ascend strictly, the search ends at the pair
with the key, whatever its value reads as (`search_of_getElem`).

An object that was packed has ascending keys, and the value at a key is that of the pair written
last (`Value.lookup?_of_last?_some`).  `lookup_finds_last` states all of this together. -/

namespace PackedTree

namespace Container

variable {c : Container} {key : Bytes} {x : Value} {i lo hi : Nat}

/-! ### What a search finds -/

theorem keyAt_eq_ok_iff {k : Bytes} : c.keyAt i = .ok k ↔ c.child i = .ok (.string k) := by
  simp only [keyAt, bind, Except.bind]
  cases c.child i with
  | error f => simp
  | ok v => cases v <;> simp

/-- What a search finds is the value of a pair with the key, in any container. -/
theorem search_sound (h : c.search key lo hi = .ok (some x)) :
    ∃ i < hi, c.child i = .ok (.string key) ∧ c.child (i + c.len) = .ok x := by
  fun_induction search c key lo hi with
  | case1 => cases h
  | case2 lo hi hlt mid k hk hcmp =>
      obtain rfl := Bytes.keyCompare_eq_iff.mp hcmp
      refine ⟨mid, by omega, keyAt_eq_ok_iff.mp hk, ?_⟩
      cases hv : c.child (mid + c.len) with
      | error f => rw [hv] at h; cases h
      | ok v => rw [hv] at h; cases h; rfl
  | case3 lo hi hlt mid k hk hcmp ih => exact ih h
  | case4 lo hi hlt mid k hk hcmp ih =>
      obtain ⟨i, hi, hpair⟩ := ih h
      exact ⟨i, by omega, hpair⟩
  | case5 => cases h

/-! ### Searching known keys -/

section Keys

variable {keys : List Bytes}

theorem lt_of_ascending (hasc : keys.Pairwise fun k l => Bytes.keyCompare k l = .lt) {a b : Nat}
    (ha : a < keys.length) (hb : b < keys.length)
    (h : Bytes.keyCompare keys[a] keys[b] = .lt) : a < b := by
  rcases Nat.lt_trichotomy a b with hlt | rfl | hgt
  · exact hlt
  · cases h.symm.trans (Bytes.keyCompare_eq_iff.mpr rfl)
  · have hba := List.pairwise_iff_getElem.mp hasc b a hb ha hgt
    rw [Std.OrientedCmp.gt_of_lt hba] at h
    cases h

variable
  (hkeys : ∀ (i : Nat) (h : i < keys.length), c.child i = .ok (.string keys[i]))
include hkeys

/-- A key that is not there is not found, in whatever order the keys stand. -/
theorem search_of_not_mem (hn : key ∉ keys) (hhi : hi ≤ keys.length) :
    c.search key lo hi = .ok none := by
  fun_induction search c key lo hi with
  | case1 lo hi hlt mid f hf =>
      have hmid : mid < keys.length := by omega
      cases hf.symm.trans (keyAt_eq_ok_iff.mpr (hkeys mid hmid))
  | case2 lo hi hlt mid k hk hcmp =>
      have hmid : mid < keys.length := by omega
      have hkey := (keyAt_eq_ok_iff.mp hk).symm.trans (hkeys mid hmid)
      cases hkey
      exact absurd (Bytes.keyCompare_eq_iff.mp hcmp ▸ List.getElem_mem hmid) hn
  | case3 lo hi hlt mid k hk hcmp ih => exact ih hhi
  | case4 lo hi hlt mid k hk hcmp ih => exact ih (by omega)
  | case5 => rfl

/-- Among strictly ascending keys the search ends at the position of the key, if that is within its
bounds. -/
theorem search_of_getElem (hasc : keys.Pairwise fun k l => Bytes.keyCompare k l = .lt)
    (hlen : i < keys.length) (hkey : keys[i] = key) (hlo : lo ≤ i) (hi' : i < hi)
    (hhi : hi ≤ keys.length) : c.search key lo hi = (c.child (i + c.len)).map some := by
  subst hkey
  fun_induction search c keys[i] lo hi with
  | case1 lo hi hlt mid f hf =>
      have hmid : mid < keys.length := by omega
      cases hf.symm.trans (keyAt_eq_ok_iff.mpr (hkeys mid hmid))
  | case2 lo hi hlt mid k hk hcmp =>
      have hmid : mid < keys.length := by omega
      cases (keyAt_eq_ok_iff.mp hk).symm.trans (hkeys mid hmid)
      have hsame := Bytes.keyCompare_eq_iff.mp hcmp
      obtain rfl := (Keyed.nodup_of_pairwise _ hasc).getElem_inj_iff.mp hsame
      rfl
  | case3 lo hi hlt mid k hk hcmp ih =>
      have hmid : mid < keys.length := by omega
      cases (keyAt_eq_ok_iff.mp hk).symm.trans (hkeys mid hmid)
      exact ih (lt_of_ascending hasc hmid hlen hcmp) hi' hhi
  | case4 lo hi hlt mid k hk hcmp ih =>
      have hmid : mid < keys.length := by omega
      cases (keyAt_eq_ok_iff.mp hk).symm.trans (hkeys mid hmid)
      exact ih hlo (lt_of_ascending hasc hlen hmid (Std.OrientedCmp.lt_of_gt hcmp)) (by omega)
  | case5 lo hi hge => omega

end Keys

/-- The container is an object, and its keys read as the given ones. -/
structure HasKeys (c : Container) (keys : List Bytes) : Prop where
  isObject : c.isObject = true
  len : keys.length = c.len
  child : ∀ (i : Nat) (h : i < keys.length), c.child i = .ok (.string keys[i])

section HasKeys

variable {keys : List Bytes} (h : c.HasKeys keys)
include h

theorem HasKeys.lookup?_of_not_mem (hn : key ∉ keys) : c.lookup? key = .ok none := by
  rw [lookup?, if_pos h.isObject, ← h.len]
  exact search_of_not_mem h.child hn (Nat.le_refl _)

theorem HasKeys.lookup?_of_getElem (hasc : keys.Pairwise fun k l => Bytes.keyCompare k l = .lt)
    (hlen : i < keys.length) (hkey : keys[i] = key) :
    c.lookup? key = (c.child (i + c.len)).map some := by
  rw [lookup?, if_pos h.isObject]
  exact search_of_getElem h.child hasc hlen hkey (Nat.zero_le _) (h.len ▸ hlen)
    (Nat.le_of_eq h.len.symm)

theorem HasKeys.lookup?_eq_none_iff
    (hasc : keys.Pairwise fun k l => Bytes.keyCompare k l = .lt) :
    c.lookup? key = .ok none ↔ key ∉ keys := by
  refine ⟨fun hnone hm => ?_, h.lookup?_of_not_mem⟩
  obtain ⟨i, hlen, hkey⟩ := List.getElem_of_mem hm
  rw [h.lookup?_of_getElem hasc hlen hkey] at hnone
  cases hv : c.child (i + c.len) <;> rw [hv] at hnone <;> cases hnone

end HasKeys

theorem lookup?_sound (ho : c.isObject = true) (h : c.lookup? key = .ok (some x)) :
    ∃ i < c.len, c.child i = .ok (.string key) ∧ c.child (i + c.len) = .ok x := by
  rw [lookup?, if_pos ho] at h
  exact search_sound h

end Container

namespace Value

variable {v : Value} {pairs : List (Bytes × Value)} {level : Nat} {c : Container} {key : Bytes}

theorem StoredIn.hasKeys (h : v.StoredIn c) (ho : c.isObject = true) : c.HasKeys v.keys := by
  obtain ⟨ps, -, hl⟩ := h.pieces
  have hcount := h.entryCount
  rw [Container.entryCount_of_object ho, h.len] at hcount
  refine ⟨ho, by rw [h.len]; omega, fun i hi => ?_⟩
  have hlt : i < (v.keys.map Piece.ofString).length := by rwa [List.length_map]
  have hchild := hl.child (i := i) (by rw [List.length_append]; omega)
  rw [Nat.zero_add, List.getElem_append_left hlt, List.getElem_map] at hchild
  exact hchild

theorem ascending_keys (pairs : List (Bytes × Value)) :
    ((kept pairs).map Prod.fst).Pairwise fun k l => Bytes.keyCompare k l = .lt :=
  (Keyed.ascending_iff_keys _).mp (Keyed.ascending_written Bytes.keyCompare pairs)

/-- In an object that was packed, a key that no pair has is not found. -/
theorem lookup?_of_last?_none (hv : (Value.object pairs).isTree = true)
    (h : packPairs pairs level = .ok c)
    (hlast : Keyed.last? Bytes.keyCompare key pairs = none) : c.lookup? key = .ok none := by
  have hstored := storedIn_of_packPairs (packPairs_of_le hv h (Nat.zero_le level))
  refine (hstored.hasKeys (isObject_of_packPairs h)).lookup?_of_not_mem fun hm => ?_
  obtain ⟨p, hp, rfl⟩ := List.mem_map.mp hm
  cases hlast.symm.trans ((Keyed.mem_written_iff Bytes.keyCompare pairs p).mp hp)

/-- In an object that was packed, a key leads to the value of the pair written last. -/
theorem lookup?_of_last?_some (hv : (Value.object pairs).isTree = true)
    (h : packPairs pairs level = .ok c) {q : Bytes × Value}
    (hlast : Keyed.last? Bytes.keyCompare key pairs = some q) :
    ∃ x, c.lookup? key = .ok (some x) ∧ q.2.canonicalMember.HeldAs x := by
  have hstored := storedIn_of_packPairs (packPairs_of_le hv h (Nat.zero_le level))
  have hkeys := hstored.hasKeys (isObject_of_packPairs h)
  obtain rfl := Bytes.keyCompare_eq_iff.mp (Keyed.mem_of_last? Bytes.keyCompare hlast).2
  have hmem : q ∈ kept pairs := (Keyed.mem_written_iff Bytes.keyCompare pairs q).mpr hlast
  have htree := isTree_of_mem_pairs hv (mem_of_mem_kept hmem)
  obtain ⟨i, hi, rfl⟩ := List.getElem_of_mem hmem
  have hkey : i < ((kept pairs).map Prod.fst).length := by rwa [List.length_map]
  have hvalue : i < ((kept pairs).map Prod.snd).length := by rwa [List.length_map]
  obtain ⟨x, hx, hheld⟩ := hstored.exists_child hv hvalue
  have hmember : (Value.object pairs).members[i] = (kept pairs)[i].2 := List.getElem_map _
  rw [hmember] at hheld
  refine ⟨x, ?_, hheld.canonicalMember htree⟩
  rw [hkeys.lookup?_of_getElem (ascending_keys pairs) hkey (List.getElem_map _), ← hkeys.len,
    Nat.add_comm, hx]
  rfl

end Value

namespace Container

/-- In any object a value that is found is that of a pair with the key.  If the keys are strings
that ascend strictly, a key is missed exactly if no pair has it, and otherwise its value is read.
So in an object that was packed, the lookup of a key never fails: it yields the value of the pair
that was written last, or nothing if there is none. -/
theorem lookup_finds_last (key : Bytes) :
    (∀ (c : Container) (x : Value), c.isObject = true → c.lookup? key = .ok (some x) →
      ∃ i < c.len, c.child i = .ok (.string key) ∧ c.child (i + c.len) = .ok x) ∧
    (∀ (c : Container) (keys : List Bytes), c.HasKeys keys →
      keys.Pairwise (fun k l => Bytes.keyCompare k l = .lt) →
      (c.lookup? key = .ok none ↔ key ∉ keys) ∧
        ∀ (i : Nat) (hi : i < keys.length), keys[i] = key →
          c.lookup? key = (c.child (i + c.len)).map some) ∧
    ∀ (pairs : List (Bytes × Value)) (c : Container), (Value.object pairs).isTree = true →
      (Value.object pairs).pack = .ok c →
      (Keyed.last? Bytes.keyCompare key pairs = none → c.lookup? key = .ok none) ∧
        ∀ p, Keyed.last? Bytes.keyCompare key pairs = some p →
          ∃ x, c.lookup? key = .ok (some x) ∧ p.2.canonicalMember.HeldAs x := by
  refine ⟨fun c x => lookup?_sound, fun c keys h hasc => ?_, fun pairs c hv h => ?_⟩
  · exact ⟨h.lookup?_eq_none_iff hasc, fun i => h.lookup?_of_getElem hasc⟩
  · rw [Value.pack, Value.pairPieces_eq_map] at h
    have hpairs : Value.packPairs pairs 0 = .ok c := h
    exact ⟨Value.lookup?_of_last?_none hv hpairs, fun p => Value.lookup?_of_last?_some hv hpairs⟩

/-- Of a repeated key the value written last is found, and an absent key between two others is
not. -/
theorem lookup_finds_last_repeated_key :
    let pairs : List (Bytes × Value) :=
      [([99], .null), ([97], .array false [.bool true]), ([99], .array true [.string [120]])]
    ∃ c, (Value.object pairs).pack = .ok c ∧ c.HasKeys [[97], [99]] ∧
      c.lookup? [99] = .ok (some (.string [120])) ∧
      (∃ i < c.len, c.child i = .ok (.string [99]) ∧ c.child (i + c.len) = .ok (.string [120])) ∧
      c.lookup? [98] = .ok none ∧
      ∃ d, c.lookup? [97] = .ok (some (.binary d)) ∧
        (Value.array false [.bool true]).pack = .ok d := by
  intro pairs
  let c : Container := ⟨⟨.object, 2, by decide, by decide⟩,
    [2147483649, 1, 1342177290, 1], [97, 99, 0, 0, 1, 0, 0, 64, 0, 0, 0, 176, 120], rfl⟩
  have hc : (Value.object pairs).pack = .ok c := by cbv
  have hkeys : c.HasKeys [[97], [99]] := by
    refine ⟨rfl, rfl, fun i hi => ?_⟩
    have hlt : i < 2 := hi
    obtain rfl | rfl : i = 0 ∨ i = 1 := by omega
    · cbv
    · cbv
  have hlast : Keyed.last? Bytes.keyCompare [99] pairs =
      some ([99], .array true [.string [120]]) := by cbv
  have harray : Keyed.last? Bytes.keyCompare [97] pairs =
      some ([97], .array false [.bool true]) := by cbv
  obtain ⟨hsound, -, hpacked⟩ := lookup_finds_last [99]
  obtain ⟨x, hx, hheld⟩ := (hpacked pairs c rfl hc).2 _ hlast
  obtain ⟨y, hy, hheld'⟩ := ((lookup_finds_last [97]).2.2 pairs c rfl hc).2 _ harray
  have hnone := ((lookup_finds_last [98]).2.1 c _ hkeys (by decide)).1.mpr (by decide)
  have hstring : (Value.array true [.string [120]]).canonicalMember = .string [120] := by cbv
  have helems : (Value.array false [.bool true]).canonicalMember = .array false [.bool true] := by
    cbv
  rw [hstring] at hheld
  rw [helems] at hheld'
  cases hheld with
  | container hv => cases hv
  | scalar =>
      cases hheld' with
      | scalar hv => cases hv
      | container _ hd => exact ⟨c, hc, hkeys, hx, hsound c _ rfl hx, hnone, _, hy, hd⟩

end Container

end PackedTree
