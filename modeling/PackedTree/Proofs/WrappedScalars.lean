import PackedTree.Proofs.MemberPieces
import PackedTree.Proofs.PackedMembers

/-! # What a wrapper is packed around

A value packs to a raw container when it is a scalar, or when it holds one in wrappers
(`Value.packRaw_of_isRaw`).  Around the wrappers of a tree there is only one way to see that.  A
packed wrapper, though, is taken at its word: `holdsScalar` looks at its header, while packing
unwraps what it contains, so that the scalar read back is what the packed wrapper unwraps to
(`scalar?_of_pack`).  That is a scalar again, unless the packed wrapper was made around a container
(`scalar?_of_pack_forged`). -/

namespace PackedTree.Value

variable {v x : Value} {level : Nat} {c : Container} {p : Piece}

/-- Wrappers count as containers, but they do not change the piece. -/
theorem exists_piece_bare (v : Value) (level : Nat) : ∃ l, v.piece level = v.bare.piece l := by
  fun_induction bare v generalizing level with
  | case1 v ih =>
      rw [piece]
      exact ih (level + 1)
  | case2 v => exact ⟨level, rfl⟩

theorem packRaw_of_isRaw (hb : ∀ b, v ≠ .binary b) (h : v.pack = .ok c) (hr : c.isRaw = true) :
    ∃ w : Value, w.bare = v.bare ∧ w.holdsScalar = true ∧
      Container.packRaw (w.piece 1) = .ok c := by
  cases v with
  | null | bool | number | string =>
      rw [(pack_scalar rfl).1] at h
      exact ⟨_, rfl, rfl, h⟩
  | array raw elems =>
      cases raw with
      | true =>
          obtain ⟨w, rfl, hs, h⟩ := pack_raw h
          exact ⟨w, (bare_raw w).symm, hs, h⟩
      | false =>
          rw [pack] at h
          obtain ⟨-, -, hshape, -⟩ := Container.packArray_spec h
          rw [Container.isRaw, hshape] at hr
          cases hr
  | object pairs =>
      rw [pack] at h
      obtain ⟨-, -, hshape, -⟩ := Container.packObject_spec h
      rw [Container.isRaw, hshape] at hr
      cases hr
  | binary b => exact absurd rfl (hb b)

/-- What holds a scalar has the piece of that scalar, or of what a packed wrapper unwraps to. -/
theorem leafPiece_of_holdsScalar (hs : v.holdsScalar = true) (hp : v.piece level = .ok p) :
    ∃ x, x.leafPiece = .ok p ∧ (v.bare.isScalar = true → x = v.bare) ∧
      ∀ b, v.bare = .binary b → b.unwrapped = .ok x := by
  obtain ⟨l, hl⟩ := v.exists_piece_bare level
  rw [hl] at hp
  rcases bare_of_holdsScalar hs with hscalar | ⟨b, hb, -⟩
  · rw [piece_eq_leafPiece hscalar] at hp
    refine ⟨v.bare, hp, fun _ => rfl, fun b hb => ?_⟩
    rw [hb] at hscalar
    cases hscalar
  · rw [hb, piece] at hp
    cases hu : b.unwrapped with
    | error f => rw [hu] at hp; cases hp
    | ok x =>
        rw [hu] at hp
        refine ⟨x, hp, fun hscalar => ?_, fun b' hb' => ?_⟩
        · rw [hb] at hscalar
          cases hscalar
        · cases hb.symm.trans hb'
          exact hu

/-- Where a value that is not packed yet becomes a wrapper, what the wrapper holds can be read: the
scalar that the value holds, or what the packed wrapper in it unwraps to.  It is a scalar unless
such a packed wrapper was made around a container. -/
theorem scalar?_of_pack (hb : ∀ b, v ≠ .binary b) (h : v.pack = .ok c) (hr : c.isRaw = true) :
    ∃ x, c.scalar? = .ok (some x) ∧ (v.bare.isScalar = true → x = v.bare) ∧
      (∀ b, v.bare = .binary b → b.unwrapped = .ok x) ∧
      (x.isScalar = true ↔ ∀ b n, v.bare = .binary b → b.unwrapped ≠ .ok (.binary n)) := by
  obtain ⟨w, hbare, hs, h⟩ := packRaw_of_isRaw hb h hr
  obtain ⟨-, p, hp, hl⟩ := Container.packRaw_spec h
  obtain ⟨x, hx, hscalar, hbinary⟩ := leafPiece_of_holdsScalar hs hp
  rw [hbare] at hscalar hbinary
  have hchild : c.child 0 = .ok x := by
    have hchild := hl.child (i := 0) (Nat.lt_succ_self 0)
    rw [Nat.zero_add] at hchild
    exact hchild.trans (decode_of_leafPiece hx)
  refine ⟨x, ?_, hscalar, hbinary, ?_⟩
  · rw [Container.scalar?, if_pos hr, hchild]
    rfl
  · constructor
    · intro hxs b n hb hn
      cases (hbinary b hb).symm.trans hn
      cases hxs
    · intro hno
      rcases Container.child_cases hchild with hxs | ⟨n, rfl, -⟩
      · exact hxs
      · -- A container is not the bare scalar, so it comes out of a packed wrapper.
        rcases bare_of_holdsScalar hs with hsw | ⟨b, hbin, -⟩
        · rw [hbare] at hsw
          cases (hscalar hsw) ▸ hsw
        · rw [hbare] at hbin
          exact absurd (hbinary b hbin) (hno b n hbin)

/-- A string in a packed wrapper in two others is the scalar of the wrapper that they pack to. -/
theorem scalar?_of_pack_nested :
    let b : Container := ⟨⟨.raw, 1, by decide, fun _ => rfl⟩, [2147483649], [120], rfl⟩
    let v : Value := .array true [.array true [.binary b]]
    v.pack = .ok b ∧ b.scalar? = .ok (some (.string [120])) := by
  intro b v
  have hchild : b.child 0 = .ok (.string [120]) := by cbv
  have hu : b.unwrapped = .ok (.string [120]) := unwrapped_of_scalar_child rfl hchild rfl
  have hc : v.pack = .ok b := by
    show Container.packRaw ((Value.array true [.binary b]).piece 1) = .ok b
    rw [piece, piece, hu]
    cbv
  have hb : ∀ b, v ≠ .binary b := by simp [v]
  obtain ⟨x, hx, -, hbinary, -⟩ := scalar?_of_pack hb hc rfl
  obtain rfl : Value.string [120] = x := Except.ok.inj (hu.symm.trans (hbinary b rfl))
  exact ⟨hc, hx⟩

/-- A wrapper whose bytes were made around an empty array is taken for one around a scalar, and so
the wrapper around it holds the array. -/
theorem scalar?_of_pack_forged :
    ∃ (b c n : Container), Container.ofBytes [1, 0, 0, 80, 4, 0, 0, 208, 0, 0, 0, 64] = .ok b ∧
      (Value.array true [.binary b]).pack = .ok c ∧ c.isRaw = true ∧
      c.scalar? = .ok (some (.binary n)) := by
  let n : Container := ⟨⟨.array, 0, by decide, by decide⟩, [], [], rfl⟩
  let b : Container := ⟨⟨.raw, 1, by decide, fun _ => rfl⟩, [3489660932], [0, 0, 0, 64], rfl⟩
  have hb : Container.ofBytes [1, 0, 0, 80, 4, 0, 0, 208, 0, 0, 0, 64] = .ok b := by cbv
  have hchild : b.child 0 = .ok (.binary n) := by cbv
  have hu : b.unwrapped = .ok (.binary n) := by
    have hr : b.isRaw = true := rfl
    rw [Container.unwrapped, if_pos hr]
    split
    · next m hm =>
        cases hchild.symm.trans hm
        exact unwrapped_of_not_raw rfl
    · next hm => exact absurd hchild (hm n)
  have hc : (Value.array true [.binary b]).pack = .ok b := by
    show Container.packRaw ((Value.binary b).piece 1) = .ok b
    rw [piece, hu]
    cbv
  refine ⟨b, b, n, hb, hc, rfl, ?_⟩
  show (b.child 0).map some = _
  rw [hchild]
  rfl

end PackedTree.Value
