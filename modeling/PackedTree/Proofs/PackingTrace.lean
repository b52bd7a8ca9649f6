import Mathlib.Data.List.Forall2
import PackedTree.Proofs.PackingMembers

/-! # A packed value tells its canonical form

The layout of a container stores a piece for every member, and `Piece.Tells p w` says that the
piece, read back, tells the value `w` in whatever place it stands.  The piece of a member tells
its canonical form (`tells_piece`), and so the trace of a packed value is the telling of the
canonical form of the value (`trace_of_pack`). -/

namespace PackedTree

/-- Read back, the piece tells the value in whatever place it stands. -/
def Piece.Tells (p : Piece) (w : Value) : Prop :=
  ∃ x, Container.decode p.tag p.content = .ok x ∧
    ∀ slot, x.told Container.entered slot = w.trace slot

/-! ### Containers of pieces -/

namespace Container

variable {c : Container} {i o : Nat} {ps : List Piece}

theorem elemsFrom_of_lies {ws : List Value} (hl : c.Lies i o ps)
    (ht : List.Forall₂ Piece.Tells ps ws) :
    c.elemsFrom entered (List.range' i ws.length) =
      (Value.traceElems ws).append (.next .endArray .finished) := by
  induction ht generalizing i o with
  | nil => rfl
  | @cons p w ps ws hp hps ih =>
      cases hl with
      | cons hs hl =>
          obtain ⟨x, hx, htold⟩ := hp
          rw [List.length_cons, List.range'_succ, elemsFrom_cons, hs.child, hx]
          show (x.told entered .elem).append _ = _
          rw [ih hl, htold, Value.traceElems, Trace.append_assoc]

/-- The keys and the values of an object stand at positions that are `len` apart. -/
theorem pairsFrom_of_lies {pairs : List (Bytes × Value)} {qs : List Piece} {o' : Nat}
    (hk : c.Lies i o (keyPieces pairs ++ qs)) (hv : c.Lies (i + c.len) o' ps)
    (ht : List.Forall₂ Piece.Tells ps (pairs.map Prod.snd)) :
    c.pairsFrom entered (List.range' i pairs.length) =
      (Value.tracePairs pairs).append (.next .endObject .finished) := by
  induction pairs generalizing i o o' ps with
  | nil => rfl
  | cons pair pairs ih =>
      obtain ⟨k, w⟩ := pair
      cases ht with
      | cons hp hps =>
          cases hk with
          | cons hsk hk =>
              cases hv with
              | cons hsv hv =>
                  obtain ⟨x, hx, htold⟩ := hp
                  rw [Nat.add_right_comm] at hv
                  rw [List.length_cons, List.range'_succ, pairsFrom_cons, hsk.child]
                  show Trace.next (.key k) _ = _
                  rw [valueFrom, hsv.child, hx]
                  show Trace.next (.key k) ((x.told entered .value).append _) = _
                  rw [ih hk hv hps, htold, Value.tracePairs, Trace.append, Trace.append_assoc]

theorem trace_of_elems {ws : List Value} (ho : c.isObject = false) (hlen : c.len = ws.length)
    (hl : c.Lies 0 0 ps) (ht : List.Forall₂ Piece.Tells ps ws) :
    c.trace = .next (.beginArray ws.length c.isRaw)
      ((Value.traceElems ws).append (.next .endArray .finished)) := by
  rw [trace_eq_walkWith, walkWith_of_array ho, hlen, List.range_eq_range',
    elemsFrom_of_lies hl ht]

theorem trace_of_pairs {pairs : List (Bytes × Value)} (ho : c.isObject = true)
    (hlen : c.len = pairs.length) (hl : c.Lies 0 0 (keyPieces pairs ++ ps))
    (ht : List.Forall₂ Piece.Tells ps (pairs.map Prod.snd)) :
    c.trace = .next (.beginObject pairs.length)
      ((Value.tracePairs pairs).append (.next .endObject .finished)) := by
  obtain ⟨o', hv⟩ := hl.append
  rw [keyPieces, List.length_map, ← hlen] at hv
  have hs : c.start c.len = .ok o' := by
    have h := hv.start
    rwa [Nat.zero_add] at h
  rw [trace_eq_walkWith, walkWith_of_object ho, hs, hlen, List.range_eq_range',
    ← pairsFrom_of_lies hl hv ht]

/-- A container that tells a value is a piece that tells it. -/
theorem tells_bytes {w : Value} (h : ∀ slot, c.trace = w.trace slot) :
    (Piece.ofContainer c).Tells w := by
  refine ⟨.binary c, ?_, h⟩
  simp only [Piece.ofContainer, decode, ofBytes_bytes, Except.map]

end Container

namespace Value

theorem forall₂_of_map_eq {α β : Type} {f : α → Except Fault β} {R : β → α → Prop}
    {as : List α} {bs : List β} (h : as.map f = bs.map .ok)
    (hR : ∀ a ∈ as, ∀ b, f a = .ok b → R b a) : List.Forall₂ R bs as := by
  induction as generalizing bs with
  | nil =>
      cases List.map_eq_nil_iff.mp h.symm
      exact .nil
  | cons a as ih =>
      obtain ⟨b, bs, rfl, hb, hbs⟩ := List.map_eq_cons_iff.mp h.symm
      obtain ⟨ha, has⟩ := List.forall_mem_cons.mp hR
      exact .cons (ha b hb.symm) (ih hbs.symm has)

/-! ### Members -/

variable {elems : List Value} {pairs : List (Bytes × Value)} {level : Nat} {c : Container}
  {p : Piece}

theorem decode_leafPiece {v : Value} (hv : v.isScalar = true) (hp : v.leafPiece = .ok p) :
    Container.decode p.tag p.content = .ok v := by
  cases v with
  | null => cases hp; rfl
  | bool b => cases b <;> cases hp <;> rfl
  | string s => cases hp; rfl
  | number d =>
      simp only [leafPiece] at hp
      split at hp
      · next hd =>
          cases hp
          simp only [Container.decode, Decimal.ofBytes?_bytes hd]
      · cases hp
  | _ => cases hv

theorem tells_leafPiece {v : Value} (hv : v.isScalar = true) (hp : v.leafPiece = .ok p) :
    p.Tells v := by
  refine ⟨v, decode_leafPiece hv hp, fun slot => ?_⟩
  rw [told_of_isScalar hv, trace_of_isScalar hv]

theorem trace_of_packElems (h : packElems elems level = .ok c)
    (ih : ∀ v ∈ elems, ∀ p, v.piece (level + 1) = .ok p → p.Tells v.canonicalMember)
    (slot : Slot) : c.trace = (Value.array false (elems.map canonicalMember)).trace slot := by
  obtain ⟨-, -, hshape, hlen, ps, hps, hl⟩ := Container.packArray_spec h
  have ht : List.Forall₂ Piece.Tells ps (elems.map canonicalMember) := by
    rw [List.forall₂_map_right_iff]
    exact forall₂_of_map_eq hps ih
  have hlen' : c.len = (elems.map canonicalMember).length := by
    rw [hlen, List.length_map, List.length_map]
  have ho : c.isObject = false := by rw [Container.isObject, hshape]; rfl
  have hr : c.isRaw = false := by rw [Container.isRaw, hshape]; rfl
  rw [Container.trace_of_elems ho hlen' hl ht, hr, trace_array]

theorem trace_of_packPairs (h : packPairs pairs level = .ok c)
    (ih : ∀ q ∈ kept pairs, ∀ p, q.2.piece (level + 1) = .ok p → p.Tells q.2.canonicalMember)
    (slot : Slot) : c.trace =
      (Value.object ((kept pairs).map fun q => (q.1, q.2.canonicalMember))).trace slot := by
  obtain ⟨-, -, hshape, hlen, ps, hps, hl⟩ := Container.packObject_spec h
  rw [canonical_map fun v => v.piece (level + 1)] at hlen hps hl
  generalize hws : ((kept pairs).map fun q => (q.1, q.2.canonicalMember)) = ws
  have ht : List.Forall₂ Piece.Tells ps (ws.map Prod.snd) := by
    rw [List.map_map] at hps
    rw [← hws, List.map_map, List.forall₂_map_right_iff]
    exact forall₂_of_map_eq hps ih
  have hk : Container.keyPieces ws =
      Container.keyPieces ((kept pairs).map fun q => (q.1, q.2.piece (level + 1))) := by
    rw [← hws]
    simp only [Container.keyPieces, List.map_map]
    rfl
  have hlen' : c.len = ws.length := by
    rw [hlen, ← hws, List.length_map, List.length_map]
  have ho : c.isObject = true := by rw [Container.isObject, hshape]; rfl
  rw [← hk] at hl
  rw [Container.trace_of_pairs ho hlen' hl ht, trace_object]

/-- The piece of a member tells its canonical form. -/
theorem tells_piece {v : Value} (hv : v.isTree = true) (hp : v.piece level = .ok p) :
    p.Tells v.canonicalMember := by
  refine piece_induction ?_ ?_ ?_ ?_ hv hp
  · intro v level p hs hp
    rw [canonicalMember_of_isScalar hs]
    exact tells_leafPiece hs hp
  · intro v level p ih
    rwa [canonicalMember_raw]
  · intro elems level c hc ih
    rw [canonicalMember_array]
    exact Container.tells_bytes (trace_of_packElems hc ih)
  · intro pairs level c hc ih
    rw [canonicalMember_object]
    exact Container.tells_bytes (trace_of_packPairs hc ih)

/-! ### Whole values -/

/-- The telling of a whole canonical value, in which the wrapper around a scalar is an array. -/
def rootTrace : Value → Trace
  | .array raw elems =>
      .next (.beginArray elems.length raw) ((traceElems elems).append (.next .endArray .finished))
  | v => v.trace .elem

theorem trace_of_packRaw {w : Value} (ht : p.Tells w) (h : Container.packRaw (.ok p) = .ok c) :
    c.trace = (Value.array true [w]).rootTrace := by
  obtain ⟨hshape, q, hq, hl⟩ := Container.packRaw_spec h
  cases hq
  have ho : c.isObject = false := by rw [Container.isObject, hshape]; rfl
  have hr : c.isRaw = true := by rw [Container.isRaw, hshape]; rfl
  have hlen : c.len = [w].length := c.header.len_raw hshape
  rw [Container.trace_of_elems ho hlen hl (.cons ht .nil), hr, rootTrace]

/-- A packed value tells the canonical form of the value. -/
theorem trace_of_pack {v : Value} (hv : v.isTree = true) (h : v.pack = .ok c) :
    c.trace = v.canonical.rootTrace := by
  cases packsTo_of_pack hv h with
  | scalar hw hs hp hc h =>
      rw [hc]
      exact trace_of_packRaw (tells_piece hw hp) h
  | array h =>
      rw [canonical_array, rootTrace, ← trace_array _ .elem]
      exact trace_of_packElems h (fun v hm p => tells_piece (isTree_of_mem_elems hv hm)) .elem
  | object h =>
      rw [canonical_object]
      refine trace_of_packPairs h (fun q hq p => tells_piece ?_) .elem
      exact isTree_of_mem_pairs hv (mem_of_mem_kept hq)

end Value

end PackedTree
