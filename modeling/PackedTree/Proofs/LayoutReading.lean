import PackedTree.Container.Layout
import PackedTree.Proofs.ContainerWalk

/-! # Reading what was laid out

`Container.Stores c i o p o'` says that child `i` of a container is the piece `p`, stored between
the offsets `o` and `o'` behind its padding, and `Container.Lies c i o ps` that the pieces `ps`
are the children from position `i` on and reach to the end of the payload.  A container that was
put together from pieces stores them in this way (`lies_of_ofPieces`), and reading a child gives
back the tag and the content of its piece, whatever stands around it (`Stores.child`). -/

namespace PackedTree.Container

/-- Child `i` is the piece `p`; it begins at `o`, with the padding, and ends at `o'`. -/
structure Stores (c : Container) (i o : Nat) (p : Piece) (o' : Nat) : Prop where
  start : c.start i = .ok o
  entry : ∃ d, c.entry i = .ok d ∧ d.tag = p.tag ∧ d.absolute = decide (i % stride = 0) ∧
    d.stop o = o'
  stop : o' = Bytes.alignUp o p.tag.align + p.content.length
  le : o' ≤ c.payload.length
  payload : c.payload.drop o =
    List.replicate (Bytes.padding o p.tag.align) 0 ++ (p.content ++ c.payload.drop o')

/-- The pieces are the children from position `i` on, and the payload ends with the last. -/
inductive Lies (c : Container) : Nat → Nat → List Piece → Prop
  | nil {i o : Nat} (hs : c.start i = .ok o) (ho : o = c.payload.length) : Lies c i o []
  | cons {i o o' : Nat} {p : Piece} {ps : List Piece} (hp : c.Stores i o p o')
      (ht : Lies c (i + 1) o' ps) : Lies c i o (p :: ps)

variable {c : Container} {i o o' : Nat} {p : Piece} {ps qs : List Piece}

/-! ### Reading -/

theorem extract_of_drop {b pad content rest : Bytes} {n : Nat}
    (h : b.drop n = pad ++ (content ++ rest)) :
    b.extract (n + pad.length) (n + pad.length + content.length) = content := by
  rw [List.extract_eq_take_drop, ← List.drop_drop, h, List.drop_left, Nat.add_sub_cancel_left,
    List.take_left]

theorem Stores.extent (h : c.Stores i o p o') :
    c.extent i o = .ok (p.tag, Bytes.alignUp o p.tag.align, o') := by
  obtain ⟨d, hd, ht, _, hs⟩ := h.entry
  have hle := h.le
  have hstop := h.stop
  have ha := Bytes.le_alignUp o p.tag.align_pos
  unfold Container.extent
  rw [hd]
  simp only [bind, Except.bind, ht, hs]
  rw [if_pos ⟨by omega, hle, by omega⟩]

theorem Stores.child (h : c.Stores i o p o') : c.child i = decode p.tag p.content := by
  have ha := Bytes.le_alignUp o p.tag.align_pos
  have hp : o + Bytes.padding o p.tag.align = Bytes.alignUp o p.tag.align := by
    unfold Bytes.padding
    omega
  have hx := extract_of_drop h.payload
  rw [List.length_replicate, hp, ← h.stop] at hx
  rw [child_of_start h.start, childAt, h.extent]
  show decode p.tag (c.payload.extract _ o') = _
  rw [hx]

theorem Lies.start (h : c.Lies i o ps) : c.start i = .ok o := by
  cases h with
  | nil hs ho => exact hs
  | cons hp ht => exact hp.start

theorem Lies.append (h : c.Lies i o (ps ++ qs)) : ∃ o', c.Lies (i + ps.length) o' qs := by
  induction ps generalizing i o with
  | nil => exact ⟨o, h⟩
  | cons p ps ih =>
      cases h with
      | cons hp ht =>
          obtain ⟨o', h'⟩ := ih ht
          refine ⟨o', ?_⟩
          rwa [List.length_cons, Nat.add_comm ps.length, ← Nat.add_assoc]

theorem Lies.stores {j : Nat} (h : c.Lies j o ps) (hi : i < ps.length) :
    ∃ o o', c.Stores (j + i) o ps[i] o' := by
  induction h generalizing i with
  | nil => cases hi
  | @cons j o o' p ps hp ht ih =>
      cases i with
      | zero => exact ⟨o, o', hp⟩
      | succ i =>
          obtain ⟨q, q', h⟩ := ih (Nat.lt_of_succ_lt_succ hi)
          rw [Nat.add_assoc, Nat.add_comm 1 i] at h
          exact ⟨q, q', h⟩

theorem Lies.child {j : Nat} (h : c.Lies j o ps) (hi : i < ps.length) :
    c.child (j + i) = decode ps[i].tag ps[i].content := by
  obtain ⟨o, o', hs⟩ := h.stores hi
  exact hs.child

/-! ### Laying out -/

theorem parts_of_make {tag : Tag} {field : Nat} {absolute : Bool} {d : Descriptor}
    (h : Descriptor.make tag field absolute = .ok d) :
    d.tag = tag ∧ d.absolute = absolute ∧ d.field = field := by
  unfold Descriptor.make at h
  split at h
  · cases h
    exact ⟨rfl, rfl, rfl⟩
  · cases h

/-- The descriptor of a piece has its tag and tells its end, in the form that the position
asks for. -/
theorem describe_spec {tooLarge : Fault} {d : Descriptor} (h : describe tooLarge i o p = .ok d) :
    d.tag = p.tag ∧ d.absolute = decide (i % stride = 0) ∧
      d.stop o = Bytes.alignUp o p.tag.align + p.content.length ∧ d.stop o ≤ maxField := by
  have ha := Bytes.le_alignUp o p.tag.align_pos
  have hp : o + (Bytes.padding o p.tag.align + p.content.length) =
      Bytes.alignUp o p.tag.align + p.content.length := by
    unfold Bytes.padding
    omega
  simp only [describe, bind, Except.bind] at h
  split at h
  · cases h
  · next r hr =>
      obtain ⟨htag, habs, hfield⟩ := parts_of_make (Piece.entry_eq_ok_iff.mp hr)
      have hstop : r.stop o = Bytes.alignUp o p.tag.align + p.content.length := by
        rw [Descriptor.stop, habs, hfield, ← hp]
        rfl
      split at h
      · cases h
      · next hmax =>
          split at h
          · next hi =>
              obtain ⟨htag', habs', hfield'⟩ := parts_of_make h
              have hstop' : d.stop o = r.stop o := by
                rw [Descriptor.stop, habs', hfield']
                rfl
              exact ⟨htag'.trans htag, by rw [habs', hi]; rfl, hstop'.trans hstop, by omega⟩
          · next hi =>
              cases h
              exact ⟨htag, by rw [habs, decide_eq_false hi], hstop, by omega⟩

theorem entry_of_drop {d : Descriptor} {words : List UInt32}
    (h : c.words.drop i = d.toWord :: words) :
    c.entry i = .ok d ∧ c.words.drop (i + 1) = words := by
  have hg : c.words[i]? = some d.toWord := by
    rw [← List.head?_drop, h]
    rfl
  refine ⟨?_, ?_⟩
  · unfold entry
    rw [hg]
    exact Descriptor.ofWord_toWord d
  · rw [← List.drop_drop, h]
    rfl

/-- A piece takes up the payload from its beginning to the stop of its descriptor. -/
theorem drop_stop {p : Piece} {n : Nat} {rest : Bytes}
    (hn : n = Bytes.alignUp o p.tag.align + p.content.length)
    (hp : c.payload.drop o =
      List.replicate (Bytes.padding o p.tag.align) 0 ++ (p.content ++ rest))
    (hl : o ≤ c.payload.length) : c.payload.drop n = rest ∧ n ≤ c.payload.length := by
  have ha := Bytes.le_alignUp o p.tag.align_pos
  have hsum : n = o + (Bytes.padding o p.tag.align + p.content.length) := by
    rw [hn, Bytes.padding]
    omega
  constructor
  · rw [hsum, ← List.drop_drop, hp, ← List.append_assoc]
    exact List.drop_left' (by simp)
  · have hlen := congrArg List.length hp
    simp only [List.length_drop, List.length_append, List.length_replicate] at hlen
    omega

/-- Where the directory and the payload of a container go on as a layout does, the pieces of the
layout are its children. -/
theorem lies_of_layOut {tooLarge : Fault} {pieces : List (Except Fault Piece)}
    {words : List UInt32} {payload : Bytes}
    (h : layOut tooLarge i o pieces = .ok (words, payload)) (hs : c.start i = .ok o)
    (hw : c.words.drop i = words) (hp : c.payload.drop o = payload)
    (hl : o ≤ c.payload.length) : ∃ ps, pieces = ps.map .ok ∧ c.Lies i o ps := by
  induction pieces generalizing i o words payload with
  | nil =>
      cases h
      refine ⟨[], rfl, .nil hs ?_⟩
      have := List.drop_eq_nil_iff.mp hp
      omega
  | cons piece pieces ih =>
      simp only [layOut, bind, Except.bind] at h
      split at h
      · cases h
      · next p =>
          split at h
          · cases h
          · next d hd =>
              split at h
              · cases h
              · next r hr =>
                  cases h
                  obtain ⟨htag, habs, hstop, -⟩ := describe_spec hd
                  obtain ⟨he, hw'⟩ := entry_of_drop hw
                  obtain ⟨hdrop, hle⟩ := drop_stop hstop hp hl
                  obtain ⟨ps, rfl, hps⟩ := ih hr (start_succ hs he) hw' hdrop hle
                  refine ⟨p :: ps, rfl, .cons ⟨hs, ⟨d, he, htag, habs, rfl⟩, hstop, hle, ?_⟩ hps⟩
                  rw [hp, hdrop]

theorem lies_of_ofPieces {h : Header} {pieces : List (Except Fault Piece)}
    {hl : pieces.length = h.entryCount} (hc : ofPieces h pieces hl = .ok c) :
    c.header = h ∧ c.size ≤ maxField ∧ ∃ ps, pieces = ps.map .ok ∧ c.Lies 0 0 ps := by
  unfold ofPieces at hc
  split at hc
  · cases hc
  · next words payload hr =>
      simp only at hc
      split at hc
      · cases hc
      · next hmax =>
          cases hc
          refine ⟨rfl, by omega, ?_⟩
          exact lies_of_layOut hr rfl rfl rfl (Nat.zero_le _)

/-! ### Copied pieces -/

section Copies

variable {tooLarge : Fault} {h : Header} {pieces pieces' : List (Except Fault Piece)}
  {d : Container}

theorem describe_copy {e : Descriptor} (he : describe tooLarge i o p = .ok e) :
    describe tooLarge i o p.copy = .ok e := by
  unfold describe at he ⊢
  cases hentry : p.entry (Bytes.padding o p.tag.align) with
  | error f =>
      rw [hentry] at he
      cases he
  | ok r =>
      have hcopy : p.copy.entry (Bytes.padding o p.copy.tag.align) = .ok r :=
        Piece.entry_copy hentry
      rw [hentry] at he
      rw [hcopy]
      exact he

theorem layOut_copy {r : List UInt32 × Bytes} (hr : layOut tooLarge i o pieces = .ok r) :
    layOut tooLarge i o (pieces.map (Except.map Piece.copy)) = .ok r := by
  induction pieces generalizing i o r with
  | nil => exact hr
  | cons piece pieces ih =>
      simp only [layOut, bind, Except.bind] at hr
      split at hr
      · cases hr
      · next p =>
          split at hr
          · cases hr
          · next e he =>
              split at hr
              · cases hr
              · next rest hrest =>
                  simp only [List.map_cons, Except.map, layOut, bind, Except.bind,
                    describe_copy he, ih hrest]
                  exact hr

theorem ofPieces_copy {hl : pieces.length = h.entryCount} (hc : ofPieces h pieces hl = .ok c) :
    ofPieces h (pieces.map (Except.map Piece.copy)) ((List.length_map _).trans hl) = .ok c := by
  unfold ofPieces at hc ⊢
  split at hc
  · cases hc
  · next hr =>
      have hcopy := layOut_copy hr
      split
      · next hf => cases hcopy.symm.trans hf
      · next hok =>
          cases hcopy.symm.trans hok
          exact hc

/-- Whether pieces are copied does not show in the container. -/
theorem ofPieces_unique {hl : pieces.length = h.entryCount} {hl' : pieces'.length = h.entryCount}
    (hcopy : pieces.map (Except.map Piece.copy) = pieces'.map (Except.map Piece.copy))
    (hc : ofPieces h pieces hl = .ok c) (hd : ofPieces h pieces' hl' = .ok d) : c = d := by
  have hc := ofPieces_copy hc
  have hd := ofPieces_copy hd
  simp only [hcopy] at hc
  exact Except.ok.inj (hc.symm.trans hd)

end Copies

/-! ### The three shapes -/

section Shapes

variable {level : Nat} {pieces : List (Except Fault Piece)}
  {pairs : List (Bytes × Except Fault Piece)}

/-- The pieces of the keys of pairs. -/
def keyPieces {α : Type} (pairs : List (Bytes × α)) : List Piece :=
  pairs.map fun p => .ofString p.1

theorem packRaw_spec {piece : Except Fault Piece} (h : packRaw piece = .ok c) :
    c.header.shape = .raw ∧ ∃ p, piece = .ok p ∧ c.Lies 0 0 [p] := by
  obtain ⟨hh, -, ps, hps, hl⟩ := lies_of_ofPieces h
  refine ⟨by rw [hh], ?_⟩
  obtain ⟨p, rfl, rfl⟩ := List.map_eq_singleton_iff.mp hps.symm
  exact ⟨p, rfl, hl⟩

theorem packArray_spec (h : packArray level pieces = .ok c) :
    level < maxDepth ∧ pieces.length ≤ maxChildren ∧ c.header.shape = .array ∧
      c.len = pieces.length ∧ ∃ ps, pieces = ps.map .ok ∧ c.Lies 0 0 ps := by
  unfold packArray at h
  split at h
  · cases h
  · next hd =>
      split at h
      · next hn =>
          obtain ⟨hh, -, hps⟩ := lies_of_ofPieces h
          exact ⟨by omega, hn, by rw [hh], by rw [len, hh], hps⟩
      · cases h

theorem packObject_spec (h : packObject level pairs = .ok c) :
    let kept := Keyed.canonical Bytes.keyCompare pairs
    level < maxDepth ∧ kept.length ≤ maxChildren ∧ c.header.shape = .object ∧
      c.len = kept.length ∧
      ∃ ps, kept.map Prod.snd = ps.map .ok ∧ c.Lies 0 0 (keyPieces kept ++ ps) := by
  unfold packObject at h
  split at h
  · cases h
  · next hd =>
      simp only at h
      split at h
      · next hn =>
          obtain ⟨hh, -, ps, hps, hl⟩ := lies_of_ofPieces h
          refine ⟨by omega, hn, by rw [hh], by rw [len, hh], ?_⟩
          obtain ⟨ks, vs, rfl, hks, hvs⟩ := List.append_eq_map_iff.mp hps
          refine ⟨vs, hvs.symm, ?_⟩
          have hk : ks = keyPieces (Keyed.canonical Bytes.keyCompare pairs) := by
            refine (List.map_inj_right fun a b hab => Except.ok.inj hab).mp (hks.trans ?_)
            rw [keyPieces, List.map_map]
            rfl
          rwa [← hk]
      · cases h

theorem packArray_eq {n : Nat} (hd : level < maxDepth) (hn : n ≤ maxChildren)
    (hl : pieces.length = n) :
    packArray level pieces = ofPieces ⟨.array, n, hn, nofun⟩ pieces hl := by
  subst hl
  unfold packArray
  rw [if_neg (Nat.not_le.mpr hd), dif_pos hn]

theorem packObject_eq {kept : List (Bytes × Except Fault Piece)} (hd : level < maxDepth)
    (hk : Keyed.canonical Bytes.keyCompare pairs = kept) (hn : kept.length ≤ maxChildren) :
    packObject level pairs = ofPieces ⟨.object, kept.length, hn, nofun⟩ (objectPieces kept)
      (length_objectPieces kept) := by
  subst hk
  unfold packObject
  rw [if_neg (Nat.not_le.mpr hd)]
  exact dif_pos hn

theorem packArray_of_lt (h : packArray level pieces = .ok c) {level' : Nat}
    (hd' : level' < maxDepth) : packArray level' pieces = .ok c := by
  obtain ⟨hd, hn, -⟩ := packArray_spec h
  rw [packArray_eq hd' hn rfl]
  rwa [packArray_eq hd hn rfl] at h

theorem packObject_of_lt (h : packObject level pairs = .ok c) {level' : Nat}
    (hd' : level' < maxDepth) : packObject level' pairs = .ok c := by
  obtain ⟨hd, hn, -⟩ := packObject_spec h
  rw [packObject_eq hd' rfl hn]
  rwa [packObject_eq hd rfl hn] at h

/-- Neither the depth nor whether its elements are copied shows in an array. -/
theorem packArray_unique {pieces' : List (Except Fault Piece)} {level' : Nat} {d : Container}
    (hcopy : pieces.map (Except.map Piece.copy) = pieces'.map (Except.map Piece.copy))
    (hc : packArray level pieces = .ok c) (hd : packArray level' pieces' = .ok d) : c = d := by
  have hlen : pieces'.length = pieces.length := by
    simpa only [List.length_map] using (congrArg List.length hcopy).symm
  obtain ⟨hlevel, hn, -⟩ := packArray_spec hc
  obtain ⟨hlevel', -⟩ := packArray_spec hd
  rw [packArray_eq hlevel hn rfl] at hc
  rw [packArray_eq hlevel' hn hlen] at hd
  exact ofPieces_unique hcopy hc hd

theorem packObject_unique {kept kept' pairs' : List (Bytes × Except Fault Piece)} {level' : Nat}
    {d : Container} (hk : Keyed.canonical Bytes.keyCompare pairs = kept)
    (hk' : Keyed.canonical Bytes.keyCompare pairs' = kept')
    (hcopy : (kept.map fun q => (q.1, q.2.map Piece.copy)) =
      kept'.map fun q => (q.1, q.2.map Piece.copy))
    (hc : packObject level pairs = .ok c) (hd : packObject level' pairs' = .ok d) : c = d := by
  obtain ⟨hlevel, hn, -⟩ := packObject_spec hc
  obtain ⟨hlevel', hn', -⟩ := packObject_spec hd
  have hlen : kept.length = kept'.length := by
    simpa only [List.length_map] using congrArg List.length hcopy
  have hkeys := congrArg (List.map fun q => (.ok (.ofString q.1) : Except Fault Piece)) hcopy
  have hvalues := congrArg (List.map Prod.snd) hcopy
  simp only [List.map_map, Function.comp_def] at hkeys hvalues
  rw [packObject_eq hlevel hk (hk ▸ hn)] at hc
  rw [packObject_eq hlevel' hk' (hk' ▸ hn')] at hd
  simp only [hlen] at hc
  refine ofPieces_unique ?_ hc hd
  unfold objectPieces
  rw [List.map_append, List.map_append, List.map_map, List.map_map, List.map_map, List.map_map]
  congr 1

end Shapes

end PackedTree.Container
