import PackedTree.Json.Packing
import PackedTree.Proofs.CanonicalPacking
import PackedTree.Proofs.ContainerHash
import PackedTree.Proofs.ValidatedBuilding
import Mathlib.Tactic.IntervalCases

/-! # Packing again what came from elsewhere

The bytes of a container need not have been written by `Value.pack`: the descriptors may all be
relative, numbers may have more bytes than they need, and there may be bytes that no child
covers.  None of this shows in the trace.  A container that can be read to its end, whose objects
have ascending keys and in which nothing is raw, tells a canonical tree word for word
(`exists_packableRoot`), and so does what that tree packs to.

`repacked_reads_same` draws the consequences: the events of such a container build, what they build
fails to pack at most with a size, and what it packs to has the same order, hash and document as
the container itself. -/

namespace PackedTree.Container

open Value

variable {c n : Container} {level : Nat} {v : Value}

/-- In every object of the container, at any depth, each key comes before the next one. -/
def KeysAscend (c : Container) : Prop :=
  ∀ n, Relation.ReflTransGen Holds c n → n.isObject = true →
    ∀ i j k l, i < j → j < n.len → n.child i = .ok (.string k) → n.child j = .ok (.string l) →
      Bytes.keyCompare k l = .lt

theorem KeysAscend.of_holds (h : c.KeysAscend) (hn : c.Holds n) : n.KeysAscend :=
  fun m hm => h m (.head hn hm)

/-! ### Scalars that were read -/

theorem storable_of_decode {tag : Tag} {b : Bytes} (h : decode tag b = .ok v)
    (hv : v.isScalar = true) : v.Storable := by
  cases tag with
  | number =>
      simp only [decode] at h
      split at h
      · next d hd =>
          cases h
          have hs : d.storable = true := by
            unfold Decimal.ofBytes? at hd
            simp only at hd
            split at hd
            · cases hd
            · split at hd
              · next hs => cases hd; exact hs
              · cases hd
          exact .scalar hv (if_pos hs)
      · cases h
  | container =>
      simp only [decode, Except.map] at h
      split at h
      · cases h
      · cases h
        cases hv
  | string | no | yes | null =>
      cases h
      exact .scalar hv rfl

theorem storable_of_child {i : Nat} (h : c.child i = .ok v) (hv : v.isScalar = true) :
    v.Storable := by
  obtain ⟨o, -, h⟩ := childAt_of_child h
  simp only [childAt, bind, Except.bind] at h
  split at h
  · cases h
  · exact storable_of_decode h hv

/-! ### Canonical trees from what is told -/

/-- The telling of the value, wherever it stands, is that of a canonical tree that packs inside
`level` containers unless it is too large. -/
def TellsPackable (level : Nat) (v : Value) : Prop :=
  ∃ t : Value, t.Packable level ∧ ∀ slot, v.told entered slot = t.trace slot

theorem tellsPackable_of_child {i : Nat} (h : c.child i = .ok v)
    (hn : ∀ n, c.Holds n → TellsPackable level (.binary n)) : TellsPackable level v := by
  rcases isScalar_or_holds ⟨i, h⟩ with hv | ⟨n, rfl, hc⟩
  · refine ⟨v, .scalar hv (storable_of_child h hv), fun slot => ?_⟩
    rw [told_of_isScalar hv, trace_of_isScalar hv]
  · exact hn n hc

section Members

variable (hn : ∀ n, c.Holds n → TellsPackable level (.binary n))
include hn

theorem exists_elems {is : List Nat} (h : (c.elemsFrom entered is).fault? = none) :
    ∃ ts : List Value, ts.length = is.length ∧ (∀ t ∈ ts, t.Packable level) ∧
      c.elemsFrom entered is = (traceElems ts).append (.next .endArray .finished) := by
  induction is with
  | nil => exact ⟨[], rfl, nofun, rfl⟩
  | cons i is ih =>
      rw [elemsFrom_cons] at h ⊢
      cases hv : c.child i with
      | error f => rw [hv] at h; cases h
      | ok v =>
          rw [hv] at h
          obtain ⟨t, ht, htold⟩ := tellsPackable_of_child hv hn
          obtain ⟨ts, hlen, hts, htrace⟩ := ih (Trace.fault?_append_eq_none h).2
          refine ⟨t :: ts, congrArg (· + 1) hlen, List.forall_mem_cons.mpr ⟨ht, hts⟩, ?_⟩
          show (v.told entered .elem).append (c.elemsFrom entered is) = _
          rw [htold, htrace, traceElems, Trace.append_assoc]

/-- The keys of the tree are those at the given positions, so they ascend if those do. -/
theorem exists_pairs {is : List Nat} (h : (c.pairsFrom entered is).fault? = none)
    (hk : is.Pairwise fun i j => ∀ k l, c.child i = .ok (.string k) →
      c.child j = .ok (.string l) → Bytes.keyCompare k l = .lt) :
    ∃ ts : List (Bytes × Value), ts.length = is.length ∧
      (∀ t ∈ ts, ∃ i ∈ is, c.child i = .ok (.string t.1)) ∧
      Keyed.Ascending Bytes.keyCompare ts ∧ (∀ t ∈ ts, t.2.Packable level) ∧
      c.pairsFrom entered is = (tracePairs ts).append (.next .endObject .finished) := by
  induction is with
  | nil => exact ⟨[], rfl, nofun, .nil, nofun, rfl⟩
  | cons i is ih =>
      obtain ⟨hi, his⟩ := List.pairwise_cons.mp hk
      rw [pairsFrom_cons] at h ⊢
      cases hkey : c.child i with
      | error f => rw [hkey] at h; cases h
      | ok k =>
          rw [hkey] at h
          cases k with
          | string k =>
              have h : (c.valueFrom entered i is).fault? = none := h
              unfold valueFrom at h ⊢
              cases hv : c.child (i + c.len) with
              | error f => rw [hv] at h; cases h
              | ok v =>
                  rw [hv] at h
                  obtain ⟨t, ht, htold⟩ := tellsPackable_of_child hv hn
                  obtain ⟨ts, hlen, hmem, hasc, hts, htrace⟩ :=
                    ih (Trace.fault?_append_eq_none h).2 his
                  have hfirst : ∀ q ∈ ts, Bytes.keyCompare k q.1 = .lt := by
                    intro q hq
                    obtain ⟨j, hj, hq⟩ := hmem q hq
                    exact hi j hj k q.1 hkey hq
                  have hrest : ∀ q ∈ ts, ∃ j ∈ i :: is, c.child j = .ok (.string q.1) := by
                    intro q hq
                    obtain ⟨j, hj, hq⟩ := hmem q hq
                    exact ⟨j, List.mem_cons_of_mem i hj, hq⟩
                  refine ⟨(k, t) :: ts, congrArg (· + 1) hlen,
                    List.forall_mem_cons.mpr ⟨⟨i, List.mem_cons_self, hkey⟩, hrest⟩,
                    List.pairwise_cons.mpr ⟨hfirst, hasc⟩, List.forall_mem_cons.mpr ⟨ht, hts⟩, ?_⟩
                  show Trace.next (.key k)
                    ((v.told entered .value).append (c.pairsFrom entered is)) = _
                  rw [htold, htrace, tracePairs, Trace.append, Trace.append_assoc]
          | _ => cases h

end Members

/-- A container that can be read to its end tells a canonical tree, if its keys ascend, it does not
nest too deep and neither it nor one packed in it is raw. -/
theorem exists_packable (h : c.trace.fault? = none) (hd : c.NestsWithin (maxDepth - level))
    (hr : c.isRaw = false) (hraw : c.NestsNoRaw) (hk : c.KeysAscend) :
    ∃ t : Value, t.isScalar = false ∧ t.Packable level ∧ ∀ slot, c.trace = t.trace slot := by
  induction hs : c.size using Nat.strongRecOn generalizing c level with
  | ind s ih =>
      obtain ⟨hl, hd⟩ := nestsWithin_of_level hd
      have hnested : ∀ n, c.Holds n → TellsPackable (level + 1) (.binary n) := by
        intro n hn
        obtain ⟨hr, hraw⟩ := hraw.of_holds hn
        obtain ⟨t, -, ht⟩ := ih n.size (hs ▸ size_lt_of_holds hn) (fault?_of_holds h hn) (hd n hn)
          hr hraw (hk.of_holds hn) rfl
        exact ⟨t, ht⟩
      cases ho : c.isObject with
      | false =>
          have hw := c.trace_eq_walkWith.trans (walkWith_of_array ho entered)
          rw [hw] at h
          obtain ⟨ts, hlen, hts, htrace⟩ := exists_elems hnested h
          rw [List.length_range] at hlen
          refine ⟨.array false ts, rfl, .array hl (hlen ▸ c.header.len_le) hts, fun slot => ?_⟩
          rw [hw, htrace, hr, trace_array, hlen]
      | true =>
          have hw := c.trace_eq_walkWith.trans (walkWith_of_object ho entered)
          rw [hw] at h
          cases hst : c.start c.len with
          | error f => rw [hst] at h; cases h
          | ok o =>
              rw [hst] at h hw
              have hasc : (List.range c.len).Pairwise fun i j => ∀ k l,
                  c.child i = .ok (.string k) → c.child j = .ok (.string l) →
                    Bytes.keyCompare k l = .lt := by
                refine List.pairwise_lt_range.imp_of_mem fun {i j} _ hj hij k l => ?_
                exact hk c .refl ho i j k l hij (List.mem_range.mp hj)
              obtain ⟨ts, hlen, -, hts, hp, htrace⟩ := exists_pairs hnested h hasc
              rw [List.length_range] at hlen
              refine ⟨.object ts, rfl, .object hl (hlen ▸ c.header.len_le) hts hp,
                fun slot => ?_⟩
              rw [hw, trace_object, hlen]
              exact congrArg _ htrace

/-- Also with a raw wrapper around a scalar, the whole container tells a canonical tree. -/
theorem exists_packableRoot (h : c.trace.fault? = none) (hd : c.NestsWithin maxDepth)
    (hw : ¬ c.WrapsContainer) (hraw : c.NestsNoRaw) (hk : c.KeysAscend) :
    ∃ t : Value, t.PackableRoot ∧ c.trace = t.rootTrace := by
  cases hr : c.isRaw with
  | false =>
      have hd0 : c.NestsWithin (maxDepth - 0) := hd
      obtain ⟨t, hs, ht, htrace⟩ := exists_packable h hd0 hr hraw hk
      refine ⟨t, .of_packable hs ht, ?_⟩
      cases ht.buildable with
      | scalar hv => cases hs.symm.trans hv
      | array => rw [htrace .elem, trace_array, rootTrace]
      | object => exact htrace .elem
  | true =>
      have hwhole := isWhole_of_validate (validate_eq_ok_iff.mpr h)
      obtain ⟨v, hv, -, htrace⟩ := trace_of_isRaw hwhole hr
      obtain ⟨i, hi⟩ := hv
      rcases isScalar_or_holds ⟨i, hi⟩ with hs | ⟨n, -, hn⟩
      · refine ⟨.array true [v], .raw hs (storable_of_child hi hs), ?_⟩
        rw [htrace, rootTrace, told_of_isScalar hs, traceElems, traceElems, trace_of_isScalar hs]
        rfl
      · exact absurd ⟨hr, n, hn⟩ hw

/-! ### Containers with one trace -/

/-- Containers that tell the same are the same for comparison, hashing and export. -/
theorem observed_of_trace_eq {d : Container} (h : c.trace.fault? = none)
    (hd : d.trace = c.trace) :
    c.compare d = .ok .eq ∧ (∃ n, c.hash = .ok n ∧ d.hash = .ok n) ∧ c.json = d.json := by
  have hself := Trace.decides_self c.fits_trace h
  refine ⟨?_, ?_, ?_⟩
  · rw [compare, hd]
    exact Trace.compare_of_decides hself
  · obtain ⟨n, hn, -⟩ := hself.hash_eq 0
    refine ⟨n, hn, ?_⟩
    rw [hash, hd]
    exact hn
  · rw [json, json, hd]

/-- If a container can be read to its end, nests at most `maxDepth` deep, is raw at most around a
scalar and nowhere inside, and its keys ascend, then its events build; what they build fails to
pack at most with a size, and what it packs to compares equal to the container, has the same hash
and exports to the same document. -/
theorem repacked_reads_same {es : List Event} (hr : (Replay.before c false).Runs es (.ok ()))
    (hd : c.NestsWithin maxDepth) (hw : ¬ c.WrapsContainer) (hraw : c.NestsNoRaw)
    (hk : c.KeysAscend) :
    ∃ w, build {} es = .ok w ∧ (∀ f, w.pack = .error f → f.isSize = true) ∧
      ∀ d, w.pack = .ok d →
        c.compare d = .ok .eq ∧ (∃ n, c.hash = .ok n ∧ d.hash = .ok n) ∧ c.json = d.json := by
  obtain ⟨rfl, hv⟩ := hr.det c.runs_trace
  have hf := validate_eq_ok_iff.mp hv.symm
  obtain ⟨t, ht, htrace⟩ := exists_packableRoot hf hd hw hraw hk
  have htells : c.trace.Tells (t.stream .elem) := htrace ▸ tells_rootStream ht.buildableRoot
  refine ⟨t, ht.build_of_tells htells, ?_, ?_⟩
  · intro f hfail
    exact isSize_of_pack ht.buildableRoot ht.storable hfail
  · intro d hpack
    apply observed_of_trace_eq hf
    rw [htrace, trace_of_pack_canonical ht.isCanonicalRoot hpack]

/-- An object without absolute descriptors, with marks in its padding, with a byte of digits too
many and with a byte that no child covers is packed again as one that reads the same. -/
theorem repacked_reads_same_padded :
    ∃ (c : Container) (es : List Event) (w : Value) (d : Container),
      c.payload = [97, 98, 9, 9, 1, 0, 0, 0, 0, 0, 0, 0, 15, 0, 255] ∧
      ((Replay.before c false).Runs es (.ok ()) ∧ c.NestsWithin maxDepth ∧ ¬ c.WrapsContainer ∧
        c.NestsNoRaw ∧ c.KeysAscend) ∧
      build {} es = .ok w ∧ w.pack = .ok d ∧
      d.payload = [97, 98, 0, 0, 1, 0, 0, 0, 0, 0, 0, 0, 15] ∧
      c.compare d = .ok .eq ∧ (∃ n, c.hash = .ok n ∧ d.hash = .ok n) ∧ c.json = d.json := by
  let c : Container := ⟨⟨.object, 2, by decide, by decide⟩, [1, 1, 268435468, 805306368],
    [97, 98, 9, 9, 1, 0, 0, 0, 0, 0, 0, 0, 15, 0, 255], rfl⟩
  have hvalid : c.validate = .ok () := by cbv
  have h0 : c.child 0 = .ok (.string [97]) := rfl
  have h1 : c.child 1 = .ok (.string [98]) := rfl
  have h2 : c.child 2 = .ok (.number ⟨15, 1⟩) := rfl
  have h3 : c.child 3 = .ok (.bool true) := rfl
  have hnone : ∀ n, ¬ c.Holds n := by
    rintro n ⟨i, hi⟩
    have hlt : i < 4 := lt_of_child hi
    interval_cases i <;> simp_all
  have hk : c.KeysAscend := by
    intro n hn ho i j k l hij hj hi hj'
    rcases Relation.ReflTransGen.cases_head hn with rfl | ⟨m, hm, -⟩
    · have hj : j < 2 := hj
      obtain ⟨rfl, rfl⟩ : i = 0 ∧ j = 1 := by omega
      rw [h0] at hi
      rw [h1] at hj'
      cases hi
      cases hj'
      decide
    · exact absurd hm (hnone m)
  have hraw : c.NestsNoRaw := by
    intro n hn
    obtain ⟨m, hm, -⟩ := Relation.TransGen.head'_iff.mp hn
    exact absurd hm (hnone m)
  have hr : (Replay.before c false).Runs c.trace.events (.ok ()) := hvalid ▸ c.runs_trace
  have hd : c.NestsWithin maxDepth := fun n hn => absurd hn (hnone n)
  have hw : ¬ c.WrapsContainer := fun h => h.2.elim hnone
  obtain ⟨w, hb, -, hobs⟩ := repacked_reads_same hr hd hw hraw hk
  obtain rfl : w = .object [([97], .number ⟨15, 1⟩), ([98], .bool true)] := by
    have hbuild : build {} c.trace.events =
        .ok (.object [([97], .number ⟨15, 1⟩), ([98], .bool true)]) := by cbv
    exact Except.ok.inj (hb.symm.trans hbuild)
  have hs : Decimal.storable ⟨15, 1⟩ = true := by decide
  have hp : (Value.object [([97], .number ⟨15, 1⟩), ([98], .bool true)]).pack =
      .ok ⟨⟨.object, 2, by decide, by decide⟩, [2147483649, 1, 268435467, 805306368],
        [97, 98, 0, 0, 1, 0, 0, 0, 0, 0, 0, 0, 15], rfl⟩ := by
    simp only [Value.pack, Value.pairPieces, Value.piece, Value.leafPiece, hs, if_true]
    cbv
  exact ⟨c, _, _, _, rfl, ⟨hr, hd, hw, hraw, hk⟩, hb, hp, rfl, hobs _ hp⟩

end PackedTree.Container
