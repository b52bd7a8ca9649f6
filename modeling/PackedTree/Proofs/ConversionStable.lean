import PackedTree.Proofs.DocumentRebuilding
import PackedTree.Proofs.DocumentText
import PackedTree.Proofs.ValueOrder
import PackedTree.Tool.Conversion

/-! # Packing what was unpacked

A text that was packed and unpacked has come to rest.  Its document has ordered names, revised
numbers and no null member that the options drop, so packing and unpacking it once more brings back
the same text, from a container that compares equal (`stable_of_pack`).  The bytes may differ: a
number can change its scale on its way through text.

Two things stand in the way, and both are real (`not_stable_of_pack`).  An object whose first
member has the reserved name does not come back from its text, and a number that is spelled without
an exponent takes more room, so that a container of more than half the largest size may outgrow the
format. -/

namespace PackedTree

/-! ### Hexadecimal text -/

namespace Text

theorem trim_append {cs blanks : List Char} (h : ∀ c ∈ cs, isBlank c = false)
    (hb : ∀ c ∈ blanks, isBlank c = true) : trim (cs ++ blanks) = cs := by
  have hkeeps : ∀ ds : List Char, (∀ c ∈ ds, isBlank c = false) → ds.dropWhile isBlank = ds := by
    intro ds hd
    cases ds with
    | nil => rfl
    | cons d ds => exact List.dropWhile_cons_of_neg (by simp [hd d List.mem_cons_self])
  unfold trim
  cases cs with
  | nil =>
      rw [List.nil_append, List.dropWhile_eq_nil_iff.mpr hb]
      rfl
  | cons c cs =>
      have hc : ¬ isBlank c = true := by simp [h c List.mem_cons_self]
      rw [List.cons_append, List.dropWhile_cons_of_neg hc, ← List.cons_append, List.reverse_append,
        List.dropWhile_append_of_pos fun d hd => hb d (List.mem_reverse.mp hd),
        hkeeps _ fun d hd => h d (List.mem_reverse.mp hd), List.reverse_reverse]

end Text

theorem Hex.isBlank_encode (b : Bytes) : ∀ c ∈ Hex.encode b, Text.isBlank c = false := by
  have hdigit : ∀ n < 16, Text.isBlank (Nat.digitChar n) = false := by decide
  intro c hc
  obtain ⟨x, -, hx⟩ := List.mem_flatMap.mp hc
  have hlt := x.toNat_lt
  rcases List.mem_pair.mp hx with rfl | rfl
  · exact hdigit _ (by omega)
  · exact hdigit _ (by omega)

namespace Tool

theorem decodeInput_encodeOutput (hex : Bool) (b : Bytes) :
    decodeInput hex (encodeOutput hex b) = .ok b := by
  cases hex with
  | false => rfl
  | true =>
      have htext : (Hex.text b ++ "\n").toList = Hex.encode b ++ ['\n'] := by
        rw [String.toList_append, Hex.text, String.toList_ofList]
        rfl
      have htrim : Text.trim (Hex.encode b ++ ['\n']) = Hex.encode b :=
        Text.trim_append (Hex.isBlank_encode b) (List.forall_mem_singleton.mpr (by decide))
      unfold decodeInput encodeOutput
      rw [if_pos rfl, if_pos rfl, Bytes.toText?_ofText]
      dsimp only
      rw [htext, htrim, Hex.decode?_encode]

/-! ### The tools on containers -/

variable {o : Options} {text : String} {doc : Json} {v w : Value} {c d : Container}

/-- What is packed has been read, built and stored. -/
theorem pack_eq_ok_iff {b : Bytes} : Tool.pack o text = .ok b ↔
    ∃ doc v c, Json.read text = some doc ∧ doc.builtRoot o = .ok v ∧ v.pack = .ok c ∧
      c.bytes = b := by
  unfold Tool.pack
  cases Json.read text with
  | none => simp
  | some doc =>
      dsimp only
      rw [Json.pack_eq]
      cases hv : doc.builtRoot o with
      | error f => simp [hv, bind, Except.bind, Except.map, Except.mapError]
      | ok v =>
          cases hc : v.pack <;> simp [hv, hc, bind, Except.bind, Except.map, Except.mapError]

/-- The layout that a document is unpacked in. -/
def layout (pretty : Bool) : Json.Layout := if pretty then .indented else .compact

theorem unpack_bytes (pretty : Bool) (h : c.json = .ok doc) :
    unpack pretty c.bytes = .ok (String.ofList ((layout pretty).chars doc 0)) := by
  unfold unpack container
  rw [c.ofBytes_bytes]
  simp only [Except.mapError, bind, Except.bind, h]
  cases pretty <;> rfl

theorem compare_bytes (hv : v.PackableRoot) (hw : w.PackableRoot) (h : v.same w = true)
    (hc : v.pack = .ok c) (hd : w.pack = .ok d) : Tool.compare c.bytes d.bytes = .ok .eq := by
  unfold Tool.compare container
  rw [c.ofBytes_bytes, d.ofBytes_bytes]
  simp only [Except.mapError, bind, Except.bind]
  rw [Container.compare, Value.trace_of_pack_canonical hv.isCanonicalRoot hc,
    Value.trace_of_pack_canonical hw.isCanonicalRoot hd,
    Value.compare_rootTrace hv.isCanonicalRoot hw.isCanonicalRoot,
    (Value.order_eq_eq_iff hv.isCanonicalRoot hw.isCanonicalRoot).mpr h]

/-- A whole value that packs but cannot be packed once its numbers are spelled anew takes more than
half of what fits. -/
theorem maxField_lt_of_renews (hv : v.PackableRoot) (hc : v.pack = .ok c) (h : Json.Renews v w)
    (hw : maxField < w.bulk) : maxField < 2 * c.bytes.length := by
  have hweight := Value.weight_le_size hv.isCanonicalRoot.isTree hc
  rw [Value.canonical_of_isCanonicalRoot hv.isCanonicalRoot, ← c.length_bytes] at hweight
  have hbulk := h.bulk_le
  omega

/-! ### Documents that outgrow the format -/

section Repeated

variable {k : Nat} {n : Numeral} {e : Decimal}

/-- An array of one number over and over. -/
def repeated (k : Nat) (n : Numeral) : Json := .array (List.replicate k (.number n))

theorem forall_mem_repeated {P : Json → Prop} (h : P (.number n)) :
    ∀ item ∈ List.replicate k (.number n), P item := by
  intro item hitem
  rw [List.eq_of_mem_replicate hitem]
  exact h

theorem builtRoot_repeated (hk : k ≤ maxChildren) (h : Decimal.read n.text = .ok e) :
    (repeated k n).builtRoot {} = .ok (.array false (List.replicate k (.number e))) := by
  have hnumber : (Json.number n).built {} 1 = .ok (.number e) := by rw [Json.built, h]
  refine Json.built_array_eq_ok_iff.mpr ⟨(by decide : 0 < maxDepth), ?_, _, ?_, rfl⟩
  · rw [List.length_replicate]
    exact Nat.le_min.mpr ⟨hk, hk⟩
  · clear hk
    induction k with
    | zero => exact .nil
    | succ k ih => exact .cons hnumber ih

theorem ordered_repeated (k : Nat) (n : Numeral) : (repeated k n).Ordered :=
  Json.ordered_array (forall_mem_repeated (Json.ordered_of_isScalar rfl))

theorem read_repeated (k : Nat) (n : Numeral) :
    Json.read (String.ofList (Json.Layout.compact.chars (repeated k n) 0)) =
      some (repeated k n) := by
  have hitems : Json.depthItems (List.replicate k (.number n)) ≤ 0 :=
    Json.depthItems_le_iff.mpr (forall_mem_repeated (Nat.zero_le 0))
  have hdepth : (repeated k n).depth ≤ Json.maxNesting :=
    (Nat.succ_le_succ hitems).trans (by decide)
  rw [Json.Layout.compact.read_text hdepth, Json.reread_eq_some_iff (ordered_repeated k n)]
  exact Json.unmarked_iff.mpr
    ⟨nofun, forall_mem_repeated (Json.unmarked_iff.mpr ⟨nofun, nofun⟩)⟩

theorem bulk_repeated (k : Nat) (e : Decimal) :
    (Value.array false (List.replicate k (.number e))).bulk = 4 + k * (7 + e.bytes.length) := by
  rw [Value.bulk, Value.bulkElems_eq, List.map_replicate, List.sum_replicate, Value.bulk,
    Nat.nsmul_eq_mul]

theorem weight_repeated (k : Nat) (e : Decimal) :
    (Value.array false (List.replicate k (.number e))).weight = 4 + k * (4 + e.bytes.length) := by
  rw [Value.weight, Value.weightElems_eq, List.map_replicate, List.sum_replicate, Value.weight,
    Nat.nsmul_eq_mul]

/-- Where the new spelling of a number is longer than the old one, there is a document of that
number that is packed, unpacked and read again, and is not packed any more. -/
theorem exists_refused {m : Numeral} {g : Decimal} (hn : Decimal.read n.text = .ok e)
    (hm : Json.respelled n = m) (hg : Decimal.read m.text = .ok g) (hk : k ≤ maxChildren)
    (hfit : 4 + k * (7 + e.bytes.length) ≤ maxField)
    (hgrown : maxField < 4 + k * (4 + g.bytes.length)) :
    ∃ b c doc told, Tool.pack {} (repeated k n).text = .ok b ∧ Container.ofBytes b = .ok c ∧
      c.json = .ok doc ∧ (decodeInput false (encodeOutput false b) >>= unpack false) = .ok told ∧
      Json.read told = some doc ∧ ∀ b', Tool.pack {} told ≠ .ok b' := by
  have hbuilt := builtRoot_repeated hk hn
  have hroot := Json.packableRoot_of_builtRoot hbuilt
  obtain ⟨c, hc⟩ := Value.exists_pack hroot ((bulk_repeated k e).trans_le hfit)
  have hread : Json.read (repeated k n).text = some (repeated k n) := read_repeated k n
  have hjson := Json.json_of_builtRoot (ordered_repeated k n).namesUnique hbuilt hc
  have htold : (repeated k n).revised false Json.respelled = repeated k m := by
    rw [repeated, Json.revised_array, List.map_replicate, Json.revised, hm, repeated]
  rw [show ({} : Options).skipNulls = false from rfl, htold] at hjson
  refine ⟨c.bytes, c, _, _, pack_eq_ok_iff.mpr ⟨_, _, c, hread, hbuilt, hc, rfl⟩, c.ofBytes_bytes,
    hjson, unpack_bytes false hjson, read_repeated k m, fun b' hb' => ?_⟩
  obtain ⟨doc, w, d, hdoc, hw, hd, -⟩ := pack_eq_ok_iff.mp hb'
  cases hdoc.symm.trans (read_repeated k m)
  cases hw.symm.trans (builtRoot_repeated hk hg)
  have hrootw := (Json.packableRoot_of_builtRoot hw).isCanonicalRoot
  have hle := Value.weight_le_maxField hrootw.isTree hd
  rw [Value.canonical_of_isCanonicalRoot hrootw, weight_repeated] at hle
  exact absurd hgrown (Nat.not_lt.mpr hle)

end Repeated

/-! ### Packing, unpacking, packing -/

/-- A text that is read as a document in its final form, built to what was packed before, is packed
to a container that compares equal and tells the document, unless it is too large. -/
theorem packed_again_or_tooLarge (hv : v.PackableRoot) (hc : v.pack = .ok c)
    (hread : Json.read text = some doc) (hordered : doc.Ordered)
    (hfinal : doc.revised false Json.respelled = doc) (hw : doc.builtRoot {} = .ok w)
    (hrenews : Json.Renews v w) :
    (∃ d : Container, Tool.pack {} text = .ok d.bytes ∧
      Tool.compare c.bytes d.bytes = .ok .eq ∧ d.json = .ok doc) ∨
    (maxField < 2 * c.bytes.length ∧ ∃ f, Tool.pack {} text = .error (.fault f) ∧
      f.isSize = true) := by
  have hroot := Json.packableRoot_of_builtRoot hw
  rcases Json.packed_or_tooLarge_iff.mpr ⟨w, hw⟩ with ⟨d, hd⟩ | ⟨u, f, hu, hbulk, hf, hsize⟩
  · rw [Json.pack_eq, hw] at hd
    have hd : w.pack = .ok d := hd
    have hjson := Json.json_of_builtRoot hordered.namesUnique hw hd
    rw [show ({} : Options).skipNulls = false from rfl, hfinal] at hjson
    exact .inl ⟨d, pack_eq_ok_iff.mpr ⟨doc, w, d, hread, hw, hd, rfl⟩,
      compare_bytes hv hroot hrenews.same hc hd, hjson⟩
  · rw [Json.value_eq, hw] at hu
    cases hu
    refine .inr ⟨maxField_lt_of_renews hv hc hrenews hbulk, f, ?_, hsize⟩
    unfold Tool.pack
    rw [hread]
    dsimp only
    rw [hf]
    rfl

/-- A text that is packed is unpacked from what travels.  The text that comes out is read as the
document that the container tells exactly if no object of it begins with the reserved name.  If it
is, it is packed with the default options to a container that compares equal and unpacks to the same
text, unless the numbers outgrow the format, which takes a container of more than half the largest
size. -/
theorem stable_of_pack (text : String) (o : Options) (hex pretty : Bool) (b : Bytes)
    (h : Tool.pack o text = .ok b) :
    ∃ c doc told, Container.ofBytes b = .ok c ∧ c.json = .ok doc ∧
      (decodeInput hex (encodeOutput hex b) >>= unpack pretty) = .ok told ∧
      (Json.read told = some doc ↔ doc.Unmarked) ∧
      (Json.read told = some doc →
        (∃ b', Tool.pack {} told = .ok b' ∧ Tool.compare b b' = .ok .eq ∧
          unpack pretty b' = .ok told) ∨
        (maxField < 2 * b.length ∧ ∃ f, Tool.pack {} told = .error (.fault f) ∧
          f.isSize = true)) := by
  obtain ⟨first, v, c, hread, hv, hc, rfl⟩ := pack_eq_ok_iff.mp h
  have hwell := Json.wellRead_of_read hread
  have hn := hwell.ordered.namesUnique
  have hroot := Json.packableRoot_of_builtRoot hv
  have hjson := Json.json_of_builtRoot hn hv hc
  have hfinal := Json.revised_revised_of_builtRoot hv o.skipNulls
  obtain ⟨w, hw, hrenews⟩ := Json.exists_rebuiltRoot hn hv
  have hordered := Json.ordered_revised o.skipNulls Json.respelled first
  have hdepth := (Json.depth_revised_le o.skipNulls Json.respelled first).trans hwell.depth_le
  generalize first.revised o.skipNulls Json.respelled = doc at hjson hfinal hw hordered hdepth
  have htold : (decodeInput hex (encodeOutput hex c.bytes) >>= unpack pretty) =
      .ok (String.ofList ((layout pretty).chars doc 0)) := by
    rw [decodeInput_encodeOutput]
    exact unpack_bytes pretty hjson
  refine ⟨c, doc, _, c.ofBytes_bytes, hjson, htold, ?_, fun hback => ?_⟩
  · rw [(layout pretty).read_text hdepth, Json.reread_eq_some_iff hordered]
  · rcases packed_again_or_tooLarge hroot hc hback hordered hfinal hw hrenews with
      ⟨d, hpack, hcompare, hjsond⟩ | hlarge
    · exact .inl ⟨d.bytes, hpack, hcompare, unpack_bytes pretty hjsond⟩
    · exact .inr hlarge

/-- Both numbers change their scale, and the container its bytes. -/
theorem stable_of_pack_rescaled : ∃ b b',
    Tool.pack { skipNulls := true } "[1e5,\x7b\"b\":null,\"a\":0.00\x7d]" = .ok b ∧
      (decodeInput true (encodeOutput true b) >>= unpack false) =
        .ok "[100000,\x7b\"a\":0\x7d]" ∧
      Tool.pack {} "[100000,\x7b\"a\":0\x7d]" = .ok b' ∧ Tool.compare b b' = .ok .eq ∧
      unpack false b' = .ok "[100000,\x7b\"a\":0\x7d]" ∧ b' ≠ b := by
  generalize hc : (⟨⟨.array, 2, by decide, by decide⟩, [2415919113, 1342177308],
    [251, 255, 255, 255, 255, 255, 255, 255, 1, 0, 0, 0, 1, 0, 0, 32, 1, 0, 0, 128, 12, 0, 0, 16,
      97, 0, 0, 0, 2, 0, 0, 0, 0, 0, 0, 0, 0], rfl⟩ : Container) = c
  generalize hd : (⟨⟨.array, 2, by decide, by decide⟩, [2415919115, 1342177306],
    [0, 0, 0, 0, 0, 0, 0, 0, 160, 134, 1, 0, 1, 0, 0, 32, 1, 0, 0, 128, 12, 0, 0, 16, 97, 0, 0, 0,
      0, 0, 0, 0, 0, 0, 0, 0, 0], rfl⟩ : Container) = d
  have ha : Bytes.ofText "a" = [97] := by decide
  have hb : Bytes.ofText "b" = [98] := by decide
  have hpack : Tool.pack { skipNulls := true } "[1e5,\x7b\"b\":null,\"a\":0.00\x7d]" =
      .ok c.bytes := by
    let doc : Json := .array [.number ⟨false, 1, [], some ⟨false, 5, []⟩⟩,
      .object [("a", .number ⟨false, 0, [0, 0], none⟩), ("b", .null)]]
    let v : Value := .array false [.number ⟨1, -5⟩, .object [([97], .number ⟨0, 2⟩)]]
    have hread : Json.read "[1e5,\x7b\"b\":null,\"a\":0.00\x7d]" = some doc := by
      simp only [Json.read, String.reduceToList]
      cbv
    have hone : Decimal.read (⟨false, 1, [], some ⟨false, 5, []⟩⟩ : Numeral).text =
        .ok ⟨1, -5⟩ := by
      decide
    have hzero : Decimal.read (⟨false, 0, [0, 0], none⟩ : Numeral).text = .ok ⟨0, 2⟩ := by decide
    have hbuilt : doc.builtRoot { skipNulls := true } = .ok v := by
      simp only [doc, Json.builtRoot, Json.isScalar, Json.built, Json.builtItems, Json.builtMembers,
        ha, hb, hone, hzero]
      cbv
    have hs : Decimal.storable ⟨1, -5⟩ = true := by decide
    have hs' : Decimal.storable ⟨0, 2⟩ = true := by decide
    have hpacked : v.pack = .ok c := by
      subst hc
      simp only [v, Value.pack, Value.elemPieces, Value.pairPieces, Value.piece, Value.leafPiece,
        hs, hs', if_true]
      cbv
    exact pack_eq_ok_iff.mpr ⟨doc, v, c, hread, hbuilt, hpacked, rfl⟩
  have hjson : c.json = .ok (.array [.number ⟨false, 100000, [], none⟩,
      .object [("a", .number ⟨false, 0, [], none⟩)]]) := by
    have htrace : c.trace = .next (.beginArray 2 false) (.next (.elem (.number ⟨1, -5⟩))
        (.next (.beginObject 1) (.next (.key [97]) (.next (.value (.number ⟨0, 2⟩))
          (.next .endObject (.next .endArray .finished)))))) := by
      subst hc
      cbv
    have hmember : Json.ofMembers [("a", .number ⟨false, 0, [], none⟩)] =
        .object [("a", .number ⟨false, 0, [], none⟩)] := by
      cbv
    rw [Container.json, htrace, ← hmember]
    rfl
  have hunpack : (decodeInput true (encodeOutput true c.bytes) >>= unpack false) =
      .ok "[100000,\x7b\"a\":0\x7d]" := by
    rw [decodeInput_encodeOutput]
    exact (unpack_bytes false hjson).trans (by cbv)
  have hread : Json.read "[100000,\x7b\"a\":0\x7d]" = some (.array
      [.number ⟨false, 100000, [], none⟩, .object [("a", .number ⟨false, 0, [], none⟩)]]) := by
    simp only [Json.read, String.reduceToList]
    cbv
  have hagain : Tool.pack {} "[100000,\x7b\"a\":0\x7d]" = .ok d.bytes := by
    let v : Value := .array false [.number ⟨100000, 0⟩, .object [([97], .number ⟨0, 0⟩)]]
    have hlarge : Decimal.read (⟨false, 100000, [], none⟩ : Numeral).text = .ok ⟨100000, 0⟩ := by
      decide
    have hzero : Decimal.read (⟨false, 0, [], none⟩ : Numeral).text = .ok ⟨0, 0⟩ := by decide
    have hbuilt : (Json.array [.number ⟨false, 100000, [], none⟩,
        .object [("a", .number ⟨false, 0, [], none⟩)]]).builtRoot {} = .ok v := by
      simp only [Json.builtRoot, Json.isScalar, Json.built, Json.builtItems, Json.builtMembers, ha,
        hlarge, hzero]
      cbv
    have hs : Decimal.storable ⟨100000, 0⟩ = true := by decide
    have hs' : Decimal.storable ⟨0, 0⟩ = true := by decide
    have hpacked : v.pack = .ok d := by
      subst hd
      simp only [v, Value.pack, Value.elemPieces, Value.pairPieces, Value.piece, Value.leafPiece,
        hs, hs', if_true]
      cbv
    exact pack_eq_ok_iff.mpr ⟨_, v, d, hread, hbuilt, hpacked, rfl⟩
  obtain ⟨c', doc, told, hc', hjson', htold, -, hstable⟩ :=
    stable_of_pack _ _ true false _ hpack
  cases hc'.symm.trans c.ofBytes_bytes
  cases hjson'.symm.trans hjson
  cases htold.symm.trans hunpack
  obtain ⟨b', hb', hcompare, hunpack'⟩ | ⟨hlarge, -⟩ := hstable hread
  · refine ⟨_, b', hpack, hunpack, hb', hcompare, hunpack', ?_⟩
    cases hb'.symm.trans hagain
    subst hc hd
    decide
  · subst hc
    exact absurd hlarge (by decide)

/-- Sixteen million times `1e15` fits, and so many times the same number without an exponent does
not; an object that begins with the reserved name comes back as a number. -/
theorem not_stable_of_pack :
    (∃ b c doc told, Tool.pack {} (repeated 16777215 ⟨false, 1, [], some ⟨false, 1, [5]⟩⟩).text =
        .ok b ∧ Container.ofBytes b = .ok c ∧ c.json = .ok doc ∧
      (decodeInput false (encodeOutput false b) >>= unpack false) = .ok told ∧
      Json.read told = some doc ∧ ∀ b', Tool.pack {} told ≠ .ok b') ∧
    ∃ b told b', Tool.pack { skipNulls := true }
        "\x7b\"\":null,\"$serde_json::private::Number\":\"1\"\x7d" = .ok b ∧
      (decodeInput false (encodeOutput false b) >>= unpack false) = .ok told ∧
      Tool.pack {} told = .ok b' ∧ Tool.compare b b' ≠ .ok .eq := by
  constructor
  · have hn : Decimal.read (⟨false, 1, [], some ⟨false, 1, [5]⟩⟩ : Numeral).text =
        .ok ⟨1, -15⟩ := by
      decide
    have hm : Json.respelled ⟨false, 1, [], some ⟨false, 1, [5]⟩⟩ =
        ⟨false, 1000000000000000, [], none⟩ := by
      rfl
    have hg : Decimal.read (⟨false, 1000000000000000, [], none⟩ : Numeral).text =
        .ok ⟨1000000000000000, 0⟩ := by
      decide
    have hfit : (⟨1, -15⟩ : Decimal).bytes.length = 9 := by cbv
    have hgrown : (⟨1000000000000000, 0⟩ : Decimal).bytes.length = 15 := by cbv
    have hmax : maxField = 268435455 := rfl
    have hchildren : maxChildren = 268435455 := rfl
    exact exists_refused hn hm hg (by rw [hchildren]; omega) (by rw [hfit, hmax]; omega)
      (by rw [hgrown, hmax]; omega)
  · have hpack : Tool.pack { skipNulls := true }
        "\x7b\"\":null,\"$serde_json::private::Number\":\"1\"\x7d" =
        .ok [1, 0, 0, 32, 28, 0, 0, 128, 1, 0, 0, 0, 36, 115, 101, 114, 100, 101, 95, 106, 115,
          111, 110, 58, 58, 112, 114, 105, 118, 97, 116, 101, 58, 58, 78, 117, 109, 98, 101, 114,
          49] := by
      have hread : Json.read "\x7b\"\":null,\"$serde_json::private::Number\":\"1\"\x7d" =
          some (.object [("", .null), ("$serde_json::private::Number", .string "1")]) := by
        simp only [Json.read, String.reduceToList]
        cbv
      have hempty : Bytes.ofText "" = [] := by decide
      have hname : Bytes.ofText "$serde_json::private::Number" =
          [36, 115, 101, 114, 100, 101, 95, 106, 115, 111, 110, 58, 58, 112, 114, 105, 118, 97, 116,
            101, 58, 58, 78, 117, 109, 98, 101, 114] := by
        decide
      have hone : Bytes.ofText "1" = [49] := by decide
      simp only [Tool.pack, hread, Json.pack_eq, Json.builtRoot, Json.isScalar, Json.built,
        Json.builtMembers, hempty, hname, hone]
      cbv
    have hagain : Tool.pack {} "\x7b\"$serde_json::private::Number\":\"1\"\x7d" =
        .ok [1, 0, 0, 80, 9, 0, 0, 144, 0, 0, 0, 0, 0, 0, 0, 0, 1] := by
      have hread : Json.read "\x7b\"$serde_json::private::Number\":\"1\"\x7d" =
          some (.number ⟨false, 1, [], none⟩) := by
        simp only [Json.read, String.reduceToList]
        cbv
      have hbuilt : (Json.number ⟨false, 1, [], none⟩).builtRoot {} =
          .ok (.array true [.number ⟨1, 0⟩]) := rfl
      have hpacked : (Value.array true [.number ⟨1, 0⟩]).pack =
          .ok ⟨⟨.raw, 1, by decide, fun _ => rfl⟩, [2415919113],
            [0, 0, 0, 0, 0, 0, 0, 0, 1], rfl⟩ := by
        decide +kernel
      exact pack_eq_ok_iff.mpr ⟨_, _, _, hread, hbuilt, hpacked, rfl⟩
    have hcompare : Tool.compare [1, 0, 0, 32, 28, 0, 0, 128, 1, 0, 0, 0, 36, 115, 101, 114, 100,
        101, 95, 106, 115, 111, 110, 58, 58, 112, 114, 105, 118, 97, 116, 101, 58, 58, 78, 117, 109,
        98, 101, 114, 49] [1, 0, 0, 80, 9, 0, 0, 144, 0, 0, 0, 0, 0, 0, 0, 0, 1] = .ok .gt := by
      cbv
    refine ⟨_, "\x7b\"$serde_json::private::Number\":\"1\"\x7d", _, hpack, ?_, hagain, ?_⟩
    · decide +kernel
    · rw [hcompare]
      exact fun h => by cases h

end Tool

end PackedTree
