import PackedTree.Json.Packing
import PackedTree.Proofs.NumeralText
import PackedTree.Proofs.ValidatedBuilding

/-! # What validation is good for

A container that validates can be read to its end, but a raw container inside it, and a raw wrapper
around a container, pass.  Here is what becomes of such containers as documents.  Putting a
container together among open documents comes to its document, unless one of its keys or strings is
not text, or it nests too deep where it stands (`Json.leading_of_isWhole`).  Numbers are no
obstacle, since every decimal is written as a numeral.

`consumed_of_validate` adds what becomes of the events of the container when they are built. -/

namespace PackedTree

namespace Container

variable {c n : Container}

/-- Some key or string of a container, or of one packed in it, is not text. -/
def HoldsBadText (c : Container) : Prop :=
  ∃ n i s, Relation.ReflTransGen Holds c n ∧ n.child i = .ok (.string s) ∧ Bytes.toText? s = none

theorem HoldsBadText.of_child {s : Bytes} (h : ∃ i, c.child i = .ok (.string s))
    (hs : Bytes.toText? s = none) : c.HoldsBadText :=
  let ⟨i, hi⟩ := h
  ⟨c, i, s, .refl, hi, hs⟩

theorem HoldsBadText.of_holds (hn : c.Holds n) (h : n.HoldsBadText) : c.HoldsBadText :=
  let ⟨m, i, s, hm, hi, hs⟩ := h
  ⟨m, i, s, .head hn hm, hi, hs⟩

end Container

namespace Json

open Container Value

/-! ### Scalars -/

theorem textOf_cases (b : Bytes) :
    (∃ s, textOf b = .ok s) ∨ Bytes.toText? b = none ∧ textOf b = .error .invalidText := by
  unfold textOf
  cases Bytes.toText? b with
  | some s => exact .inl ⟨s, rfl⟩
  | none => exact .inr ⟨rfl, rfl⟩

theorem ofScalar_cases {v : Value} (hv : v.isScalar = true) :
    (∃ doc, ofScalar v = .ok doc) ∨
      ∃ s, v = .string s ∧ Bytes.toText? s = none ∧ ofScalar v = .error .invalidText := by
  cases v with
  | null => exact .inl ⟨_, rfl⟩
  | bool b => exact .inl ⟨_, rfl⟩
  | number d =>
      obtain ⟨n, hn⟩ := d.exists_numeral
      refine .inl ⟨.number n, ?_⟩
      simp only [ofScalar, hn]
  | string s =>
      rcases textOf_cases s with ⟨t, ht⟩ | ⟨hs, ht⟩
      · refine .inl ⟨.string t, ?_⟩
        simp only [ofScalar, ht]
        rfl
      · refine .inr ⟨s, rfl, hs, ?_⟩
        simp only [ofScalar, ht]
        rfl
  | array | object | binary => cases hv

/-! ### Members -/

/-- Open documents of which the innermost has a place in the slot; a whole document has its place
among none. -/
inductive Waits : Slot → List Open → Prop
  | root : Waits .elem []
  | elem {items : List Json} {below : List Open} : Waits .elem (.array items :: below)
  | value {members : List (String × Json)} {name : String} {below : List Open} :
      Waits .value (.object members (some name) :: below)

/-- What is put together of a trace once a document has been closed. -/
def resume (rest : Trace) : Progress → Except Fault Json
  | .result doc => .ok doc
  | .more stack => gather stack rest

/-- What a container inside open documents leads to: its document, or a fault for which there is a
reason in the container. -/
inductive Leads (c : Container) (below : List Open) (rest : Trace) : Except Fault Json → Prop
  | document (doc : Json) : Leads c below rest (resume rest (close doc below))
  | text (h : c.HoldsBadText) : Leads c below rest (.error .invalidText)
  | depth (h : ¬ c.NestsWithin (maxDepth - below.length)) :
      Leads c below rest (.error (.tooDeep maxDepth))

theorem gather_next (stack : List Open) (e : Event) (rest : Trace) :
    gather stack (.next e rest) =
      match take stack e with
      | .error f => .error f
      | .ok p => resume rest p := by
  rw [gather]
  cases take stack e with
  | error f => rfl
  | ok p => cases p <;> rfl

variable {c n : Container} {slot : Slot} {below : List Open} {rest : Trace} {r : Except Fault Json}

/-- A fault of a held container is one of the container that holds it. -/
theorem Leads.of_holds {frame : Open} {next : Trace} (hn : c.Holds n)
    (h : Leads n (frame :: below) next r)
    (hdoc : ∀ doc, Leads c below rest (resume next (close doc (frame :: below)))) :
    Leads c below rest r := by
  cases h with
  | document doc => exact hdoc doc
  | text h => exact .text (h.of_holds hn)
  | depth h => exact .depth fun hc => h ((nestsWithin_of_level hc).2 n hn)

/-- What is put together of a container where one is awaited. -/
def Leading (c : Container) : Prop :=
  ∀ {slot : Slot} {below : List Open} {rest : Trace}, Waits slot below →
    Leads c below rest (gather below (c.trace.append rest))

section Members

variable (nested : ∀ n, c.Holds n → Leading n)
include nested

theorem leads_elems {vs : List Value} (h : ∀ v ∈ vs, ∃ i, c.child i = .ok v)
    (items : List Json) :
    Leads c below rest (gather (.array items :: below) ((tellElems vs).append rest)) := by
  induction vs generalizing items with
  | nil =>
      rw [tellElems, Trace.append, gather_next]
      exact .document (.array items.reverse)
  | cons v vs ih =>
      obtain ⟨hv, hvs⟩ := List.forall_mem_cons.mp h
      rw [tellElems, Trace.append_assoc]
      rcases isScalar_or_holds hv with hs | ⟨n, rfl, hn⟩
      · rw [told_of_isScalar hs, Trace.append, Trace.append, gather_next]
        rcases ofScalar_cases hs with ⟨doc, hdoc⟩ | ⟨s, rfl, hbad, herr⟩
        · simp only [take, Slot.event, hdoc]
          exact ih hvs (doc :: items)
        · simp only [take, Slot.event, herr]
          exact .text (.of_child hv hbad)
      · exact (nested n hn .elem).of_holds hn fun doc => ih hvs (doc :: items)

theorem leads_pairs {ps : List (Bytes × Value)} (hk : ∀ p ∈ ps, ∃ i, c.child i = .ok (.string p.1))
    (hv : ∀ p ∈ ps, ∃ i, c.child i = .ok p.2) (members : List (String × Json)) :
    Leads c below rest (gather (.object members none :: below) ((tellPairs ps).append rest)) := by
  induction ps generalizing members with
  | nil =>
      rw [tellPairs, Trace.append, gather_next]
      exact .document (ofMembers members.reverse)
  | cons p ps ih =>
      obtain ⟨k, v⟩ := p
      obtain ⟨hk, hks⟩ := List.forall_mem_cons.mp hk
      obtain ⟨hv, hvs⟩ := List.forall_mem_cons.mp hv
      rw [tellPairs, Trace.append, gather_next, Trace.append_assoc]
      rcases textOf_cases k with ⟨name, hname⟩ | ⟨hbad, herr⟩
      · simp only [take, hname]
        show Leads c below rest (gather (.object members (some name) :: below) _)
        rcases isScalar_or_holds hv with hs | ⟨n, rfl, hn⟩
        · rw [told_of_isScalar hs, Trace.append, Trace.append, gather_next]
          rcases ofScalar_cases hs with ⟨doc, hdoc⟩ | ⟨s, rfl, hbad, herr⟩
          · simp only [take, Slot.event, hdoc]
            exact ih hks hvs ((name, doc) :: members)
          · simp only [take, Slot.event, herr]
            exact .text (.of_child hv hbad)
        · exact (nested n hn .value).of_holds hn fun doc => ih hks hvs ((name, doc) :: members)
      · simp only [take, herr]
        exact .text (.of_child hk hbad)

end Members

theorem take_beginArray (h : Waits slot below) (m : Nat) (raw : Bool) :
    take below (.beginArray m raw) =
      if maxDepth ≤ below.length then .error (.tooDeep maxDepth)
      else .ok (.more (.array [] :: below)) := by
  cases h <;> rfl

theorem take_beginObject (h : Waits slot below) (m : Nat) :
    take below (.beginObject m) =
      if maxDepth ≤ below.length then .error (.tooDeep maxDepth)
      else .ok (.more (.object [] none :: below)) := by
  cases h <;> rfl

/-- Putting a container together comes to its document, unless a key or string in it is not text or
it nests too deep. -/
theorem leading_of_isWhole (h : c.IsWhole) : Leading c := by
  induction h with
  | @array c vs h hn ih =>
      intro slot below rest hw
      rw [h.trace, Trace.append, gather_next, take_beginArray hw]
      by_cases hd : maxDepth ≤ below.length
      · rw [if_pos hd]
        refine .depth ?_
        rw [Nat.sub_eq_zero_of_le hd]
        exact id
      · rw [if_neg hd]
        exact leads_elems ih h.child []
  | @object c ps h hn ih =>
      intro slot below rest hw
      rw [h.trace, Trace.append, gather_next, take_beginObject hw]
      by_cases hd : maxDepth ≤ below.length
      · rw [if_pos hd]
        refine .depth ?_
        rw [Nat.sub_eq_zero_of_le hd]
        exact id
      · rw [if_neg hd]
        exact leads_pairs ih h.key h.child []

end Json

namespace Container

open Json

variable {c : Container}

/-! ### Whole documents -/

/-- Of a raw container around another one no document is made. -/
theorem json_of_wrapsContainer (h : c.validate = .ok ()) (hw : c.WrapsContainer) :
    ∃ token, c.json = .error (.unexpected token .scalarRequired) := by
  obtain ⟨hr, n, hn⟩ := hw
  have hc := isWhole_of_validate h
  obtain ⟨v, -, hheld, ht⟩ := trace_of_isRaw hc hr
  obtain rfl := hheld n hn
  unfold json
  rw [ht]
  show ∃ token, ofTrace (.next _ (n.trace.append _)) = _
  cases hc.of_holds hn with
  | array h => rw [h.trace]; exact ⟨_, rfl⟩
  | object h => rw [h.trace]; exact ⟨_, rfl⟩

/-- Where no raw wrapper stands around a container, a document is made, unless a key or string is
not text or the containers nest too deep. -/
theorem json_of_not_wrapsContainer (h : c.validate = .ok ()) (hw : ¬ c.WrapsContainer) {f : Fault}
    (hf : c.json = .error f) :
    f = .invalidText ∧ c.HoldsBadText ∨ f = .tooDeep maxDepth ∧ ¬ c.NestsWithin maxDepth := by
  have hc := isWhole_of_validate h
  cases hr : c.isRaw with
  | true =>
      obtain ⟨v, hv, -, ht⟩ := trace_of_isRaw hc hr
      rcases isScalar_or_holds hv with hs | ⟨n, -, hn⟩
      · rw [Value.told_of_isScalar hs] at ht
        have hjson : c.json = ofScalar v := by
          unfold json
          rw [ht]
          rfl
        rcases ofScalar_cases hs with ⟨doc, hdoc⟩ | ⟨s, rfl, hbad, herr⟩
        · cases hf.symm.trans (hjson.trans hdoc)
        · cases hf.symm.trans (hjson.trans herr)
          exact .inl ⟨rfl, .of_child hv hbad⟩
      · exact absurd ⟨hr, n, hn⟩ hw
  | false =>
      have hjson : c.json = gather [] (c.trace.append .finished) := by
        rw [Trace.append_finished]
        unfold json
        cases hc with
        | array h => rw [h.trace, hr]; rfl
        | object h => rw [h.trace]; rfl
      have hlead : Leads c [] .finished (gather [] (c.trace.append .finished)) :=
        leading_of_isWhole hc .root
      rw [← hjson, hf] at hlead
      generalize hx : Except.error f = r at hlead
      cases hlead with
      | document doc => cases hx
      | text h => cases hx; exact .inl ⟨rfl, h⟩
      | depth h => cases hx; exact .inr ⟨rfl, h⟩

/-- A container that validates has a document and can be built, except for what validation does not
look at.  Of a raw wrapper around a container no document is made; of any other container there is
a document, unless a key or string is not text or the containers nest too deep.  If they do not, the
replayed events build exactly if there is no raw container inside and no raw wrapper around one. -/
theorem consumed_of_validate (h : c.validate = .ok ()) :
    (c.WrapsContainer → ∃ token, c.json = .error (.unexpected token .scalarRequired)) ∧
    (¬ c.WrapsContainer → ∀ f, c.json = .error f →
      f = .invalidText ∧ c.HoldsBadText ∨ f = .tooDeep maxDepth ∧ ¬ c.NestsWithin maxDepth) ∧
    (c.NestsWithin maxDepth → ∃ es, (Replay.before c false).Runs es (.ok ()) ∧
      ((∃ v, build {} es = .ok v) ↔ ¬ c.WrapsContainer ∧ c.NestsNoRaw)) :=
  ⟨json_of_wrapsContainer h, fun hw _ hf => json_of_not_wrapsContainer h hw hf,
    fun hd => ⟨c.trace.events, h ▸ c.runs_trace, exists_build_iff h hd⟩⟩

/-- An array of a string that is not text has no document, but its events build. -/
theorem consumed_of_validate_bad_text :
    ∃ c : Container, c.validate = .ok () ∧ c.json = .error .invalidText ∧ c.HoldsBadText ∧
      ∃ es v, (Replay.before c false).Runs es (.ok ()) ∧ build {} es = .ok v := by
  let c : Container := ⟨⟨.array, 1, by decide, fun _ => rfl⟩, [2147483649], [255], rfl⟩
  have hchild : c.child 0 = .ok (.string [255]) := by cbv
  have htrace : c.trace =
      .next (.beginArray 1 false) (.next (.elem (.string [255])) (.next .endArray .finished)) := by
    rw [trace_eq_walkWith, walkWith_of_array rfl]
    show Trace.next _ (c.elemsFrom entered [0]) = _
    rw [elemsFrom_cons, hchild]
    rfl
  have hvalid : c.validate = .ok () := by
    rw [validate, htrace]
    rfl
  have hjson : c.json = .error .invalidText := by
    rw [json, htrace]
    rfl
  have hheld : ∀ n, ¬ c.Holds n := by
    rintro n ⟨i, hi⟩
    obtain rfl : i = 0 := Nat.lt_one_iff.mp (lt_of_child hi)
    cases hi.symm.trans hchild
  have hwraps : ¬ c.WrapsContainer := by
    rintro ⟨-, n, hn⟩
    exact hheld n hn
  have hnests : c.NestsWithin maxDepth := by
    intro n hn
    exact absurd hn (hheld n)
  have hraw : c.NestsNoRaw := by
    intro n hn
    obtain ⟨m, hm, -⟩ := Relation.TransGen.head'_iff.mp hn
    exact absurd hm (hheld m)
  obtain ⟨-, hdoc, hbuild⟩ := consumed_of_validate hvalid
  obtain ⟨es, hruns, hiff⟩ := hbuild hnests
  obtain ⟨v, hv⟩ := hiff.mpr ⟨hwraps, hraw⟩
  rcases hdoc hwraps _ hjson with ⟨-, hbad⟩ | ⟨hdeep, -⟩
  · exact ⟨c, hvalid, hjson, hbad, es, v, hruns, hv⟩
  · cases hdeep

/-- A raw wrapper around an empty array validates and does not nest deep, but it has no document and
its events do not build. -/
theorem wrapped_array_validates :
    ∃ c, ofBytes [1, 0, 0, 80, 4, 0, 0, 208, 0, 0, 0, 64] = .ok c ∧ c.validate = .ok () ∧
      c.NestsWithin maxDepth ∧ c.json = .error (.unexpected .beginArray .scalarRequired) ∧
      ∃ es, (Replay.before c false).Runs es (.ok ()) ∧
        build {} es = .error (.unexpected .beginArray .rawHoldsContainer) := by
  let n : Container := ⟨⟨.array, 0, by decide, fun h => absurd h (by decide)⟩, [], [], rfl⟩
  let c : Container := ⟨⟨.raw, 1, by decide, fun _ => rfl⟩, [3489660932], [0, 0, 0, 64], rfl⟩
  have hbytes : ofBytes [1, 0, 0, 80, 4, 0, 0, 208, 0, 0, 0, 64] = .ok c := by cbv
  have hchild : c.child 0 = .ok (.binary n) := by cbv
  have hinner : n.trace = .next (.beginArray 0 false) (.next .endArray .finished) := by
    rw [trace_eq_walkWith, walkWith_of_array rfl]
    rfl
  have htrace : c.trace =
      .next (.beginArray 1 true) (n.trace.append (.next .endArray .finished)) := by
    rw [trace_eq_walkWith, walkWith_of_array rfl]
    show Trace.next _ (c.elemsFrom entered [0]) = _
    rw [elemsFrom_cons, hchild]
    rfl
  rw [hinner] at htrace
  have hvalid : c.validate = .ok () := by
    rw [validate, htrace]
    rfl
  have hjson : c.json = .error (.unexpected .beginArray .scalarRequired) := by
    rw [json, htrace]
    rfl
  have hbuild : build {} c.trace.events = .error (.unexpected .beginArray .rawHoldsContainer) := by
    rw [htrace]
    rfl
  have hnests : c.NestsWithin maxDepth := by
    rintro m ⟨i, hi⟩
    obtain rfl : i = 0 := Nat.lt_one_iff.mp (lt_of_child hi)
    cases hi.symm.trans hchild
    rintro m ⟨i, hi⟩
    exact absurd (lt_of_child hi) (Nat.not_lt_zero i)
  refine ⟨c, hbytes, hvalid, hnests, hjson, c.trace.events, ?_, hbuild⟩
  have hruns := c.runs_trace
  rwa [hvalid] at hruns

end Container

end PackedTree
