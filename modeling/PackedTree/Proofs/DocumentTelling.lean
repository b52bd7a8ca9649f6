import PackedTree.Json.Packing
import PackedTree.Proofs.BuilderRuns
import PackedTree.Proofs.DocumentParts

/-! # Telling a document to a builder

A document is told as one long trace, and the builder keeps track of the open containers.
`Json.built` says the same member by member: the value of a document, or the first fault, from the
values of its members.  Telling a document to a builder that has a place for it stores what it is
built to (`feed_trace`), so the value of a whole document is `Json.builtRoot` (`value_eq`). -/

namespace PackedTree.Json

open Builder (opened)

/-! ### Member by member -/

mutual

/-- What a builder makes of a document inside `level` containers. -/
def built (o : Options) (level : Nat) : Json → Except Fault Value
  | .null => .ok .null
  | .bool b => .ok (.bool b)
  | .string s => .ok (.string (Bytes.ofText s))
  | .number n =>
      match Decimal.read n.text with
      | .ok d => .ok (.number d)
      | .error _ => .error .invalidNumber
  | .array items =>
      if maxDepth ≤ level then .error (.tooDeep maxDepth)
      else do .ok (.array false (← builtItems o (level + 1) 0 items))
  | .object members =>
      if maxDepth ≤ level then .error (.tooDeep maxDepth)
      else do .ok (.object (← Builder.finishPairs o (← builtMembers o (level + 1) 0 members)))

/-- What it makes of items behind `count` others. -/
def builtItems (o : Options) (level count : Nat) : List Json → Except Fault (List Value)
  | [] => .ok []
  | v :: vs => do
      let w ← v.built o level
      if o.limit ≤ count then .error (.tooManyElements (count + 1) o.limit)
      else .ok (w :: (← builtItems o level (count + 1) vs))

/-- What it makes of members behind `count` others. -/
def builtMembers (o : Options) (level count : Nat) :
    List (String × Json) → Except Fault (List (Bytes × Value))
  | [] => .ok []
  | (k, v) :: ms => do
      let w ← v.built o level
      if o.limit ≤ count then .error (.tooManyPairs (count + 1) o.limit)
      else .ok ((Bytes.ofText k, w) :: (← builtMembers o level (count + 1) ms))

end

/-- What a builder makes of a whole document; a scalar is put into a raw array. -/
def builtRoot (o : Options) (doc : Json) : Except Fault Value :=
  if doc.isScalar then do
    let v ← doc.built o 1
    if o.limit ≤ 0 then .error (.tooManyElements 1 o.limit) else .ok (.array true [v])
  else doc.built o 0

/-! ### Telling a document is building it -/

section Feeding

variable {o : Options} {frames : List Frame} {doc : Json} {slot : Slot}

/-- The open containers have a place for a document in the slot. -/
inductive Fits (doc : Json) : Slot → List Frame → Prop
  | root (h : doc.isScalar = false) : Fits doc .elem []
  | raw (h : doc.isScalar = true) : Fits doc .elem [.array true []]
  | elem {elems : List Value} {below : List Frame} : Fits doc .elem (.array false elems :: below)
  | value {pairs : List (Bytes × Value)} {k : Bytes} {below : List Frame} :
      Fits doc .value (.object pairs (some k) :: below)

/-- What comes of a trace behind a value that is stored. -/
def storedThen (b : Builder) (v : Value) (rest : Trace) : Except Fault (Option Value) :=
  match b.store v with
  | (.ok r, b) => (b.feed r rest).1
  | (.error f, _) => .error f

theorem storedThen_elem (raw : Bool) (elems : List Value) (v : Value) (rest : Trace) :
    storedThen (opened o (.array raw elems :: frames)) v rest =
      if o.limit ≤ elems.length then .error (.tooManyElements (elems.length + 1) o.limit)
      else ((opened o (.array raw (v :: elems) :: frames)).feed none rest).1 := by
  unfold storedThen
  split_ifs with hmax
  · have hstore : (opened o (.array raw elems :: frames)).store v = _ := if_pos hmax
    rw [hstore]
    rfl
  · rw [Builder.store_elem (Nat.not_le.mp hmax)]

theorem storedThen_value (pairs : List (Bytes × Value)) (k : Bytes) (v : Value) (rest : Trace) :
    storedThen (opened o (.object pairs (some k) :: frames)) v rest =
      if o.limit ≤ pairs.length then .error (.tooManyPairs (pairs.length + 1) o.limit)
      else ((opened o (.object ((k, v) :: pairs) none :: frames)).feed none rest).1 := by
  unfold storedThen
  split_ifs with hmax
  · have hstore : (opened o (.object pairs (some k) :: frames)).store v = _ := if_pos hmax
    rw [hstore]
    rfl
  · rw [Builder.store_value (Nat.not_le.mp hmax)]

theorem feed_next (b : Builder) (last : Option Value) (e : Event) (rest : Trace) :
    (b.feed last (.next e rest)).1 =
      match b.step e with
      | (.ok r, b) => (b.feed r rest).1
      | (.error f, _) => .error f := by
  rw [Builder.feed]
  rcases b.step e with ⟨_ | _, _⟩ <;> rfl

theorem Fits.closedTo (h : Fits doc slot frames) (hd : doc.isScalar = false) :
    frames.head?.bind Frame.closedTo = none := by
  cases h with
  | root | elem | value => rfl
  | raw hs => cases hs.symm.trans hd

theorem feed_scalar {v : Value} (h : Fits doc slot frames) (hd : doc.isScalar = true)
    (rest : Trace) : ((opened o frames).feed none (.next (slot.event v) rest)).1 =
      storedThen (opened o frames) v rest := by
  rw [feed_next]
  cases h with
  | root hs => cases hs.symm.trans hd
  | raw | elem | value => rfl

theorem feed_begin {e : Event} {frame : Frame} {token : Token}
    (hstep : (opened o frames).step e = (opened o frames).enter token frame)
    (hw : frames.head?.bind Frame.closedTo = none) (t : Trace) :
    ((opened o frames).feed none (.next e t)).1 =
      if maxDepth ≤ frames.length then .error (.tooDeep maxDepth)
      else ((opened o (frame :: frames)).feed none t).1 := by
  rw [feed_next, hstep]
  split_ifs with hd
  · have hframes : (opened o frames).frames = frames := rfl
    have henter : (opened o frames).enter token frame =
        (.error (.tooDeep maxDepth), opened o frames) := by
      unfold Builder.enter
      rw [hframes, hw]
      exact if_pos hd
    rw [henter]
  · rw [Builder.enter_opened hw (Nat.not_le.mp hd)]

/-- Feeding the telling of a document stores what the document is built to. -/
def Feeds (o : Options) (doc : Json) : Prop :=
  ∀ {slot : Slot} {frames : List Frame} (rest : Trace), Fits doc slot frames →
    ((opened o frames).feed none ((doc.trace slot).append rest)).1 =
      doc.built o frames.length >>= fun v => storedThen (opened o frames) v rest

theorem feed_items {items : List Json} (ih : ∀ v ∈ items, Feeds o v) (elems : List Value)
    (rest : Trace) :
    ((opened o (.array false elems :: frames)).feed none
        ((traceItems items).append (.next .endArray rest))).1 =
      builtItems o (frames.length + 1) elems.length items >>= fun ws =>
        storedThen (opened o frames) (.array false (elems.reverse ++ ws)) rest := by
  induction items generalizing elems with
  | nil =>
      rw [traceItems, Trace.append, feed_next, builtItems]
      show _ = storedThen (opened o frames) (.array false (elems.reverse ++ [])) rest
      rw [List.append_nil]
      rfl
  | cons v vs ih' =>
      obtain ⟨hv, hvs⟩ := List.forall_mem_cons.mp ih
      rw [traceItems, Trace.append_assoc, hv _ .elem, builtItems, List.length_cons]
      cases v.built o (frames.length + 1) with
      | error f => rfl
      | ok w =>
          show storedThen (opened o (.array false elems :: frames)) w _ = (if _ then _ else _) >>= _
          rw [storedThen_elem]
          split_ifs
          · rfl
          · rw [ih' hvs (w :: elems), List.length_cons]
            cases builtItems o (frames.length + 1) (elems.length + 1) vs with
            | error f => rfl
            | ok ws => simp [bind, Except.bind]

theorem feed_members {members : List (String × Json)} (ih : ∀ m ∈ members, Feeds o m.2)
    (pairs : List (Bytes × Value)) (rest : Trace) :
    ((opened o (.object pairs none :: frames)).feed none
        ((traceMembers members).append (.next .endObject rest))).1 =
      builtMembers o (frames.length + 1) pairs.length members >>= fun ps =>
        Builder.finishPairs o (pairs.reverse ++ ps) >>= fun qs =>
          storedThen (opened o frames) (.object qs) rest := by
  induction members generalizing pairs with
  | nil =>
      rw [traceMembers, Trace.append, feed_next, builtMembers]
      show _ = Builder.finishPairs o (pairs.reverse ++ []) >>= _
      rw [List.append_nil]
      cases hf : Builder.finishPairs o pairs.reverse with
      | error f => simp only [Builder.step, opened, hf]; rfl
      | ok ps => simp only [Builder.step, opened, hf]; rfl
  | cons m ms ih' =>
      obtain ⟨k, v⟩ := m
      obtain ⟨hv, hvs⟩ := List.forall_mem_cons.mp ih
      have hkey : (opened o (.object pairs none :: frames)).step (.key (Bytes.ofText k)) =
          (.ok none, opened o (.object pairs (some (Bytes.ofText k)) :: frames)) := rfl
      rw [traceMembers, Trace.append, Trace.append_assoc, feed_next, hkey]
      show ((opened o (.object pairs (some (Bytes.ofText k)) :: frames)).feed none
        ((v.trace .value).append _)).1 = _
      rw [hv _ .value, builtMembers, List.length_cons]
      cases v.built o (frames.length + 1) with
      | error f => rfl
      | ok w =>
          show storedThen (opened o (.object pairs (some (Bytes.ofText k)) :: frames)) w _ =
            (if _ then _ else _) >>= _
          rw [storedThen_value]
          split_ifs
          · rfl
          · rw [ih' hvs ((Bytes.ofText k, w) :: pairs), List.length_cons]
            cases builtMembers o (frames.length + 1) (pairs.length + 1) ms with
            | error f => rfl
            | ok ps => simp [bind, Except.bind]

theorem feeds_of_isScalar {v : Value} (hd : doc.isScalar = true)
    (ht : ∀ slot, doc.trace slot = .next (slot.event v) .finished)
    (hb : ∀ level, doc.built o level = .ok v) : Feeds o doc := by
  intro slot frames rest h
  rw [ht, hb, Trace.append, Trace.append, feed_scalar h hd]
  rfl

/-- Telling a document to a builder that has a place for it stores what the document is built
to. -/
theorem feed_trace (o : Options) (doc : Json) : Feeds o doc := by
  induction doc using induction_on_members with
  | null => exact feeds_of_isScalar rfl (fun _ => by rw [trace]) fun _ => by rw [built]
  | bool b => exact feeds_of_isScalar rfl (fun _ => by rw [trace]) fun _ => by rw [built]
  | string s => exact feeds_of_isScalar rfl (fun _ => by rw [trace]) fun _ => by rw [built]
  | number n =>
      cases hn : Decimal.read n.text with
      | ok d =>
          exact feeds_of_isScalar rfl (fun _ => by rw [trace, hn]) fun _ => by rw [built, hn]
      | error f =>
          intro slot frames rest h
          rw [trace, built, hn]
          rfl
  | array items ih =>
      intro slot frames rest h
      rw [trace, Trace.append, Trace.append_assoc, built, feed_begin rfl (h.closedTo rfl)]
      split_ifs with hd
      · rfl
      · rw [Trace.append, Trace.append, feed_items ih [], List.length_nil]
        cases builtItems o (frames.length + 1) 0 items <;> rfl
  | object members ih =>
      intro slot frames rest h
      rw [trace, Trace.append, Trace.append_assoc, built, feed_begin rfl (h.closedTo rfl)]
      split_ifs with hd
      · rfl
      · rw [Trace.append, Trace.append, feed_members ih [], List.length_nil]
        cases builtMembers o (frames.length + 1) 0 members with
        | error f => rfl
        | ok ps =>
            show Builder.finishPairs o ps >>= _ = (Builder.finishPairs o ps >>= _) >>= _
            cases Builder.finishPairs o ps <;> rfl

theorem wholeTrace_of_container (hd : doc.isScalar = false) :
    doc.wholeTrace = doc.trace .elem := by
  cases doc with
  | array | object => rfl
  | _ => cases hd

theorem wholeTrace_of_isScalar (hd : doc.isScalar = true) :
    doc.wholeTrace =
      .next (.beginArray 1 true) ((doc.trace .elem).append (.next .endArray .finished)) := by
  cases doc with
  | array | object => cases hd
  | _ => rfl

theorem feed_wholeTrace (o : Options) (doc : Json) :
    ((Builder.empty o).feed none doc.wholeTrace).1 = (doc.builtRoot o).map some := by
  unfold builtRoot
  by_cases hd : doc.isScalar = true
  · have hbegin : (Builder.empty o).step (.beginArray 1 true) =
        (.ok none, opened o [.array true []]) := rfl
    rw [if_pos hd, wholeTrace_of_isScalar hd, feed_next, hbegin]
    show ((opened o [.array true []]).feed none _).1 = _
    rw [feed_trace o doc _ (.raw hd), List.length_singleton]
    cases doc.built o 1 with
    | error f => rfl
    | ok v =>
        show storedThen (opened o [.array true []]) v _ = Except.map _ (if _ then _ else _)
        rw [storedThen_elem, List.length_nil]
        split_ifs <;> rfl
  · have hd := (Bool.not_eq_true _).mp hd
    have hfeed := feed_trace o doc .finished (.root hd)
    rw [Trace.append_finished] at hfeed
    rw [if_neg (Bool.eq_false_iff.mp hd), wholeTrace_of_container hd]
    refine hfeed.trans ?_
    rw [List.length_nil]
    cases doc.built o 0 <;> rfl

theorem value_eq (o : Options) (doc : Json) : doc.value o = doc.builtRoot o := by
  have h := feed_wholeTrace o doc
  unfold value
  cases hfeed : (Builder.empty o).feed none doc.wholeTrace with
  | mk x b =>
      rw [hfeed] at h
      cases hroot : doc.builtRoot o with
      | error f =>
          rw [hroot] at h
          obtain rfl : x = .error f := h
          rfl
      | ok v =>
          rw [hroot] at h
          obtain rfl : x = .ok (some v) := h
          rfl

end Feeding

end PackedTree.Json
