import PackedTree.Proofs.ContainerOrder
import PackedTree.Proofs.WatchedReading

/-! # Reading never leaves the bytes of a container

`Watched.Sound w x` says that a watched reading `w` ends as the plain reading `x` does, with the
same value or with the same fault, and that the fault lies in the bytes of the container; so `w` has
made no breach.  It is shown of every reader, from the single accesses up (`sound_entry`,
`sound_childAt`, `sound_next`), whatever positions and offsets it is given.

`reads_safely` collects what follows for one container, whatever its bytes. -/

namespace PackedTree

namespace Watched

/-- A watched reading ends as a plain one, and a fault lies in the bytes of a container. -/
inductive Sound {α : Type} : Watched α → Except Fault α → Prop
  | ok (a : α) : Sound (.ok a) (.ok a)
  | fault {f : Fault} (hf : f.isFormat = true) : Sound (fail f) (.error f)

variable {α β : Type} {w : Watched α} {x : Except Fault α}

theorem Sound.bind {g : α → Watched β} {k : α → Except Fault β} (h : Sound w x)
    (hk : ∀ a, Sound (g a) (k a)) : Sound (w >>= g) (x >>= k) := by
  cases h with
  | ok a => exact hk a
  | fault hf => exact .fault hf

theorem Sound.map (h : Sound w x) (f : α → β) : Sound (w.map f) (x.map f) := by
  cases h with
  | ok a => exact .ok (f a)
  | fault hf => exact .fault hf

theorem Sound.ite {p : Prop} [Decidable p] {w' : Watched α} {x' : Except Fault α}
    (h : p → Sound w x) (h' : ¬ p → Sound w' x') :
    Sound (if p then w else w') (if p then x else x') := by
  by_cases hp : p
  · rw [if_pos hp, if_pos hp]
    exact h hp
  · rw [if_neg hp, if_neg hp]
    exact h' hp

theorem Sound.eq_or (h : Sound w x) :
    (∃ a, w = .ok a ∧ x = .ok a) ∨ ∃ f, f.isFormat = true ∧ w = fail f ∧ x = .error f := by
  cases h with
  | ok a => exact .inl ⟨a, rfl, rfl⟩
  | fault hf => exact .inr ⟨_, hf, rfl, rfl⟩

theorem Sound.unique {w' : Watched α} (h : Sound w x) (h' : Sound w' x) : w = w' := by
  cases h <;> cases h' <;> rfl

theorem sound_unbroken (h : ∀ f, x = .error f → f.isFormat = true) : Sound (unbroken x) x := by
  cases x with
  | ok a => exact .ok a
  | error f => exact .fault (h f rfl)

/-! ### Byte strings -/

section Bytes

variable {b : Bytes} {offset len start stop : Nat}

theorem cut_of_le (h : start ≤ stop) (hs : stop ≤ b.length) :
    cut b start stop = .ok (b.extract start stop) :=
  if_pos ⟨h, hs⟩

theorem check_of_le (h : offset + len ≤ b.length) : check b offset len = .ok () := if_pos h

theorem check_of_lt (h : b.length < offset + len) :
    check b offset len = fail (.truncated ⟨offset, len, b.length⟩) :=
  if_neg (Nat.not_le.mpr h)

theorem slice_of_le (h : offset + len ≤ b.length) :
    slice b offset len = .ok (b.extract offset (offset + len)) := by
  unfold slice
  rw [check_of_le h]
  exact cut_of_le (Nat.le_add_right offset len) h

theorem suffix_of_le (h : offset ≤ b.length) : suffix b offset = .ok (b.drop offset) := by
  unfold suffix
  rw [check_of_le h]
  show cut b offset b.length = _
  rw [cut_of_le h (Nat.le_refl _), List.extract_eq_take_drop, ← List.length_drop, List.take_length]

theorem word_of_le (h : offset + 4 ≤ b.length) :
    word b offset = .ok (Bytes.toWord ((b.drop offset).take 4)) := by
  have hs : ((b.drop offset).take 4).length = 4 := by
    rw [List.length_take, List.length_drop]
    omega
  unfold word
  rw [check_of_le h]
  simp only [bind, Except.bind, cut_of_le (Nat.le_add_right offset 4) h,
    List.extract_eq_take_drop, Nat.add_sub_cancel_left]
  match (b.drop offset).take 4, hs with
  | [_, _, _, _], _ => rfl

theorem int64_of_le (h : offset + 8 ≤ b.length) :
    int64 b offset = .ok (Bytes.toInt64 ((b.drop offset).take 8)) := by
  have hs : (b.extract offset (offset + 8)).length = 8 := by
    rw [List.extract_eq_take_drop, List.length_take, List.length_drop]
    omega
  unfold int64
  rw [slice_of_le h]
  simp only [bind, Except.bind, copied, if_pos hs]
  rw [List.extract_eq_take_drop, Nat.add_sub_cancel_left]

theorem alignUp_eq {n align : Nat} (h : 0 < align) :
    alignUp n align = .ok (Bytes.alignUp n align) := by
  have h₁ : minus (n + align) 1 = .ok (n + align - 1) := if_pos (by omega)
  have h₂ : minus align 1 = .ok (align - 1) := if_pos h
  unfold alignUp
  rw [h₁, h₂]
  rfl

end Bytes

/-! ### Contents -/

theorem sound_number (b : Bytes) :
    Sound ((number b).map .number) (Container.decode .number b) := by
  by_cases hb : b.length ≤ 8
  · have hw : number b = fail .invalidNumber := if_pos hb
    have hx : Decimal.ofBytes? b = none := if_pos hb
    simp only [Container.decode, hw, hx]
    exact .fault rfl
  · have hi : int64 b 0 = .ok (Bytes.toInt64 (b.take 8)) := int64_of_le (by omega)
    have hs : suffix b 8 = .ok (b.drop 8) := suffix_of_le (by omega)
    have hw : number b = if Decimal.storable ⟨0, Bytes.toInt64 (b.take 8)⟩ then
        .ok ⟨Bytes.toInt (b.drop 8), Bytes.toInt64 (b.take 8)⟩ else fail .invalidNumber := by
      unfold number
      rw [if_neg hb, hi]
      simp only [bind, Except.bind, hs]
    have hx : Decimal.ofBytes? b = if Decimal.storable ⟨0, Bytes.toInt64 (b.take 8)⟩ then
        some ⟨Bytes.toInt (b.drop 8), Bytes.toInt64 (b.take 8)⟩ else none := if_neg hb
    rw [hw, Container.decode, hx]
    split
    · exact .ok _
    · exact .fault rfl

theorem isFormat_of_header {w : UInt32} {f : Fault} (h : Header.ofWord w = .error f) :
    f.isFormat = true := by
  unfold Header.ofWord at h
  split at h
  · cases h
  · cases h
  · split at h <;> cases h
    rfl
  · cases h
    rfl

theorem isFormat_of_descriptor {w : UInt32} {f : Fault} (h : Descriptor.ofWord w = .error f) :
    f.isFormat = true := by
  unfold Descriptor.ofWord at h
  split at h
  · cases h
    rfl
  · cases h

theorem sound_ofBytes (b : Bytes) : Sound (ofBytes b) (Container.ofBytes b) := by
  by_cases h4 : 0 + 4 ≤ b.length
  · have hw := word_of_le h4
    have hx : Bytes.word? b 0 = .ok (Bytes.toWord ((b.drop 0).take 4)) := by
      simp only [Bytes.word?, Bytes.slice?, if_pos h4]
      rfl
    unfold ofBytes Container.ofBytes
    rw [hw, hx]
    simp only [bind, Except.bind]
    cases hh : Header.ofWord (Bytes.toWord ((b.drop 0).take 4)) with
    | error f => exact .fault (isFormat_of_header hh)
    | ok h =>
        by_cases hd : 4 + 4 * h.entryCount ≤ b.length
        · have h0 : 0 + (4 + 4 * h.entryCount) ≤ b.length := by omega
          simp only [unbroken, slice_of_le h0, if_pos hd]
          exact .ok _
        · have h0 : b.length < 0 + (4 + 4 * h.entryCount) := by omega
          simp only [unbroken, slice, bind, Except.bind, check_of_lt h0, if_neg hd]
          exact .fault rfl
  · have hx : Bytes.word? b 0 = .error ⟨0, 4, b.length⟩ := by
      simp only [Bytes.word?, Bytes.slice?, if_neg h4]
      rfl
    unfold ofBytes word Container.ofBytes
    rw [check_of_lt (Nat.lt_of_not_le h4), hx]
    exact .fault rfl

/-! ### The directory and the payload -/

variable (c : Container)

theorem words_eq : Bytes.words c.entryCount (c.bytes.drop 4) = c.words := by
  have h4 := Bytes.length_ofWord c.header.toWord
  have hd : c.bytes.drop 4 = c.words.flatMap Bytes.ofWord ++ c.payload := by
    rw [Container.bytes, List.drop_left' h4]
  rw [hd, Container.entryCount, ← c.length_words, Bytes.words_flatMap_ofWord]

theorem getElem?_words {n i : Nat} {b : Bytes} (h : i < n) :
    (Bytes.words n b)[i]? = some (Bytes.toWord ((b.drop (4 * i)).take 4)) := by
  induction n generalizing b i with
  | zero => cases h
  | succ n ih =>
      cases i with
      | zero => rfl
      | succ i =>
          rw [Bytes.words, List.getElem?_cons_succ, ih (Nat.lt_of_succ_lt_succ h), List.drop_drop,
            Nat.mul_succ, Nat.add_comm 4]

theorem payload_eq : payload c = .ok c.payload := by
  have hl : payloadStart c ≤ c.bytes.length := by
    rw [c.length_bytes, Container.size, payloadStart]
    exact Nat.le_add_right _ _
  have hp : c.bytes.drop (payloadStart c) = c.payload := by
    have h4 := Bytes.length_ofWord c.header.toWord
    rw [Container.bytes, payloadStart, ← List.drop_drop, List.drop_left' h4, List.drop_left']
    rw [Container.length_flatMap_ofWord, c.length_words, Container.entryCount]
  unfold payload
  rw [cut_of_le hl (Nat.le_refl _), List.extract_eq_take_drop, ← List.length_drop,
    List.take_length, hp]

theorem outOfRange_eq (i stop : Nat) : outOfRange c i stop = c.outOfRange i stop := by
  rw [outOfRange, c.length_bytes, Container.size, payloadStart, Nat.add_sub_cancel_left]
  rfl

theorem sound_entry (i : Nat) : Sound (entry c i) (c.entry i) := by
  have hn : c.words.length = c.entryCount := c.length_words
  unfold entry Container.entry
  by_cases hi : c.entryCount ≤ i
  · rw [if_pos hi, List.getElem?_eq_none (hn ▸ hi)]
    exact .fault rfl
  · have hl : 4 + 4 * i + 4 ≤ c.bytes.length := by
      rw [c.length_bytes, Container.size]
      omega
    have hw : c.words[i]? = some (Bytes.toWord ((c.bytes.drop (4 + 4 * i)).take 4)) := by
      rw [← words_eq, getElem?_words (Nat.lt_of_not_le hi), List.drop_drop]
    rw [if_neg hi, word_of_le hl, hw]
    exact sound_unbroken fun f => isFormat_of_descriptor

theorem sound_walkBack (i : Nat) : Sound (walkBack c i) (c.walkBack i) := by
  induction i with
  | zero => exact .ok _
  | succ i ih =>
      refine (sound_entry c i).bind fun d => .ite (fun _ => .ok _) fun _ => ?_
      exact ih.bind fun _ => .ok _

theorem sound_start (i : Nat) : Sound (start c i) (c.start i) :=
  (sound_walkBack c i).map Prod.fst

theorem sound_length (i : Nat) : Sound (length c i) (c.length i) := by
  refine (sound_entry c i).bind fun d => .ite (fun _ => ?_) fun _ => .ok _
  refine (sound_start c i).bind fun o => ?_
  rw [outOfRange_eq]
  refine .ite (fun h => ?_) fun _ => .fault rfl
  rw [show minus d.field o = .ok (d.field - o) from if_pos h]
  exact .ok _

/-! ### Children -/

theorem childAt_eq (i o : Nat) :
    c.childAt i o = c.entry i >>= fun d =>
      if o ≤ d.stop o ∧ d.stop o ≤ c.payload.length ∧ Bytes.alignUp o d.tag.align ≤ d.stop o then
        Container.decode d.tag (c.payload.extract (Bytes.alignUp o d.tag.align) (d.stop o))
      else .error (c.outOfRange i (d.stop o)) := by
  unfold Container.childAt Container.extent
  cases c.entry i with
  | error f => rfl
  | ok d =>
      simp only [bind, Except.bind]
      by_cases h : o ≤ d.stop o ∧ d.stop o ≤ c.payload.length ∧
          Bytes.alignUp o d.tag.align ≤ d.stop o
      · rw [if_pos h, if_pos h]
      · rw [if_neg h, if_neg h]

/-- Behind padding, a range whose end lies in the payload is read if it does not end in the
padding. -/
theorem sound_padded {α : Type} {b : Bytes} {o stop : Nat} {f : Fault} (hf : f.isFormat = true)
    (hs : stop ≤ b.length) {read : Bytes → Watched α} {read' : Bytes → Except Fault α}
    (h : ∀ s, Sound (read s) (read' s)) :
    Sound (alignUp o 4 >>= fun start =>
        if stop < start then fail f else cut b start stop >>= read)
      (if Bytes.alignUp o 4 ≤ stop then read' (b.extract (Bytes.alignUp o 4) stop)
        else .error f) := by
  rw [alignUp_eq (by decide)]
  simp only [bind, Except.bind]
  by_cases hp : Bytes.alignUp o 4 ≤ stop
  · rw [if_neg (Nat.not_lt.mpr hp), if_pos hp, cut_of_le hp hs]
    exact h _
  · rw [if_pos (Nat.lt_of_not_le hp), if_neg hp]
    exact .fault hf

/-- The guards in front of a child let through the ranges that lie in the payload, and no other. -/
theorem sound_childAt (i o : Nat) : Sound (childAt c i o) (c.childAt i o) := by
  rw [childAt_eq]
  refine (sound_entry c i).bind fun d => ?_
  rw [payload_eq]
  simp only [outOfRange_eq]
  show Sound (if d.stop o < o ∨ c.payload.length < d.stop o then _ else _) _
  by_cases hout : d.stop o < o ∨ c.payload.length < d.stop o
  · rw [if_pos hout, if_neg (by omega)]
    exact .fault rfl
  · obtain ⟨ho, hs⟩ : o ≤ d.stop o ∧ d.stop o ≤ c.payload.length := by omega
    rw [if_neg hout]
    simp only [ho, hs, true_and]
    generalize d.stop o = stop at *
    cases d.tag with
    | null | no | yes =>
        rw [if_pos ((Bytes.alignUp_one o).symm ▸ ho)]
        exact .ok _
    | string =>
        rw [if_pos ((Bytes.alignUp_one o).symm ▸ ho), Tag.align, Bytes.alignUp_one,
          cut_of_le ho hs]
        exact .ok _
    | number => exact sound_padded rfl hs sound_number
    | container => exact sound_padded rfl hs fun b => (sound_ofBytes b).map Value.binary

theorem sound_child (i : Nat) : Sound (child c i) (c.child i) :=
  (sound_start c i).bind fun o => sound_childAt c i o

theorem sound_scalar? : Sound (scalar? c) c.scalar? :=
  .ite (fun _ => (sound_child c 0).map some) fun _ => .ok none

/-! ### Lookups -/

theorem sound_findFrom (target : Value) (count i o : Nat) :
    Sound (findFrom c target count i o) (c.findFrom target count i o) := by
  induction count generalizing i o with
  | zero => exact .ok none
  | succ count ih =>
      refine (sound_childAt c i o).bind fun v => .ite (fun _ => .ok _) fun _ => ?_
      exact (sound_entry c i).bind fun d => ih _ _

theorem sound_find? (target : Value) : Sound (find? c target) (c.find? target) :=
  .ite (fun _ => .ok none) fun _ => sound_findFrom c target c.len 0 0

theorem sound_keyAt (i : Nat) : Sound (keyAt c i) (c.keyAt i) := by
  refine (sound_child c i).bind fun v => ?_
  cases v with
  | string k => exact .ok k
  | _ => exact .fault rfl

section Search

variable {c} {key : Bytes} {lo hi : Nat}

theorem search_of_lt (h : lo < hi) :
    search c key lo hi = keyAt c (lo + (hi - lo) / 2) >>= fun k =>
      match Bytes.keyCompare k key with
      | .eq => (child c (lo + (hi - lo) / 2 + c.len)).map some
      | .lt => search c key (lo + (hi - lo) / 2 + 1) hi
      | .gt => search c key lo (lo + (hi - lo) / 2) := by
  have hw : minus hi lo = .ok (hi - lo) := if_pos (Nat.le_of_lt h)
  rw [search, dif_pos h]
  split
  · next x hx => cases hw.symm.trans hx
  · next width hx =>
      cases hw.symm.trans hx
      cases keyAt c (lo + (hi - lo) / 2) <;> rfl

theorem plain_search_of_lt (h : lo < hi) :
    c.search key lo hi = c.keyAt (lo + (hi - lo) / 2) >>= fun k =>
      match Bytes.keyCompare k key with
      | .eq => (c.child (lo + (hi - lo) / 2 + c.len)).map some
      | .lt => c.search key (lo + (hi - lo) / 2 + 1) hi
      | .gt => c.search key lo (lo + (hi - lo) / 2) := by
  rw [Container.search, dif_pos h]
  simp only
  cases c.keyAt (lo + (hi - lo) / 2) <;> rfl

/-- The bounds of a binary search never cross, so their difference is never below zero. -/
theorem sound_search : Sound (search c key lo hi) (c.search key lo hi) := by
  induction hn : hi - lo using Nat.strongRecOn generalizing lo hi with
  | ind n ih =>
      by_cases h : lo < hi
      · rw [search_of_lt h, plain_search_of_lt h]
        refine (sound_keyAt c _).bind fun k => ?_
        cases Bytes.keyCompare k key with
        | eq => exact (sound_child c _).map some
        | lt => exact ih (hi - (lo + (hi - lo) / 2 + 1)) (by omega) rfl
        | gt => exact ih (lo + (hi - lo) / 2 - lo) (by omega) rfl
      · rw [search, dif_neg h, Container.search, dif_neg h]
        exact .ok none

end Search

theorem sound_lookup? (key : Bytes) : Sound (lookup? c key) (c.lookup? key) :=
  .ite (fun _ => sound_search) fun _ => .ok none

/-- A lookup by position faults otherwise only on an object. -/
theorem sound_elem? (ho : c.isObject = false) (i : Nat) : Sound (elem? c i) (c.elem? i) := by
  have hno : ¬ c.isObject = true := by
    rw [ho]
    nofun
  unfold elem? Container.elem?
  rw [if_neg hno, if_neg hno]
  exact .ite (fun _ => (sound_child c i).map some) fun _ => .ok none

/-! ### Steps -/

section Steps

variable (cur : Cursor) (r : Replay)

theorem sound_enter : Sound (enter cur).1 cur.enter.1 ∧ (enter cur).2 = cur.enter.2 := by
  cases ho : cur.container.isObject with
  | false =>
      simp only [enter, Cursor.enter, ho]
      exact ⟨.ok _, rfl⟩
  | true =>
      simp only [enter, Cursor.enter, ho, if_true]
      rcases (sound_start cur.container cur.container.len).eq_or with ⟨o, hw, hx⟩ | ⟨f, hf, hw, hx⟩
      · rw [hw, hx]
        exact ⟨.ok _, rfl⟩
      · rw [hw, hx]
        exact ⟨.fault hf, rfl⟩

theorem sound_takeElem : Sound (takeElem cur) cur.takeElem :=
  (sound_childAt _ _ _).bind fun _ => (sound_entry _ _).bind fun _ => .ok _

theorem sound_peekKey : Sound (peekKey cur) cur.peekKey := by
  refine (sound_childAt _ _ _).bind fun v => ?_
  cases v with
  | string k => exact .ok k
  | _ => exact .fault rfl

theorem sound_takeValue : Sound (takeValue cur) cur.takeValue :=
  (sound_childAt _ _ _).bind fun _ => (sound_entry _ _).bind fun _ =>
    (sound_entry _ _).bind fun _ => .ok _

/-- A watched step ends as the plain one does and leaves the same state. -/
structure StepSound (out : Watched Event × Replay) (out' : Except Fault Event × Replay) :
    Prop where
  event : Sound out.1 out'.1
  state : out.2 = out'.2

theorem StepSound.eq_or {out : Watched Event × Replay} {out' : Except Fault Event × Replay}
    (h : StepSound out out') :
    (∃ e s, out = (.ok e, s) ∧ out' = (.ok e, s)) ∨
      ∃ f s, f.isFormat = true ∧ out = (fail f, s) ∧ out' = (.error f, s) := by
  obtain ⟨w, s⟩ := out
  obtain ⟨x, s'⟩ := out'
  obtain ⟨he, hs⟩ := h
  obtain rfl : s = s' := hs
  rcases he.eq_or with ⟨e, rfl, rfl⟩ | ⟨f, hf, rfl, rfl⟩
  · exact .inl ⟨e, s, rfl, rfl⟩
  · exact .inr ⟨f, s, hf, rfl, rfl⟩

theorem enter_stepSound (below : List Cursor) :
    StepSound ((enter cur).1, { r with stack := (enter cur).2 :: below })
      (cur.enter.1, { r with stack := cur.enter.2 :: below }) := by
  obtain ⟨he, hs⟩ := sound_enter cur
  exact ⟨he, by rw [hs]⟩

theorem deliver_stepSound (slot : Slot) (v : Value) (rest : List Cursor) :
    StepSound (deliver r slot v rest) (r.deliver slot v rest) := by
  cases v with
  | binary n =>
      obtain ⟨stack, shallow⟩ := r
      cases shallow with
      | true => exact ⟨.ok _, rfl⟩
      | false => exact enter_stepSound (.before n) ⟨stack, false⟩ rest
  | _ => exact ⟨.ok _, rfl⟩

/-- Every step of every reading is sound, also from states that no reading comes to. -/
theorem sound_next : StepSound (next r) r.next := by
  obtain ⟨stack, shallow⟩ := r
  cases stack with
  | nil => exact ⟨.ok _, rfl⟩
  | cons cur below =>
      cases hp : cur.phase with
      | start =>
          simp only [next, Replay.next, hp]
          exact enter_stepSound cur ⟨[], shallow⟩ below
      | member =>
          cases ho : cur.container.isObject with
          | false =>
              by_cases hi : cur.index < cur.container.len
              · simp only [next, Replay.next, hp, ho, if_pos hi]
                rcases (sound_takeElem cur).eq_or with ⟨a, hw, hx⟩ | ⟨f, hf, hw, hx⟩
                · rw [hw, hx]
                  exact deliver_stepSound _ _ _ _
                · rw [hw, hx]
                  exact ⟨.fault hf, rfl⟩
              · simp only [next, Replay.next, hp, ho, if_neg hi]
                exact ⟨.ok _, rfl⟩
          | true =>
              by_cases hi : cur.index < cur.container.len
              · simp only [next, Replay.next, hp, ho, if_pos hi]
                rcases (sound_peekKey cur).eq_or with ⟨k, hw, hx⟩ | ⟨f, hf, hw, hx⟩
                · rw [hw, hx]
                  exact ⟨.ok _, rfl⟩
                · rw [hw, hx]
                  exact ⟨.fault hf, rfl⟩
              · simp only [next, Replay.next, hp, ho, if_neg hi]
                exact ⟨.ok _, rfl⟩
      | value =>
          simp only [next, Replay.next, hp]
          rcases (sound_takeValue cur).eq_or with ⟨a, hw, hx⟩ | ⟨f, hf, hw, hx⟩
          · rw [hw, hx]
            exact deliver_stepSound _ _ _ _
          · rw [hw, hx]
            exact ⟨.fault hf, rfl⟩

theorem sound_steps (n : Nat) :
    List.Forall₂ (fun w x => Sound w.1 x.1 ∧ w.2 = x.2) (steps n r) (r.steps n) := by
  induction n generalizing r with
  | zero => exact .nil
  | succ n ih =>
      obtain ⟨he, hs⟩ := sound_next r
      refine .cons ⟨he, congrArg Replay.depth hs⟩ ?_
      show List.Forall₂ _ (steps n (next r).2) _
      rw [hs]
      exact ih _

end Steps

/-! ### Loops -/

section Loops

variable {r r' s : Replay} {α : Type} {take : α → Event → α} {a : α}

theorem next_of_ok {e : Event} (h : r.next = (.ok e, r')) : next r = (.ok e, r') := by
  rcases (sound_next r).eq_or with ⟨d, s, hw, hx⟩ | ⟨f, s, -, -, hx⟩
  · cases h.symm.trans hx
    exact hw
  · cases h.symm.trans hx

theorem next_of_error {f : Fault} (h : r.next = (.error f, r')) :
    next r = (fail f, r') ∧ f.isFormat = true := by
  rcases (sound_next r).eq_or with ⟨d, s, -, hx⟩ | ⟨g, s, hg, hw, hx⟩
  · cases h.symm.trans hx
  · cases h.symm.trans hx
    exact ⟨hw, hg⟩

theorem plain_of_ok {e : Event} (h : next r = (.ok e, r')) : r.next = (.ok e, r') := by
  rcases (sound_next r).eq_or with ⟨d, s, hw, hx⟩ | ⟨f, s, -, hw, -⟩
  · cases h.symm.trans hw
    exact hx
  · cases h.symm.trans hw

theorem plain_of_halt {x : Halt} (h : next r = (.error x, r')) :
    ∃ f, x = .fault f ∧ f.isFormat = true ∧ r.next = (.error f, r') := by
  rcases (sound_next r).eq_or with ⟨d, s, hw, -⟩ | ⟨f, s, hf, hw, hx⟩
  · cases h.symm.trans hw
  · cases h.symm.trans hw
    exact ⟨f, rfl, hf, hx⟩

/-- A loop follows a run of the plain reading. -/
theorem Folds.runs {out : Watched α} (h : Folds take r a out) :
    ∃ es o, r.Runs es o ∧ Sound out (o.map fun _ => es.foldl take a) := by
  induction h with
  | done hn => exact ⟨[], .ok (), .done (plain_of_ok hn), .ok _⟩
  | halt hn =>
      obtain ⟨f, rfl, hf, hn⟩ := plain_of_halt hn
      exact ⟨[], .error f, .fault hn, .fault hf⟩
  | step hn he _ ih =>
      obtain ⟨es, o, hr, hs⟩ := ih
      exact ⟨_ :: es, o, .step (plain_of_ok hn) he hr, hs⟩

theorem Lockstep.det {out out' : Watched Ordering} (h : Lockstep r s out)
    (h' : Lockstep r s out') : out = out' := by
  induction h with
  | decided ht =>
      cases h' with
      | decided ht' => exact Option.some.inj (ht.symm.trans ht')
      | again ht' => cases ht.symm.trans ht'
  | again ht _ ih =>
      cases h' with
      | decided ht' => cases ht.symm.trans ht'
      | again _ h' => exact ih h'

theorem turn_of_ne {e d : Event} (h : e.compare d ≠ .eq) :
    turn (.ok e) (.ok d) = some (.ok (e.compare d)) := by
  unfold turn
  split
  · next heq => cases heq
  · next heq => cases heq
  · next he hd =>
      cases he
      cases hd
      exact absurd rfl h
  · next he hd =>
      cases he
      cases hd
      split
      · next heq => exact absurd heq h
      · rfl

theorem turn_of_eq {e d : Event} (hd : ¬ (e = .done ∧ d = .done)) (h : e.compare d = .eq) :
    turn (.ok e) (.ok d) = none := by
  unfold turn
  split
  · next heq => cases heq
  · next heq => cases heq
  · next he hd' =>
      cases he
      cases hd'
      exact absurd ⟨rfl, rfl⟩ hd
  · next he hd' =>
      cases he
      cases hd'
      rw [h]

/-- The one outcome of a loop is that of a plain reading. -/
def Ends (loop : Watched α → Prop) (x : Except Fault α) : Prop :=
  ∃ w, Sound w x ∧ ∀ out, loop out ↔ out = w

theorem ends_folds {es : List Event} {o : Except Fault Unit} (h : r.Runs es o)
    (take : α → Event → α) (a : α) :
    Ends (Folds take r a) (o.map fun _ => es.foldl take a) := by
  have hex : ∃ w, Folds take r a w ∧ Sound w (o.map fun _ => es.foldl take a) := by
    induction h generalizing a with
    | done hn => exact ⟨_, .done (next_of_ok hn), .ok _⟩
    | fault hn =>
        obtain ⟨hn, hf⟩ := next_of_error hn
        exact ⟨_, .halt hn, .fault hf⟩
    | @step r r' e es o hn he ht ih =>
        obtain ⟨w, hw, hs⟩ := ih (take a e)
        exact ⟨w, .step (next_of_ok hn) he hw, hs⟩
  obtain ⟨w, hw, hs⟩ := hex
  refine ⟨w, hs, fun out => ⟨fun hout => ?_, fun h => h ▸ hw⟩⟩
  -- Two loops follow the same run, since the plain reading has only one.
  obtain ⟨es', o', hr, hsout⟩ := hout.runs
  obtain ⟨rfl, rfl⟩ := hr.det h
  exact hsout.unique hs

theorem ends_lockstep {o : Except Fault Ordering} (h : r.Lockstep s o) :
    Ends (Lockstep r s) o := by
  have hex : ∃ w, Lockstep r s w ∧ Sound w o := by
    induction h with
    | left hr =>
        obtain ⟨hr, hf⟩ := next_of_error hr
        exact ⟨_, .decided (by rw [hr]; rfl), .fault hf⟩
    | right hr hs =>
        obtain ⟨hs, hf⟩ := next_of_error hs
        exact ⟨_, .decided (by rw [next_of_ok hr, hs]; rfl), .fault hf⟩
    | done hr hs => exact ⟨_, .decided (by rw [next_of_ok hr, next_of_ok hs]; rfl), .ok _⟩
    | differ hr hs h =>
        refine ⟨_, .decided ?_, .ok _⟩
        rw [next_of_ok hr, next_of_ok hs]
        exact turn_of_ne h
    | same hr hs hd h ht ih =>
        obtain ⟨w, hw, hsound⟩ := ih
        refine ⟨w, .again ?_ ?_, hsound⟩
        · rw [next_of_ok hr, next_of_ok hs]
          exact turn_of_eq hd h
        · rwa [next_of_ok hr, next_of_ok hs]
  obtain ⟨w, hw, hs⟩ := hex
  exact ⟨w, hs, fun out => ⟨fun h => h.det hw, fun h => h ▸ hw⟩⟩

end Loops

end Watched

theorem Trace.hash_eq_foldl (t : Trace) (acc : UInt32) :
    t.hash acc = t.outcome.map fun _ => t.events.foldl Event.hash acc := by
  induction t generalizing acc with
  | finished => rfl
  | failed f => rfl
  | next e t ih => exact ih (e.hash acc)

namespace Container

open Watched

/-- Whatever the bytes of a container are, they are accepted, and no position, offset, key, scalar
or other container makes a reading break out of them; every fault lies in the bytes.  The exception
is the lookup of an element by position, which refuses an object. -/
structure ReadsSafely (c : Container) : Prop where
  accepted : Watched.ofBytes c.bytes = .ok c
  entry (i : Nat) : Sound (Watched.entry c i) (c.entry i)
  start (i : Nat) : Sound (Watched.start c i) (c.start i)
  length (i : Nat) : Sound (Watched.length c i) (c.length i)
  childAt (i o : Nat) : Sound (Watched.childAt c i o) (c.childAt i o)
  child (i : Nat) : Sound (Watched.child c i) (c.child i)
  scalar? : Sound (Watched.scalar? c) c.scalar?
  steps (shallow : Bool) (n : Nat) :
    List.Forall₂ (fun w x => Sound w.1 x.1 ∧ w.2 = x.2) (Watched.steps n (.before c shallow))
      (Replay.steps n (.before c shallow))
  validate : Ends (Folds (fun a _ => a) (.before c false) ()) c.validate
  hash : Ends (Folds Event.hash (.before c false) 0) c.hash
  compare (d : Container) : Ends (Lockstep (.before c false) (.before d false)) (c.compare d)
  find? (target : Value) : Sound (Watched.find? c target) (c.find? target)
  lookup? (key : Bytes) : Sound (Watched.lookup? c key) (c.lookup? key)
  elem? (i : Nat) : if c.isObject then Watched.elem? c i = fail .notAnArray
    else Sound (Watched.elem? c i) (c.elem? i)

/-- No reading of a container leaves its bytes. -/
theorem reads_safely (c : Container) : c.ReadsSafely where
  accepted := by
    rcases (sound_ofBytes c.bytes).eq_or with ⟨n, hw, hx⟩ | ⟨f, -, -, hx⟩
    · cases hx.symm.trans c.ofBytes_bytes
      exact hw
    · cases hx.symm.trans c.ofBytes_bytes
  entry := sound_entry c
  start := sound_start c
  length := sound_length c
  childAt := sound_childAt c
  child := sound_child c
  scalar? := sound_scalar? c
  steps shallow n := sound_steps (.before c shallow) n
  validate := by
    have h := ends_folds c.runs_trace (fun a _ => a) ()
    have hv : (c.validate.map fun _ => c.trace.events.foldl (fun a _ => a) ()) = c.validate := by
      cases c.validate <;> rfl
    rwa [hv] at h
  hash := by
    have h := ends_folds c.runs_trace Event.hash 0
    unfold Container.hash
    rwa [Trace.hash_eq_foldl]
  compare d := ends_lockstep (lockstep_compare c d)
  find? := sound_find? c
  lookup? := sound_lookup? c
  elem? i := by
    cases ho : c.isObject with
    | false => exact sound_elem? c ho i
    | true =>
        unfold Watched.elem?
        rw [ho]
        rfl

end Container

end PackedTree
