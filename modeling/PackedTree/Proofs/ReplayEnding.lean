import PackedTree.Container.Replay

/-! # How a reading ends

A reading in steps ends with `done` or with a fault, and both are final.  The step that comes to the
end may still move the cursors: it can pass a child and enter it before the child's directory turns
out to be broken.  What it leaves is a state that hands out the same end again and stays as it is
(`Replay.next_again`), hence every later step has the same result at the same depth
(`Replay.steps_final`).

The items of a reading are the results of the steps up to the end, with the fault but without `done`
(`Replay.items_eq_upToEnd`), and once there is no item there is none any more
(`Replay.requests_eq`).  `Container.endings_final` puts this together for the readings of
containers. -/

namespace PackedTree

namespace Cursor

variable {cur cur' : Cursor} {f : Fault}

theorem enter_of_error (h : cur.enter = (.error f, cur')) : cur' = cur := by
  simp only [enter] at h
  split at h
  · split at h
    · cases h
      rfl
    · cases h
  · cases h

theorem enter_ne_done : cur.enter.1 ≠ .ok .done := by
  simp only [enter]
  split
  · split <;> nofun
  · nofun

end Cursor

namespace Replay

/-! ### Ends -/

/-- Whether the result of a step is the end of a reading. -/
def isEnd : Except Fault Event → Bool
  | .error _ => true
  | .ok .done => true
  | .ok _ => false

/-- The results up to the end, with a fault and without `done`. -/
def upToEnd : List (Except Fault Event) → List (Except Fault Event)
  | [] => []
  | .ok .done :: _ => []
  | .error f :: _ => [.error f]
  | .ok e :: results => .ok e :: upToEnd results

theorem upToEnd_next {e : Event} (he : e ≠ .done) (results : List (Except Fault Event)) :
    upToEnd (.ok e :: results) = .ok e :: upToEnd results := by
  cases e with
  | done => contradiction
  | _ => rfl

/-- A fault is the last of the results up to the end. -/
theorem eq_last_of_fault {results : List (Except Fault Event)} {i : Nat} {f : Fault}
    (h : (upToEnd results)[i]? = some (.error f)) : i + 1 = (upToEnd results).length := by
  fun_induction upToEnd results generalizing i with
  | case1 => simp at h
  | case2 => simp at h
  | case3 g results =>
      cases i with
      | zero => rfl
      | succ i => simp at h
  | case4 e results he ih =>
      cases i with
      | zero => simp at h
      | succ i =>
          rw [List.getElem?_cons_succ] at h
          rw [List.length_cons, ih h]

variable {r r' : Replay} {x : Except Fault Event} {f : Fault}

/-! ### The step that comes to the end -/

theorem next_of_start {cur : Cursor} {below : List Cursor} {shallow : Bool}
    (hp : cur.phase = .start) :
    next ⟨cur :: below, shallow⟩ = (cur.enter.1, ⟨cur.enter.2 :: below, shallow⟩) := by
  simp only [next, hp]

theorem next_of_nil (h : r.stack = []) : r.next = (.ok .done, r) := by
  simp only [next, h]

theorem next_of_deliver_error {slot : Slot} {v : Value} {rest : List Cursor}
    (h : r.deliver slot v rest = (.error f, r')) : r'.next = (.error f, r') := by
  unfold deliver at h
  split at h
  · next n =>
      split at h
      · cases h
      · cases he : (Cursor.before n).enter with
        | mk x cur =>
            rw [he] at h
            cases h
            obtain rfl := Cursor.enter_of_error he
            rw [next_of_start rfl, he]
  · cases h

theorem deliver_ne_done (slot : Slot) (v : Value) (rest : List Cursor) :
    (r.deliver slot v rest).1 ≠ .ok .done := by
  unfold deliver
  split
  · split
    · cases slot <;> nofun
    · exact Cursor.enter_ne_done
  · cases slot <;> nofun

/-- The step after a fault has the same fault and leaves everything as it is. -/
theorem next_of_error (h : r.next = (.error f, r')) : r'.next = (.error f, r') := by
  have hr := h
  obtain ⟨_ | ⟨cur, below⟩, shallow⟩ := r
  · cases h
  · simp only [next] at h
    split at h
    · cases he : cur.enter with
      | mk x cur' =>
          rw [he] at h
          cases h
          obtain rfl := Cursor.enter_of_error he
          exact hr
    · split at h
      · split at h
        · cases h
          exact hr
        · exact next_of_deliver_error h
      · cases h
    · split at h
      · split at h
        · cases h
          exact hr
        · cases h
      · cases h
    · split at h
      · cases h
        exact hr
      · exact next_of_deliver_error h

theorem stack_of_done (h : r.next = (.ok .done, r')) : r'.stack = [] := by
  obtain ⟨_ | ⟨cur, below⟩, shallow⟩ := r
  · cases h
    rfl
  · have hdone : (next ⟨cur :: below, shallow⟩).1 = .ok .done := by rw [h]
    simp only [next] at hdone
    split at hdone
    · exact absurd hdone Cursor.enter_ne_done
    · split at hdone
      · split at hdone
        · cases hdone
        · exact absurd hdone (deliver_ne_done _ _ _)
      · cases hdone
    · split at hdone
      · split at hdone <;> cases hdone
      · cases hdone
    · split at hdone
      · cases hdone
      · exact absurd hdone (deliver_ne_done _ _ _)

/-- The step after an end hands out the same end and leaves everything as it is. -/
theorem next_again (h : r.next = (x, r')) (hx : isEnd x = true) : r'.next = (x, r') := by
  match x, hx with
  | .error f, _ => exact next_of_error h
  | .ok .done, _ => exact next_of_nil (stack_of_done h)

/-! ### All later steps -/

theorem steps_succ (h : r.next = (x, r')) (n : Nat) :
    r.steps (n + 1) = (x, r'.depth) :: r'.steps n := by
  rw [steps, h]

theorem steps_of_again (h : r.next = (x, r)) (n : Nat) :
    r.steps n = List.replicate n (x, r.depth) := by
  induction n with
  | zero => rfl
  | succ n ih => rw [steps_succ h, ih, List.replicate_succ]

/-- Every step after an end has the same result at the same depth. -/
theorem steps_final {n i j depth : Nat} (hx : isEnd x = true)
    (h : (r.steps n)[i]? = some (x, depth)) (hij : i ≤ j) (hj : j < n) :
    (r.steps n)[j]? = some (x, depth) := by
  induction n generalizing r i j with
  | zero => omega
  | succ n ih =>
      cases hr : r.next with
      | mk y r' =>
          rw [steps_succ hr] at h ⊢
          cases i with
          | zero =>
              rw [List.getElem?_cons_zero] at h
              cases h
              rw [steps_of_again (next_again hr hx), ← List.replicate_succ,
                List.getElem?_replicate, if_pos hj]
          | succ i =>
              obtain ⟨j, rfl⟩ : ∃ k, j = k + 1 := ⟨j - 1, by omega⟩
              rw [List.getElem?_cons_succ] at h ⊢
              apply ih h <;> omega

theorem depth_of_done {n i depth : Nat} (h : (r.steps n)[i]? = some (.ok .done, depth)) :
    depth = 0 := by
  induction n generalizing r i with
  | zero => cases h
  | succ n ih =>
      cases hr : r.next with
      | mk y r' =>
          rw [steps_succ hr] at h
          cases i with
          | zero =>
              rw [List.getElem?_cons_zero] at h
              cases h
              rw [depth, stack_of_done hr, List.length_nil]
          | succ i => exact ih h

/-! ### Items -/

theorem item?_of_done (h : r.next = (.ok .done, r')) : r.item? = (none, r') := by
  rw [item?, h]

theorem item?_of_error (h : r.next = (.error f, r')) :
    r.item? = (some (.error f), { r' with stack := [] }) := by
  rw [item?, h]

theorem item?_of_event {e : Event} (h : r.next = (.ok e, r')) (he : e ≠ .done) :
    r.item? = (some (.ok e), r') := by
  rw [item?, h]
  cases e with
  | done => contradiction
  | _ => rfl

theorem items_of_none (h : r.item? = (none, r')) (n : Nat) : r.items n = [] := by
  cases n with
  | zero => rfl
  | succ n => rw [items, h]

theorem items_succ (h : r.item? = (some x, r')) (n : Nat) :
    r.items (n + 1) = x :: r'.items n := by
  rw [items, h]

theorem item?_of_nil (h : r.stack = []) : r.item? = (none, r) :=
  item?_of_done (next_of_nil h)

/-- The items are the results of the steps up to the end. -/
theorem items_eq_upToEnd (r : Replay) (n : Nat) :
    r.items n = upToEnd ((r.steps n).map Prod.fst) := by
  induction n generalizing r with
  | zero => rfl
  | succ n ih =>
      cases hr : r.next with
      | mk x r' =>
          rw [steps_succ hr, List.map_cons]
          match x with
          | .error f =>
              rw [items_succ (item?_of_error hr), items_of_none (item?_of_nil rfl)]
              rfl
          | .ok e =>
              by_cases he : e = .done
              · subst he
                rw [items_of_none (item?_of_done hr)]
                rfl
              · rw [items_succ (item?_of_event hr he), upToEnd_next he, ih]

/-- The answers to the first `n` requests for an item, those after the last item included. -/
def requests : Nat → Replay → List (Option (Except Fault Event))
  | 0, _ => []
  | n + 1, r =>
      let (x, r) := r.item?
      x :: requests n r

theorem requests_succ {y : Option (Except Fault Event)} (h : r.item? = (y, r')) (n : Nat) :
    r.requests (n + 1) = y :: r'.requests n := by
  rw [requests, h]

theorem requests_of_none (h : r.item? = (none, r)) (n : Nat) :
    r.requests n = List.replicate n none := by
  induction n with
  | zero => rfl
  | succ n ih => rw [requests_succ h, ih, List.replicate_succ]

theorem item?_of_item?_none (h : r.item? = (none, r')) : r'.item? = (none, r') := by
  cases hr : r.next with
  | mk x s =>
      match x with
      | .error f => cases (item?_of_error hr).symm.trans h
      | .ok e =>
          by_cases he : e = .done
          · subst he
            cases (item?_of_done hr).symm.trans h
            exact item?_of_nil (stack_of_done hr)
          · cases (item?_of_event hr he).symm.trans h

/-- The items come first, and after them nothing. -/
theorem requests_eq (r : Replay) (n : Nat) :
    r.requests n = (r.items n).map some ++ List.replicate (n - (r.items n).length) none := by
  induction n generalizing r with
  | zero => rfl
  | succ n ih =>
      cases hr : r.item? with
      | mk x r' =>
          rw [requests_succ hr]
          cases x with
          | none =>
              rw [requests_of_none (item?_of_item?_none hr), items_of_none hr]
              rfl
          | some x =>
              rw [items_succ hr]
              simp only [List.map_cons, List.cons_append, List.length_cons, Nat.add_sub_add_right]
              rw [ih]

end Replay

namespace Container

/-- However many steps are taken: after a fault every step has the same fault, at the same depth,
and after `done` every step is `done`, outside of all containers.  The items of the reading are the
results up to that end; a fault can only be the last of them, and after the last item there is
none any more. -/
theorem endings_final (c : Container) (shallow : Bool) (n : Nat) :
    let steps := (Replay.before c shallow).steps n
    let items := (Replay.before c shallow).items n
    (∀ i j f depth, steps[i]? = some (.error f, depth) → i ≤ j → j < n →
        steps[j]? = some (.error f, depth)) ∧
      (∀ i j depth, steps[i]? = some (.ok .done, depth) → i ≤ j → j < n →
        steps[j]? = some (.ok .done, 0)) ∧
      items = Replay.upToEnd (steps.map Prod.fst) ∧
      (∀ i f, items[i]? = some (.error f) → i + 1 = items.length) ∧
      (Replay.before c shallow).requests n =
        items.map some ++ List.replicate (n - items.length) none := by
  intro steps items
  have hitems : items = Replay.upToEnd (steps.map Prod.fst) := Replay.items_eq_upToEnd _ n
  refine ⟨?_, ?_, hitems, ?_, Replay.requests_eq _ n⟩
  · intro i j f depth h hij hj
    exact Replay.steps_final rfl h hij hj
  · intro i j depth h hij hj
    obtain rfl := Replay.depth_of_done h
    exact Replay.steps_final rfl h hij hj
  · intro i f h
    rw [hitems] at h ⊢
    exact Replay.eq_last_of_fault h

/-- The step that finds the directory of a nested object broken has already entered the object.  All
later steps fail there, and the items stop with this fault. -/
theorem endings_final_nested :
    let c : Container := ⟨⟨.array, 1, by decide, by decide⟩, [1342177292],
      [1, 0, 0, 32, 0, 0, 0, 112, 0, 0, 0, 0], rfl⟩
    let r := Replay.before c false
    ofBytes [1, 0, 0, 64, 12, 0, 0, 80, 1, 0, 0, 32, 0, 0, 0, 112, 0, 0, 0, 0] = .ok c ∧
      (r.steps 9)[0]? = some (.ok (.beginArray 1 false), 1) ∧
      (r.steps 9)[1]? = some (.error (.invalidTag 7), 2) ∧
      (r.steps 9)[8]? = some (.error (.invalidTag 7), 2) ∧
      r.items 9 = [.ok (.beginArray 1 false), .error (.invalidTag 7)] := by
  intro c r
  have hbroken : (r.steps 9)[1]? = some (.error (.invalidTag 7), 2) := by cbv
  obtain ⟨hfault, -, hitems, -, -⟩ := endings_final c false 9
  refine ⟨by cbv, by cbv, hbroken, ?_, ?_⟩
  · exact hfault 1 8 _ _ hbroken (by decide) (by decide)
  · rw [hitems]
    cbv

end Container

end PackedTree
