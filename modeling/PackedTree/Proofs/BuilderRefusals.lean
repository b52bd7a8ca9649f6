import PackedTree.Proofs.BuilderInvariant

/-! # What a refused event leaves behind

A builder can refuse an event because it is out of place or because a container would nest too
deep (`Fault.isPlacement`), because there is no room for a member, or because a key repeats in an
object that ends.  In the last two cases something may be gone: the container that ended, or the key
that waited for its value.  In the first two the builder stays as it is (`step_of_placement`), as
long as the event carries no container, which would be told event by event.

`Builder.replies` are the outcomes of all pushes of a caller who goes on after refusals.
`refusal_unnoticed` says that a refusal of the first two kinds shows in them at its own place and
nowhere else. -/

namespace PackedTree

/-- Whether an event is refused for its place: it is out of order, or nests too deep. -/
def Fault.isPlacement : Fault → Bool
  | .unexpected _ _ | .tooDeep _ => true
  | _ => false

namespace Builder

variable {b b' : Builder} {e : Event} {f : Fault}

/-! ### Refused steps -/

theorem eq_of_refuse {token : Token} {reason : Misplacement}
    (h : b.refuse token reason = (.error f, b')) : b' = b := by
  cases h
  rfl

theorem eq_of_enter {token : Token} {frame : Frame} (h : b.enter token frame = (.error f, b')) :
    b' = b := by
  unfold enter at h
  split at h
  · exact eq_of_refuse h
  · split at h
    · cases h
      rfl
    · cases h

/-- The only fault in storing a member is that there is no room for it. -/
theorem isPlacement_of_store {v : Value} (h : b.store v = (.error f, b')) :
    f.isPlacement = false := by
  obtain ⟨o, frames, complete⟩ := b
  rcases frames with _ | ⟨⟨raw, elems⟩ | ⟨pairs, key⟩, below⟩
  · cases h
  · simp only [store] at h
    split at h
    · cases h
      rfl
    · cases h
  · simp only [store] at h
    split at h
    · cases h
      rfl
    · cases h

theorem isPlacement_of_finishPairs {o : Options} {pairs : List (Bytes × Value)}
    (h : finishPairs o pairs = .error f) : f.isPlacement = false := by
  unfold finishPairs at h
  split at h
  · cases h
    rfl
  · cases h

theorem step_of_placement (h : b.step e = (.error f, b')) (hf : f.isPlacement = true) :
    b' = b := by
  have stored {b : Builder} {v : Value} (hs : b.store v = (.error f, b')) : False := by
    rw [isPlacement_of_store hs] at hf
    cases hf
  cases e with
  | beginArray len raw =>
      simp only [step] at h
      split at h
      · exact eq_of_refuse h
      · exact eq_of_enter h
  | beginObject len => exact eq_of_enter h
  | elem v =>
      simp only [step] at h
      split at h
      · split at h
        · exact eq_of_refuse h
        · exact (stored h).elim
      · exact eq_of_refuse h
  | key k =>
      simp only [step] at h
      split at h
      · cases h
      · exact eq_of_refuse h
      · exact eq_of_refuse h
  | value v =>
      simp only [step] at h
      split at h
      · exact (stored h).elim
      · exact eq_of_refuse h
      · exact eq_of_refuse h
  | endArray =>
      simp only [step] at h
      split at h
      · split at h
        · exact eq_of_refuse h
        · exact (stored h).elim
      · exact eq_of_refuse h
  | endObject =>
      simp only [step] at h
      split at h
      · split at h
        · next hp =>
            cases h
            rw [isPlacement_of_finishPairs hp] at hf
            cases hf
        · exact (stored h).elim
      · exact eq_of_refuse h
      · exact eq_of_refuse h
  | done => exact eq_of_refuse h

theorem push_of_placement (he : e.isSimple = true) (h : (b.push e).1 = .error f)
    (hf : f.isPlacement = true) : (b.push e).2 = b := by
  cases hc : b.complete with
  | true =>
      rw [push_of_complete hc]
      rfl
  | false =>
      rw [push_simple hc he] at h ⊢
      have hs : b.step e = (.error f, (b.step e).2) := Prod.ext h rfl
      exact step_of_placement hs hf

/-! ### Going on after a refusal -/

/-- The outcomes of pushing the given events, whatever became of each of them. -/
def replies (b : Builder) : List Event → List (Except Fault (Option Value))
  | [] => []
  | e :: es => (b.push e).1 :: (b.push e).2.replies es

/-- An event that changes nothing adds its own reply to those of the other events. -/
theorem replies_of_unchanged {es : List Event} (h : ((b.after es).push e).2 = b.after es)
    (fs : List Event) :
    b.replies (es ++ e :: fs) =
      (b.replies (es ++ fs)).insertIdx es.length ((b.after es).push e).1 := by
  induction es generalizing b with
  | nil =>
      have hsame : (b.push e).2 = b := h
      rw [List.nil_append, List.nil_append, replies, hsame, List.length_nil, List.insertIdx_zero]
      rfl
  | cons d es ih =>
      rw [List.cons_append, List.cons_append, replies, replies, List.length_cons,
        List.insertIdx_succ_cons, ih h]
      rfl

/-- Whatever was pushed before, an event without a container that is refused for its place leaves
the builder as it is.  A caller who goes on gets the builder and the replies of a caller who never
pushed it. -/
theorem refusal_unnoticed (o : Options) (es : List Event) {e : Event} {f : Fault}
    (he : e.isSimple = true) (h : (((empty o).after es).push e).1 = .error f)
    (hf : f.isPlacement = true) :
    (((empty o).after es).push e).2 = (empty o).after es ∧
      ∀ fs, (empty o).after (es ++ e :: fs) = (empty o).after (es ++ fs) ∧
        (empty o).replies (es ++ e :: fs) =
          ((empty o).replies (es ++ fs)).insertIdx es.length (.error f) := by
  have hsame := push_of_placement he h hf
  refine ⟨hsame, fun fs => ⟨?_, ?_⟩⟩
  · rw [after_append, after_append, after, List.foldl_cons, hsame]
    rfl
  · rw [replies_of_unchanged hsame, h]

/-- A second key is refused while the first one waits for its value, which can still come. -/
theorem refusal_unnoticed_key :
    let es : List Event := [.beginArray 0 false, .beginObject 0, .key [97]]
    let fs : List Event := [.value (.bool true), .endObject, .endArray]
    let b := (empty {}).after es
    b.frames = [.object [] (some [97]), .array false []] ∧
      (b.push (.key [98])).1 = .error (.unexpected .key .valueExpected) ∧
      (b.push (.key [98])).2 = b ∧
      (empty {}).replies (es ++ .key [98] :: fs) =
        [.ok none, .ok none, .ok none, .error (.unexpected .key .valueExpected), .ok none,
          .ok none, .ok (some (.array false [.object [([97], .bool true)]]))] := by
  intro es fs b
  have hframes : b.frames = [.object [] (some [97]), .array false []] := by cbv
  have hrefused : (b.push (.key [98])).1 = .error (.unexpected .key .valueExpected) := by cbv
  obtain ⟨hsame, hlater⟩ := refusal_unnoticed {} es rfl hrefused rfl
  refine ⟨hframes, hrefused, hsame, ?_⟩
  rw [(hlater fs).2]
  cbv

end Builder

end PackedTree
