import PackedTree.Proofs.DecimalBytes
import PackedTree.Proofs.TraceOrder

/-! # Containers that compare equal hash equal

Equal scalars need not be identical: numbers of one value may be written with different scales.
They are hashed by their normalized form, which is the same for all of them
(`digest?_eq_of_compareScalars`).  Two containers that compare equal have traces in which event
after event compares equal at the same place, so the two folds go through the same values
(`hash_eq_of_compare_eq`), however different the bytes are. -/

namespace PackedTree

theorem Value.digest?_eq_of_compareScalars {a b : Value} (ha : a.isScalar = true)
    (hb : b.isScalar = true) (h : a.compareScalars b = .eq) : a.digest? = b.digest? := by
  rw [compareScalars_eq_then ha hb, Ordering.then_eq_eq, Nat.compare_eq_eq] at h
  obtain ⟨hr, hc⟩ := h
  have hk : a.kind = b.kind := Kind.rank_inj (Nat.succ.inj hr)
  unfold compareContent compareVia at hc
  simp only [compareLex_eq_eq] at hc
  obtain ⟨hs, hn, ht⟩ := hc
  cases a with
  | null => cases b <;> first | rfl | cases hk | cases hb
  | bool x =>
      cases b with
      | bool y =>
          obtain rfl : x = y := Std.LawfulEqCmp.eq_of_compare (ht : Ord.compare x y = .eq)
          rfl
      | _ => first | cases hk | cases hb
  | number d =>
      cases b with
      | number e =>
          have hv : d.value = e.value := Decimal.compare_eq_eq_iff.mp hn
          simp only [digest?, Decimal.normalizedBytes_eq_iff.mpr hv]
      | _ => first | cases hk | cases hb
  | string s =>
      cases b with
      | string t =>
          obtain rfl : s = t := Bytes.keyCompare_eq_iff.mp hs
          rfl
      | _ => first | cases hk | cases hb
  | _ => cases ha

namespace Slot

theorem hash_event (slot : Slot) (v : Value) (acc : UInt32) :
    (slot.event v).hash acc = v.hash acc := by
  cases slot <;> rfl

theorem Opens.hash_eq {slot : Slot} {e d : Event} {i₁ i₂ : List Due} (h₁ : slot.Opens e i₁)
    (h₂ : slot.Opens d i₂) (h : e.compare d = .eq) (acc : UInt32) : e.hash acc = d.hash acc := by
  have hr : e.rank = d.rank := (Event.compareFeatures_eq_eq (h₁.compare_eq_features h₂ ▸ h)).1
  cases h₁.alike_of_rank_eq h₂ hr with
  | scalars ha hb =>
      rw [slot.compare_event] at h
      rw [slot.hash_event, slot.hash_event]
      unfold Value.hash
      rw [Value.digest?_eq_of_compareScalars ha hb h]
  | arrays m n r s => rfl
  | objects m n => rfl

end Slot

theorem Owes.hash_eq {st st₁ st₂ : List Due} {e d : Event} (h₁ : Owes st e st₁)
    (h₂ : Owes st d st₂) (h : e.compare d = .eq) (acc : UInt32) : e.hash acc = d.hash acc := by
  cases h₁ with
  | member hd he =>
      cases h₂ with
      | member hd' he' =>
          obtain ⟨rfl, rfl⟩ := hd.det hd'
          exact he.hash_eq he' h acc
      | _ => cases hd
  | @key n st k =>
      cases h₂ with
      | member hd he => cases hd
      | @key _ _ l =>
          obtain rfl : k = l := Bytes.keyCompare_eq_iff.mp h
          rfl
  | _ =>
      cases h₂ with
      | member hd he => cases hd
      | _ => rfl

theorem Trace.Decides.hash_eq {st : List Due} {t u : Trace} (h : Decides st t u .eq)
    (acc : UInt32) : ∃ n, t.hash acc = .ok n ∧ u.hash acc = .ok n := by
  generalize ho : Ordering.eq = o at h
  induction h generalizing acc with
  | finished => exact ⟨acc, rfl, rfl⟩
  | @same _ _ e d t u _ he hd h ht ih =>
      obtain ⟨n, htn, hun⟩ := ih (e.hash acc) ho
      refine ⟨n, htn, ?_⟩
      rw [he.hash_eq hd h acc] at hun
      exact hun
  | differ he hd h hne => exact absurd ho.symm hne

namespace Container

/-- Containers that compare equal both have a hash, and it is the same. -/
theorem hash_eq_of_compare_eq {c d : Container} (h : c.compare d = .ok .eq) :
    ∃ n, c.hash = .ok n ∧ d.hash = .ok n :=
  (Trace.decides_of_compare c.fits_trace d.fits_trace h).hash_eq 0

/-- The wrappers of 1.5 and 1.50 differ in every part but hash equal. -/
theorem hash_eq_of_compare_eq_padded :
    ∃ c d : Container, c.words ≠ d.words ∧ c.payload ≠ d.payload ∧ c.compare d = .ok .eq ∧
      ∃ n, c.hash = .ok n ∧ d.hash = .ok n := by
  have h : Container.compare
      ⟨⟨.raw, 1, by decide, fun _ => rfl⟩, [2415919113], [1, 0, 0, 0, 0, 0, 0, 0, 15], rfl⟩
      ⟨⟨.raw, 1, by decide, fun _ => rfl⟩, [2415919114], [2, 0, 0, 0, 0, 0, 0, 0, 150, 0], rfl⟩ =
        .ok .eq := by
    decide +kernel
  exact ⟨_, _, by decide, by decide, h, hash_eq_of_compare_eq h⟩

end Container

end PackedTree
