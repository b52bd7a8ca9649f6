import PackedTree.Proofs.EventOrder

/-! # The order of traces that fit

Two traces are compared event by event, and the first difference decides (`compare_next`).  As
long as no difference has shown, both traces are at the same place, so the order of events there
applies, and a trace cannot end where another one goes on.  `Trace.Decides st t u o` records such
a comparison from the place `st` on; for traces that fit it is the same thing as
`t.compare u = .ok o` (`decides_of_compare`, `compare_of_decides`).  It is reversed when the
traces change places (`Decides.swap`), and it is transitive (`Decides.trans`). -/

namespace PackedTree

/-! ### Events at one place -/

namespace Owes

variable {st st₁ st₂ st₃ : List Due} {e d f : Event}

theorem compare_self (h : Owes st e st₁) : e.compare e = .eq := by
  rw [h.compare_eq_features h]
  exact Std.ReflCmp.compare_self

theorem compare_swap (h₁ : Owes st e st₁) (h₂ : Owes st d st₂) :
    d.compare e = (e.compare d).swap := by
  rw [h₁.compare_eq_features h₂, h₂.compare_eq_features h₁]
  exact Std.OrientedCmp.eq_swap

theorem compare_trans (h₁ : Owes st e st₁) (h₂ : Owes st d st₂) (h₃ : Owes st f st₃)
    (hx : e.compare d ≠ .gt) (hy : d.compare f ≠ .gt) :
    e.compare f = (e.compare d).then (d.compare f) := by
  rw [h₁.compare_eq_features h₂] at hx ⊢
  rw [h₂.compare_eq_features h₃] at hy ⊢
  rw [h₁.compare_eq_features h₃]
  cases hed : e.compareFeatures d with
  | gt => exact absurd hed hx
  | eq => rw [Ordering.eq_then, Std.TransCmp.congr_left hed]
  | lt =>
      refine Std.TransCmp.lt_of_lt_of_isLE hed ?_
      cases hdf : d.compareFeatures f with
      | gt => exact absurd hdf hy
      | _ => rfl

theorem det (h₁ : Owes st e st₁) (h₂ : Owes st e st₂) : st₁ = st₂ :=
  h₁.due_eq h₂ h₁.compare_self

/-- No event may come after the whole container. -/
theorem not_at_end (h : Owes [.elems 0] e st) : False := by
  cases h with
  | member hd he => cases hd

end Owes

namespace Trace

/-! ### One difference after the other -/

/-- The order that decides, or else the result of what follows. -/
def first : Ordering → Except Fault Ordering → Except Fault Ordering
  | .eq, r => r
  | o, _ => .ok o

theorem first_of_ne {o : Ordering} (h : o ≠ .eq) (r : Except Fault Ordering) :
    first o r = .ok o := by
  cases o with
  | eq => exact absurd rfl h
  | _ => rfl

theorem first_then (o p : Ordering) (r : Except Fault Ordering) :
    first (o.then p) r = first o (first p r) := by
  cases o <;> rfl

theorem first_ok_eq (o : Ordering) : first o (.ok .eq) = .ok o := by
  cases o <;> rfl

theorem compare_next (e d : Event) (t u : Trace) :
    (next e t).compare (next d u) = first (e.compare d) (t.compare u) := by
  simp only [compare]
  cases e.compare d <;> rfl

theorem compare_next_of_eq {e d : Event} (h : e.compare d = .eq) (t u : Trace) :
    (next e t).compare (next d u) = t.compare u := by
  rw [compare_next, h, first]

theorem compare_next_of_ne {e d : Event} (h : e.compare d ≠ .eq) (t u : Trace) :
    (next e t).compare (next d u) = .ok (e.compare d) := by
  rw [compare_next, first_of_ne h]

/-! ### Comparisons that give an order -/

/-- From the place `st` on, the first difference of two traces gives the order `o`. -/
inductive Decides : List Due → Trace → Trace → Ordering → Prop
  | finished : Decides [.elems 0] .finished .finished .eq
  | same {st st' : List Due} {e d : Event} {t u : Trace} {o : Ordering} (he : Owes st e st')
      (hd : Owes st d st') (h : e.compare d = .eq) (ht : Decides st' t u o) :
      Decides st (.next e t) (.next d u) o
  | differ {st st₁ st₂ : List Due} {e d : Event} {t u : Trace} {o : Ordering}
      (he : Owes st e st₁) (hd : Owes st d st₂) (h : e.compare d = o) (ho : o ≠ .eq) :
      Decides st (.next e t) (.next d u) o

variable {st : List Due} {t u w : Trace} {o x y : Ordering}

theorem decides_of_compare (ht : t.Fits st) (hu : u.Fits st) (h : t.compare u = .ok o) :
    Decides st t u o := by
  induction ht generalizing u with
  | failed => cases h
  | finished =>
      cases hu with
      | failed => cases h
      | finished => cases h; exact .finished
      | next hd _ => exact hd.not_at_end.elim
  | @next st st₁ e t he ht ih =>
      cases hu with
      | failed => cases h
      | finished => exact he.not_at_end.elim
      | @next _ st₂ d u hd hu =>
          by_cases heq : e.compare d = .eq
          · obtain rfl := he.due_eq hd heq
            rw [compare_next_of_eq heq] at h
            exact .same he hd heq (ih hu h)
          · rw [compare_next_of_ne heq] at h
            cases h
            exact .differ he hd rfl heq

theorem compare_of_decides (h : Decides st t u o) : t.compare u = .ok o := by
  induction h with
  | finished => rfl
  | same he hd h ht ih =>
      rw [compare_next_of_eq h]
      exact ih
  | differ he hd h ho =>
      rw [← h] at ho ⊢
      exact compare_next_of_ne ho _ _

theorem decides_self (ht : t.Fits st) (h : t.fault? = none) : Decides st t t .eq := by
  induction ht with
  | finished => exact .finished
  | failed => cases h
  | next he ht ih => exact .same he he he.compare_self (ih h)

theorem compare_self_of_fault {f : Fault} (ht : t.Fits st) (h : t.fault? = some f) :
    t.compare t = .error f := by
  induction ht with
  | finished => cases h
  | failed => cases h; rfl
  | next he ht ih =>
      rw [compare_next_of_eq he.compare_self]
      exact ih h

theorem Decides.swap (h : Decides st t u o) : Decides st u t o.swap := by
  induction h with
  | finished => exact .finished
  | same he hd h ht ih => exact .same hd he (by rw [he.compare_swap hd, h]; rfl) ih
  | @differ _ _ _ _ _ _ _ o he hd h ho =>
      refine .differ hd he (by rw [he.compare_swap hd, h]) fun hs => ho ?_
      cases o <;> first | rfl | cases hs

theorem Decides.trans (h₁ : Decides st t u x) (h₂ : Decides st u w y) (hx : x ≠ .gt)
    (hy : y ≠ .gt) : Decides st t w (x.then y) := by
  induction h₁ generalizing w with
  | finished =>
      cases h₂ with
      | finished => exact .finished
  | @same st st' e d t u x he hd hed ht ih =>
      cases h₂ with
      | @same _ st'' _ f _ w _ hd' hf hdf hu =>
          obtain rfl := hd.det hd'
          refine .same he hf ?_ (ih hu hx)
          rw [he.compare_trans hd hf (by simp [hed]) (by simp [hdf]), hed, hdf]
          rfl
      | @differ _ _ st₂ _ f _ w _ hd' hf hdf hne =>
          have hz : e.compare f = y := by
            rw [he.compare_trans hd hf (by simp [hed]) (by simp [hdf, hy]), hed, hdf]
            rfl
          have hxy : x.then y = y := by cases x <;> cases y <;> simp_all
          rw [hxy]
          exact .differ he hf hz hne
  | @differ st st₁ st₂ e d t u x he hd hed hne =>
      have hxy : x.then y = x := by cases x <;> simp_all
      have hdf : ∀ f st₃, Owes st f st₃ → d.compare f ≠ .gt → e.compare f = x := by
        intro f st₃ hf hgt
        rw [he.compare_trans hd hf (by simp [hed, hx]) hgt, hed]
        cases x <;> simp_all
      rw [hxy]
      cases h₂ with
      | same hd' hf h hu => exact .differ he hf (hdf _ _ hf (by simp [h])) hne
      | differ hd' hf h hne' => exact .differ he hf (hdf _ _ hf (by simp [h, hy])) hne

end Trace

end PackedTree
