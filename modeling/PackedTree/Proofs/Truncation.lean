import PackedTree.Proofs.AccessSafety
import PackedTree.Proofs.LayoutInvariant

/-! # Truncated containers

A byte string that is cut off within its header or its directory is not accepted.  If it is cut off
behind them, what is left has the same directory (`directory_of_isPrefix`), and this still says how
far the last child reaches: to the end of the payload that was there before the cut, if that was
laid out well.  But a container in which every child can be read has them all inside its payload
(`end_le_of_validate`).  So validation finds every cut (`Value.truncation_detected`).

It is enough to look at the outermost container, and the fault lies in the bytes. -/

namespace PackedTree

namespace Container

variable {c d : Container} {b : Bytes} {f : Fault}

/-! ### Faults of acceptance and of validation -/

theorem isFormat_of_ofBytes (h : ofBytes b = .error f) : f.isFormat = true := by
  rcases (Watched.sound_ofBytes b).eq_or with ⟨c, -, hc⟩ | ⟨g, hg, -, hx⟩
  · cases h.symm.trans hc
  · cases h.symm.trans hx
    exact hg

theorem isFormat_of_validate (h : c.validate = .error f) : f.isFormat = true := by
  obtain ⟨w, hw, -⟩ := Watched.ends_folds c.runs_trace (fun a _ => a) ()
  rw [h] at hw
  rcases hw.eq_or with ⟨a, -, ha⟩ | ⟨g, hg, -, hx⟩
  · cases ha
  · cases hx
    exact hg

/-! ### What validation has read -/

theorem exists_child_of_validate (h : c.validate = .ok ()) {i : Nat} (hi : i < c.entryCount) :
    ∃ v, c.child i = .ok v := by
  have ht := validate_eq_ok_iff.mp h
  rw [trace_eq_walkWith] at ht
  cases ho : c.isObject with
  | false =>
      rw [walkWith_of_array ho] at ht
      obtain ⟨vs, -, -, hchild, -⟩ := elems_of_fault ht
      rw [entryCount_of_array ho] at hi
      obtain ⟨v, -, hv⟩ := hchild i (List.mem_range.mpr hi)
      exact ⟨v, hv⟩
  | true =>
      rw [walkWith_of_object ho] at ht
      cases hs : c.start c.len with
      | error f => rw [hs] at ht; cases ht
      | ok o =>
          rw [hs] at ht
          obtain ⟨ps, -, -, hchild, -⟩ := pairs_of_fault ht
          rw [entryCount_of_object ho] at hi
          by_cases hl : i < c.len
          · obtain ⟨p, -, hk, -⟩ := hchild i (List.mem_range.mpr hl)
            exact ⟨_, hk⟩
          · obtain ⟨p, -, -, hv⟩ := hchild (i - c.len) (List.mem_range.mpr (by omega))
            rw [Nat.sub_add_cancel (Nat.le_of_not_lt hl)] at hv
            exact ⟨_, hv⟩

/-- If every child can be read, the last one ends inside the payload. -/
theorem end_le_of_validate (h : c.validate = .ok ()) :
    ∃ o, c.start c.entryCount = .ok o ∧ o ≤ c.payload.length := by
  cases hn : c.entryCount with
  | zero => exact ⟨0, rfl, Nat.zero_le _⟩
  | succ i =>
      obtain ⟨v, hv⟩ := exists_child_of_validate h (i := i) (by omega)
      obtain ⟨o, ho, hv⟩ := childAt_of_child hv
      obtain ⟨d, hd, -, hstop, -⟩ := range_of_childAt hv
      exact ⟨d.stop o, start_succ ho hd, hstop⟩

/-! ### The directory decides about starts -/

theorem walkBack_congr (hcount : c.entryCount = d.entryCount) (hw : c.words = d.words) (i : Nat) :
    c.walkBack i = d.walkBack i := by
  induction i with
  | zero => rfl
  | succ i ih => simp only [walkBack, entry, hcount, hw, ih]

theorem start_congr (hcount : c.entryCount = d.entryCount) (hw : c.words = d.words) (i : Nat) :
    c.start i = d.start i :=
  congrArg (Except.map Prod.fst) (walkBack_congr hcount hw i)

/-! ### Beginnings of containers -/

/-- What the cut leaves of a container has the same directory, and less of the payload. -/
theorem directory_of_isPrefix (h : d.bytes <+: c.bytes) :
    d.entryCount = c.entryCount ∧ d.words = c.words ∧ d.payload <+: c.payload := by
  obtain ⟨cut, hcut⟩ := h
  simp only [bytes, List.append_assoc] at hcut
  obtain ⟨hheader, hrest⟩ := List.append_inj hcut
    ((Bytes.length_ofWord _).trans (Bytes.length_ofWord _).symm)
  have hword := congrArg Bytes.toWord hheader
  rw [Bytes.toWord_ofWord, Bytes.toWord_ofWord] at hword
  have hofWord := congrArg Header.ofWord hword
  rw [Header.ofWord_toWord, Header.ofWord_toWord] at hofWord
  have hcount : d.entryCount = c.entryCount := congrArg Header.entryCount (Except.ok.inj hofWord)
  have hlen : d.words.length = c.words.length :=
    d.length_words.trans (hcount.trans c.length_words.symm)
  obtain ⟨hwords, hpayload⟩ := List.append_inj hrest
    (by rw [length_flatMap_ofWord, length_flatMap_ofWord, hlen])
  refine ⟨hcount, ?_, cut, hpayload⟩
  rw [← Bytes.words_flatMap_ofWord d.words [], ← Bytes.words_flatMap_ofWord c.words [], hwords,
    hlen]

/-- A container with a part of its payload cut off does not validate if its children filled it. -/
theorem validate_ne_ok_of_isPrefix (hlast : c.start c.entryCount = .ok c.payload.length)
    (h : d.bytes <+: c.bytes) (hne : d.bytes ≠ c.bytes) : d.validate ≠ .ok () := by
  intro hvalid
  obtain ⟨hcount, hwords, hpayload⟩ := directory_of_isPrefix h
  obtain ⟨o, ho, hle⟩ := end_le_of_validate hvalid
  rw [start_congr hcount hwords, hcount, hlast] at ho
  cases ho
  have hsize : d.bytes.length = c.bytes.length := by
    rw [length_bytes, length_bytes, size, size, hcount, hpayload.length_le.antisymm hle]
  exact hne (h.eq_of_length hsize)

end Container

namespace Value

/-- Every proper beginning of a packed value is refused, by acceptance or by validation, with a
fault that lies in the bytes. -/
theorem truncation_detected {v : Value} {c : Container} {b : Bytes} (hv : v.isTree = true)
    (h : v.pack = .ok c) (hb : b <+: c.bytes) (hne : b ≠ c.bytes) :
    (∃ f, Container.ofBytes b = .error f ∧ f.isFormat = true) ∨
      ∃ d f, Container.ofBytes b = .ok d ∧ d.validate = .error f ∧ f.isFormat = true := by
  cases hd : Container.ofBytes b with
  | error f => exact .inl ⟨f, rfl, Container.isFormat_of_ofBytes hd⟩
  | ok d =>
      have hlast := (Container.wellLaid_of_storedIn hv (storedIn_of_pack hv h)).last
      obtain rfl := Container.bytes_of_ofBytes hd
      cases hvalid : d.validate with
      | ok u => exact absurd hvalid (Container.validate_ne_ok_of_isPrefix hlast hb hne)
      | error f => exact .inr ⟨d, f, rfl, hvalid, Container.isFormat_of_validate hvalid⟩

/-- Without its last byte, which is the content of the string, the array is accepted but does not
validate. -/
theorem truncation_detected_string :
    let b : Bytes := [2, 0, 0, 64, 1, 0, 0, 128, 0, 0, 0, 48]
    ∃ c, (Value.array false [.string [120], .bool true]).pack = .ok c ∧ c.bytes = b ++ [120] ∧
      ∃ d f, Container.ofBytes b = .ok d ∧ d.validate = .error f ∧ f.isFormat = true := by
  intro b
  let c : Container := ⟨⟨.array, 2, by decide, by decide⟩, [2147483649, 805306368], [120], rfl⟩
  have hc : (Value.array false [.string [120], .bool true]).pack = .ok c := by cbv
  have hcut : c.bytes = b ++ [120] := by decide
  refine ⟨c, hc, hcut, ?_⟩
  rcases truncation_detected rfl hc ⟨[120], hcut.symm⟩ (by decide) with ⟨f, hf, -⟩ | hd
  · have hok : Container.ofBytes b =
        .ok ⟨⟨.array, 2, by decide, by decide⟩, [2147483649, 805306368], [], rfl⟩ := by
      cbv
    cases hf.symm.trans hok
  · exact hd

end Value

end PackedTree
