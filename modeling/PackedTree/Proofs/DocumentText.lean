import PackedTree.Proofs.DocumentLayout
import PackedTree.Proofs.DocumentReading
import Mathlib.Data.Fintype.Basic
import Mathlib.Tactic.FinCases

/-! # Documents are read again from their text

The reader skips the blanks of a layout, so it makes the same of both layouts of a document: what it
makes of the members, put together again (`Json.reread`, `Layout.read_text`).

That is the document itself, but for one thing.  An object whose first member has the reserved name
is a number in disguise to the reader, and no other object is; so a document with ordered names
comes back from its text exactly if no object in it begins with that name
(`reread_eq_some_iff`). -/

namespace PackedTree.Json

/-! ### Reading what was laid out -/

mutual

/-- What the reader makes of the text of a document. -/
def reread : Json → Option Json
  | .array items => (rereadItems items).map .array
  | .object members => (rereadMembers members).bind finishMembers
  | doc => some doc

def rereadItems : List Json → Option (List Json)
  | [] => some []
  | v :: vs => v.reread.bind fun w => (rereadItems vs).map (w :: ·)

/-- What it makes of members, in the order of the text. -/
def rereadMembers : List (String × Json) → Option (List (String × Json))
  | [] => some []
  | (k, v) :: ms => v.reread.bind fun w => (rereadMembers ms).map ((k, w) :: ·)

end

variable {l : Layout} {doc : Json} {items : List Json} {members : List (String × Json)}
  {fuel room level : Nat} {cs tail rest : List Char}

theorem ends_cons {c : Char} (h : c ∈ [',', ']', '\x7d', ' ', '\n']) (cs : List Char) :
    Numeral.Ends (c :: cs) := by
  rintro _ ⟨⟩
  have hall : ∀ m ∈ [',', ']', '\x7d', ' ', '\n'],
      Numeral.isDigit m = false ∧ m ≠ '.' ∧ m ≠ 'e' ∧ m ≠ 'E' := by
    simp [Numeral.isDigit]
  exact hall c h

theorem ends_comma (cs : List Char) : Numeral.Ends (',' :: cs) := ends_cons (by simp) cs

/-- What closes a container does not continue a numeral. -/
theorem Layout.ends_gap (l : Layout) (level : Nat) {c : Char} (hc : c = ']' ∨ c = '\x7d')
    (cs : List Char) : Numeral.Ends (l.gap level ++ c :: cs) := by
  have hblank := l.blank_gap level
  cases hg : l.gap level with
  | nil => exact ends_cons (by rcases hc with rfl | rfl <;> simp) cs
  | cons b g =>
      rw [hg] at hblank
      refine ends_cons ?_ _
      rcases hblank b List.mem_cons_self with rfl | rfl <;> simp

/-- In front of anything that does not continue a numeral, the reader makes of the text of a
document what it makes of the document. -/
def Layout.Reads (l : Layout) (doc : Json) : Prop :=
  ∀ (level fuel : Nat) {room : Nat} {rest : List Char}, (l.chars doc level).length < fuel →
    doc.depth ≤ room → Numeral.Ends rest →
      readValue fuel room (l.chars doc level ++ rest) = doc.reread.map fun v => (v, rest)

theorem readItems_step {r : Option Json} (h : readValue fuel room cs = r.map fun v => (v, tail))
    (acc : List Json) : readItems (fuel + 1) room acc cs = r.bind fun v =>
      match skipBlank tail with
      | ',' :: cs => readItems fuel room (v :: acc) cs
      | ']' :: cs => some (.array (v :: acc).reverse, cs)
      | _ => none := by
  rw [readItems, h]
  cases r <;> rfl

theorem readMembers_step {r : Option Json} (h : readValue fuel room cs = r.map fun v => (v, tail))
    (acc : List (String × Json)) (k : String) :
    readMembers (fuel + 1) room acc (stringChars k ++ ':' :: cs) = r.bind fun v =>
      match skipBlank tail with
      | ',' :: cs => readMembers fuel room ((k, v) :: acc) cs
      | '\x7d' :: cs => (finishMembers ((k, v) :: acc).reverse).map fun doc => (doc, cs)
      | _ => none := by
  have hquote : skipBlank (stringChars k ++ ':' :: cs) =
      '"' :: (k.toList.flatMap escape ++ '"' :: ':' :: cs) := by
    rw [stringChars, List.cons_append, List.append_assoc]
    rfl
  have hcolon : skipBlank (':' :: cs) = ':' :: cs := rfl
  simp only [readMembers, hquote, readString_chars, hcolon, h]
  cases r <;> rfl

def Layout.itemText (l : Layout) (items : List Json) (level : Nat) : List Char :=
  [','].intercalate (items.map fun v => l.gap level ++ l.chars v level)

def Layout.memberText (l : Layout) (members : List (String × Json)) (level : Nat) : List Char :=
  [','].intercalate (members.map fun m =>
    l.gap level ++ (stringChars m.1 ++ ':' :: (l.space ++ l.chars m.2 level)))

theorem itemText_singleton (v : Json) (level : Nat) :
    l.itemText [v] level = l.gap level ++ l.chars v level :=
  List.intercalate_singleton

theorem itemText_cons (v w : Json) (vs : List Json) (level : Nat) :
    l.itemText (v :: w :: vs) level =
      l.gap level ++ (l.chars v level ++ ',' :: l.itemText (w :: vs) level) := by
  rw [Layout.itemText, List.map_cons, List.map_cons, List.intercalate_cons_cons, List.append_assoc,
    List.append_assoc]
  rfl

theorem memberText_singleton (k : String) (v : Json) (level : Nat) :
    l.memberText [(k, v)] level =
      l.gap level ++ (stringChars k ++ ':' :: (l.space ++ l.chars v level)) :=
  List.intercalate_singleton

theorem memberText_cons (k : String) (v : Json) (m : String × Json) (ms : List (String × Json))
    (level : Nat) :
    l.memberText ((k, v) :: m :: ms) level =
      l.gap level ++ (stringChars k ++ ':' :: (l.space ++
        (l.chars v level ++ ',' :: l.memberText (m :: ms) level))) := by
  rw [Layout.memberText, List.map_cons, List.map_cons, List.intercalate_cons_cons]
  simp only [List.append_assoc, List.cons_append]
  rfl

theorem readItems_itemText (hne : items ≠ []) (ih : ∀ v ∈ items, l.Reads v)
    (hroom : depthItems items ≤ room) (hfuel : (l.itemText items (level + 1)).length + 1 < fuel)
    (acc : List Json) (rest : List Char) :
    readItems fuel room acc (l.itemText items (level + 1) ++ (l.gap level ++ ']' :: rest)) =
      (rereadItems items).map fun vs => (.array (acc.reverse ++ vs), rest) := by
  induction items generalizing fuel acc with
  | nil => exact absurd rfl hne
  | cons v vs ih' =>
      obtain ⟨hv, hvs⟩ := List.forall_mem_cons.mp ih
      rw [depthItems, Nat.max_le] at hroom
      obtain ⟨fuel, rfl⟩ : ∃ n, fuel = n + 1 := ⟨fuel - 1, by omega⟩
      rw [rereadItems]
      cases vs with
      | nil =>
          rw [itemText_singleton, List.length_append] at hfuel
          have hread := hv (level + 1) fuel (by omega) hroom.1 (l.ends_gap level (.inl rfl) rest)
          rw [← readValue_append_blank (l.blank_gap (level + 1))] at hread
          rw [itemText_singleton, List.append_assoc, readItems_step hread,
            skipBlank_append (l.blank_gap level)]
          cases v.reread with
          | none => rfl
          | some w => simp [skipBlank, rereadItems]
      | cons u us =>
          rw [itemText_cons, List.length_append, List.length_append, List.length_cons] at hfuel
          have hread := hv (level + 1) fuel (by omega) hroom.1
            (ends_comma (l.itemText (u :: us) (level + 1) ++ (l.gap level ++ ']' :: rest)))
          rw [← readValue_append_blank (l.blank_gap (level + 1))] at hread
          rw [itemText_cons, List.append_assoc, List.append_assoc, List.cons_append,
            readItems_step hread]
          cases v.reread with
          | none => rfl
          | some w =>
              show readItems fuel room (w :: acc) _ = _
              rw [ih' (List.cons_ne_nil _ _) hvs hroom.2 (by omega)]
              cases rereadItems (u :: us) <;> simp

theorem readMembers_memberText (hne : members ≠ []) (ih : ∀ m ∈ members, l.Reads m.2)
    (hroom : depthMembers members ≤ room)
    (hfuel : (l.memberText members (level + 1)).length + 1 < fuel)
    (acc : List (String × Json)) (rest : List Char) :
    readMembers fuel room acc
        (l.memberText members (level + 1) ++ (l.gap level ++ '\x7d' :: rest)) =
      (rereadMembers members).bind fun ms =>
        (finishMembers (acc.reverse ++ ms)).map fun doc => (doc, rest) := by
  induction members generalizing fuel acc with
  | nil => exact absurd rfl hne
  | cons m ms ih' =>
      obtain ⟨k, v⟩ := m
      obtain ⟨hv, hms⟩ := List.forall_mem_cons.mp ih
      have hv : l.Reads v := hv
      rw [depthMembers, Nat.max_le] at hroom
      obtain ⟨fuel, rfl⟩ : ∃ n, fuel = n + 1 := ⟨fuel - 1, by omega⟩
      rw [rereadMembers]
      cases ms with
      | nil =>
          rw [memberText_singleton] at hfuel
          simp only [List.length_append, List.length_cons] at hfuel
          have hread := hv (level + 1) fuel (by omega) hroom.1 (l.ends_gap level (.inr rfl) rest)
          rw [← readValue_append_blank l.blank_space] at hread
          rw [memberText_singleton, ← readMembers_skipBlank, List.append_assoc,
            skipBlank_append (l.blank_gap (level + 1)), readMembers_skipBlank]
          simp only [List.append_assoc, List.cons_append]
          rw [readMembers_step hread, skipBlank_append (l.blank_gap level)]
          cases v.reread with
          | none => rfl
          | some w => simp [skipBlank, rereadMembers]
      | cons m ms =>
          rw [memberText_cons] at hfuel
          simp only [List.length_append, List.length_cons] at hfuel
          have hread := hv (level + 1) fuel (by omega) hroom.1
            (ends_comma (l.memberText (m :: ms) (level + 1) ++ (l.gap level ++ '\x7d' :: rest)))
          rw [← readValue_append_blank l.blank_space] at hread
          rw [memberText_cons, ← readMembers_skipBlank, List.append_assoc,
            skipBlank_append (l.blank_gap (level + 1)), readMembers_skipBlank]
          simp only [List.append_assoc, List.cons_append]
          rw [readMembers_step hread]
          cases v.reread with
          | none => rfl
          | some w =>
              show readMembers fuel room ((k, w) :: acc) _ = _
              rw [ih' (List.cons_ne_nil _ _) hms hroom.2 (by omega)]
              cases rereadMembers (m :: ms) <;> simp

/-! ### Whole documents -/

theorem readValue_array (h : (skipBlank cs).head? ≠ some ']') :
    readValue (fuel + 1) (room + 1) ('[' :: cs) = readItems fuel room [] cs := by
  have hbegin : skipBlank ('[' :: cs) = '[' :: cs := rfl
  rw [← readItems_skipBlank]
  simp only [readValue, hbegin, if_neg (Nat.succ_ne_zero room), Nat.add_sub_cancel]
  split
  · next heq => exact absurd (congrArg List.head? heq) h
  · rfl

theorem readValue_object (h : (skipBlank cs).head? ≠ some '\x7d') :
    readValue (fuel + 1) (room + 1) ('\x7b' :: cs) = readMembers fuel room [] cs := by
  have hbegin : skipBlank ('\x7b' :: cs) = '\x7b' :: cs := rfl
  rw [← readMembers_skipBlank]
  simp only [readValue, hbegin, if_neg (Nat.succ_ne_zero room), Nat.add_sub_cancel]
  split
  · next heq => exact absurd (congrArg List.head? heq) h
  · rfl

theorem head?_itemText (hne : items ≠ []) (level : Nat) (rest : List Char) :
    (skipBlank (l.itemText items level ++ rest)).head? ≠ some ']' := by
  obtain ⟨v, u, hu⟩ : ∃ v u, l.itemText items level = l.gap level ++ (l.chars v level ++ u) := by
    match items, hne with
    | [v], _ => exact ⟨v, [], by rw [itemText_singleton, List.append_nil]⟩
    | v :: w :: vs, _ => exact ⟨v, _, itemText_cons v w vs level⟩
  obtain ⟨c, cs, hcs, hc⟩ := begins_chars l v level
  have hmem := hc.not_mem
  rw [hu, List.append_assoc, skipBlank_append (l.blank_gap level), hcs, List.cons_append,
    List.cons_append, skipBlank_of_begins hc]
  rintro ⟨⟩
  exact hmem (by simp)

theorem head?_memberText (hne : members ≠ []) (level : Nat) (rest : List Char) :
    (skipBlank (l.memberText members level ++ rest)).head? ≠ some '\x7d' := by
  obtain ⟨u, hu⟩ : ∃ u, l.memberText members level = l.gap level ++ '"' :: u := by
    match members, hne with
    | [(k, v)], _ => exact ⟨_, memberText_singleton k v level⟩
    | (k, v) :: m :: ms, _ => exact ⟨_, memberText_cons k v m ms level⟩
  rw [hu, List.append_assoc, skipBlank_append (l.blank_gap level)]
  rintro ⟨⟩

theorem readValue_number (n : Numeral) (hr : Numeral.Ends rest) :
    readValue (fuel + 1) room (n.chars ++ rest) = some (.number n, rest) := by
  have hread : ∀ c cs, n.chars ++ rest = c :: cs →
      (c = '-' ∨ ∃ d : Fin 10, c = Nat.digitChar d.val) → readValue (fuel + 1) room (c :: cs) =
        (Numeral.read? (c :: cs)).map fun r => (.number r.1, r.2) := by
    rintro c cs - (rfl | ⟨d, rfl⟩)
    · rfl
    · fin_cases d <;> rfl
  obtain ⟨c, cs, hcs, hc⟩ := n.exists_chars_eq_cons
  have hcons : n.chars ++ rest = c :: (cs ++ rest) := by rw [hcs, List.cons_append]
  rw [hcons, hread c _ hcons hc, ← hcons, n.read?_chars hr]
  rfl

theorem reread_of_isScalar (hd : doc.isScalar = true) : doc.reread = some doc := by
  cases doc with
  | array | object => cases hd
  | _ => simp [reread]

theorem reads_of_isScalar (hd : doc.isScalar = true) : l.Reads doc := by
  intro level fuel room rest hfuel _ hr
  obtain ⟨fuel, rfl⟩ : ∃ n, fuel = n + 1 := ⟨fuel - 1, by omega⟩
  rw [l.scalar doc level hd, reread_of_isScalar hd]
  cases doc with
  | null => rfl
  | bool b => cases b <;> rfl
  | number n => exact readValue_number n hr
  | string s =>
      have hread : readValue (fuel + 1) room ('"' :: (s.toList.flatMap escape ++ '"' :: rest)) =
          (readString (s.toList.flatMap escape ++ '"' :: rest)).map fun r =>
            (.string r.1, r.2) := rfl
      rw [readString_chars] at hread
      rw [chars, stringChars, List.cons_append, List.append_assoc]
      exact hread
  | array | object => cases hd

/-- The reader makes of a document that was laid out what it makes of its members. -/
theorem Layout.reads (l : Layout) (doc : Json) : l.Reads doc := by
  induction doc using induction_on_members with
  | null | bool | number | string => exact reads_of_isScalar rfl
  | array items ih =>
      intro level fuel room rest hfuel hroom _
      rw [depth] at hroom
      obtain ⟨fuel, rfl⟩ : ∃ n, fuel = n + 1 := ⟨fuel - 1, by omega⟩
      obtain ⟨room, rfl⟩ : ∃ n, room = n + 1 := ⟨room - 1, by omega⟩
      rw [reread]
      by_cases hne : items = []
      · subst hne
        rw [l.empty_array]
        rfl
      · have htext : l.chars (.array items) level =
            '[' :: (l.itemText items (level + 1) ++ (l.gap level ++ [']'])) :=
          l.array items level hne
        rw [htext, List.length_cons, List.length_append, List.length_append] at hfuel
        rw [htext, List.cons_append, List.append_assoc, List.append_assoc, List.singleton_append,
          readValue_array (head?_itemText hne (level + 1) _),
          readItems_itemText hne ih (Nat.le_of_succ_le_succ hroom) (by simp at hfuel; omega)]
        cases rereadItems items <;> rfl
  | object members ih =>
      intro level fuel room rest hfuel hroom _
      rw [depth] at hroom
      obtain ⟨fuel, rfl⟩ : ∃ n, fuel = n + 1 := ⟨fuel - 1, by omega⟩
      obtain ⟨room, rfl⟩ : ∃ n, room = n + 1 := ⟨room - 1, by omega⟩
      rw [reread]
      by_cases hne : members = []
      · subst hne
        rw [l.empty_object]
        rfl
      · have htext : l.chars (.object members) level =
            '\x7b' :: (l.memberText members (level + 1) ++ (l.gap level ++ ['\x7d'])) :=
          l.object members level hne
        rw [htext, List.length_cons, List.length_append, List.length_append] at hfuel
        rw [htext, List.cons_append, List.append_assoc, List.append_assoc, List.singleton_append,
          readValue_object (head?_memberText hne (level + 1) _),
          readMembers_memberText hne ih (Nat.le_of_succ_le_succ hroom) (by simp at hfuel; omega)]
        cases rereadMembers members <;> rfl

/-- What is read from the text of a document that does not nest too deep. -/
theorem Layout.read_text (l : Layout) (h : doc.depth ≤ maxNesting) :
    read (String.ofList (l.chars doc 0)) = doc.reread := by
  have hread := l.reads doc 0 ((l.chars doc 0).length + 1) (Nat.lt_succ_self _) h Numeral.ends_nil
  rw [List.append_nil] at hread
  unfold read
  rw [String.toList_ofList, hread]
  cases doc.reread <;> rfl

/-! ### What comes back -/

/-- No object in a document begins with the reserved name. -/
def Unmarked (doc : Json) : Prop := ∀ v ms, .object ((reservedName, v) :: ms) ∉ doc.parts

theorem unmarked_iff : doc.Unmarked ↔
    (∀ v ms, doc ≠ .object ((reservedName, v) :: ms)) ∧ ∀ v ∈ doc.inner, v.Unmarked := by
  have hparts := @forall_mem_parts_iff doc fun p => ∀ v ms, p ≠ .object ((reservedName, v) :: ms)
  constructor
  · intro h
    obtain ⟨hself, hinner⟩ := hparts.mp fun p hp v ms heq => h v ms (heq ▸ hp)
    exact ⟨hself, fun v hv w ms hm => hinner v hv _ hm w ms rfl⟩
  · rintro ⟨hself, hinner⟩ v ms hm
    exact hparts.mpr ⟨hself, fun v hv p hp w ms heq => hinner v hv w ms (heq ▸ hp)⟩ _ hm v ms rfl

theorem rereadItems_eq_some_iff :
    rereadItems items = some items ↔ ∀ v ∈ items, v.reread = some v := by
  induction items with
  | nil => simp [rereadItems]
  | cons v vs ih =>
      rw [rereadItems, List.forall_mem_cons, ← ih]
      cases v.reread <;> cases rereadItems vs <;> simp

theorem rereadMembers_eq_some_iff :
    rereadMembers members = some members ↔ ∀ m ∈ members, m.2.reread = some m.2 := by
  induction members with
  | nil => simp [rereadMembers]
  | cons m ms ih =>
      obtain ⟨k, v⟩ := m
      rw [rereadMembers, List.forall_mem_cons, ← ih]
      cases v.reread <;> cases rereadMembers ms <;> simp

theorem names_of_rereadMembers {ms : List (String × Json)} (h : rereadMembers members = some ms) :
    ms.map Prod.fst = members.map Prod.fst := by
  induction members generalizing ms with
  | nil =>
      cases h
      rfl
  | cons m ns ih =>
      obtain ⟨k, v⟩ := m
      rw [rereadMembers] at h
      obtain ⟨w, -, h⟩ := Option.bind_eq_some_iff.mp h
      obtain ⟨us, hus, rfl⟩ := Option.map_eq_some_iff.mp h
      rw [List.map_cons, List.map_cons, ih hus]

theorem finishMembers_reserved (v : Json) (ms : List (String × Json)) :
    finishMembers ((reservedName, v) :: ms) ≠ some (.object members) := by
  intro h
  unfold finishMembers at h
  dsimp only at h
  rw [if_pos rfl] at h
  split at h
  · obtain ⟨n, -, hn⟩ := Option.map_eq_some_iff.mp h
    cases hn
  · cases h

theorem finishMembers_eq_some_iff {ms : List (String × Json)}
    (ha : Keyed.Ascending nameCompare ms) :
    finishMembers ms = some (.object members) ↔
      ms = members ∧ ∀ v us, ms ≠ (reservedName, v) :: us := by
  have hself := ofMembers_of_ascending ha
  cases ms with
  | nil => simp [finishMembers, hself]
  | cons m ms =>
      obtain ⟨k, v⟩ := m
      by_cases hk : k = reservedName
      · subst hk
        exact iff_of_false (finishMembers_reserved v ms) fun h => h.2 v ms rfl
      · have hplain : finishMembers ((k, v) :: ms) = some (ofMembers ((k, v) :: ms)) := if_neg hk
        rw [hplain, hself]
        simp [hk]

/-- A document with ordered names comes back from its text exactly if it is not marked. -/
theorem reread_eq_some_iff (h : doc.Ordered) : doc.reread = some doc ↔ doc.Unmarked := by
  induction doc using induction_on_members with
  | null | bool | number | string =>
      refine iff_of_true (reread_of_isScalar rfl) (unmarked_iff.mpr ⟨nofun, nofun⟩)
  | array items ih =>
      have hinner : (∀ v ∈ items, v.reread = some v) ↔ ∀ v ∈ items, v.Unmarked :=
        forall₂_congr fun v hv => ih v hv (h.inner hv)
      have hself : ∀ v ms, Json.array items ≠ .object ((reservedName, v) :: ms) := nofun
      rw [reread, unmarked_iff, inner, ← hinner, ← rereadItems_eq_some_iff, and_iff_right hself]
      cases rereadItems items <;> simp
  | object members ih =>
      have hinner : (∀ m ∈ members, m.2.reread = some m.2) ↔ ∀ m ∈ members, m.2.Unmarked :=
        forall₂_congr fun m hm => ih m hm (h.inner (List.mem_map_of_mem hm))
      have ha := h.ascending
      rw [unmarked_iff, inner, List.forall_mem_map, ← hinner, ← rereadMembers_eq_some_iff, reread,
        Option.bind_eq_some_iff]
      simp only [ne_eq, Json.object.injEq]
      constructor
      · rintro ⟨ms, hms, hf⟩
        have hasc : Keyed.Ascending nameCompare ms := by
          rw [Keyed.ascending_iff_keys, names_of_rereadMembers hms, ← Keyed.ascending_iff_keys]
          exact ha
        obtain ⟨rfl, hmark⟩ := (finishMembers_eq_some_iff hasc).mp hf
        exact ⟨hmark, hms⟩
      · rintro ⟨hmark, hms⟩
        exact ⟨members, hms, (finishMembers_eq_some_iff ha).mpr ⟨rfl, hmark⟩⟩

end PackedTree.Json
