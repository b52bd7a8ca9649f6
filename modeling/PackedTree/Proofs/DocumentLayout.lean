import PackedTree.Json.Parser
import PackedTree.Json.Printer
import PackedTree.Proofs.DecimalReading
import PackedTree.Proofs.DocumentParts
import PackedTree.Proofs.NumeralText
import Mathlib.Data.List.DropRight

/-! # The layouts of documents

A document is printed compact or indented.  Both layouts join the texts of the members by commas and
differ only in the blanks around them (`Json.Layout`), which the reader skips.  What they print of a
scalar is read on its own: a numeral from its characters, whatever follows that does not continue it
(`Numeral.read?_chars`), and a string from its escapes (`Json.readString_chars`).  No document
begins with a blank or with the end of an array (`Json.begins_chars`). -/

namespace PackedTree

/-! ### Numerals -/

namespace Numeral

theorem isDigit_digitChar : ∀ d : Fin 10, isDigit (Nat.digitChar d.val) = true := by decide

theorem isDigits_digitChars {ds : List (Fin 10)} (h : ds ≠ []) : IsDigits (digitChars ds) :=
  ⟨fun hd => h (List.map_eq_nil_iff.mp hd), List.forall_mem_map.mpr fun d _ => isDigit_digitChar d⟩

theorem map_digit_digitChars (ds : List (Fin 10)) : (digitChars ds).map digit = ds := by
  rw [digitChars, List.map_map]
  exact (List.map_congr_left fun d _ => digit_digitChar d).trans (List.map_id ds)

theorem isFraction_chars (ds : List (Fin 10)) :
    IsFraction (if ds.isEmpty then [] else '.' :: digitChars ds) ds := by
  cases ds with
  | nil => exact .absent
  | cons d ds =>
      have hpoint := IsFraction.point (isDigits_digitChars (List.cons_ne_nil d ds))
      rwa [map_digit_digitChars] at hpoint

theorem isExponent_chars (e : Exponent) : IsExponent (exponentChars e) (some e) := by
  obtain ⟨negative, d, ds⟩ := e
  have hmarked := IsExponent.marked (.inl rfl) negative
    (isDigits_digitChars (List.cons_ne_nil d ds))
  rw [digit_digitChar] at hmarked
  have hds := map_digit_digitChars ds
  rw [digitChars] at hds
  rwa [hds] at hmarked

theorem isUnsigned_chars (whole : Nat) (fraction : List (Fin 10)) (exponent : Option Exponent) :
    IsUnsigned (chars ⟨false, whole, fraction, exponent⟩) ⟨false, whole, fraction, exponent⟩ := by
  have hw := Decimal.isWhole_toDigits whole
  have hf := isFraction_chars fraction
  have hwhole : ofDigits ((Nat.toDigits 10 whole).map digit) = whole := ofDigits_toDigits whole
  cases exponent with
  | none =>
      have hparts := IsUnsigned.parts hw hf .absent
      rwa [hwhole] at hparts
  | some e =>
      have hparts := IsUnsigned.parts hw hf (isExponent_chars e)
      rwa [hwhole] at hparts

/-- A numeral is read from its characters, whatever follows that does not continue it. -/
theorem read?_chars (n : Numeral) {rest : List Char} (hr : Ends rest) :
    read? (n.chars ++ rest) = some (n, rest) := by
  obtain ⟨negative, whole, fraction, exponent⟩ := n
  obtain ⟨hpos, hneg⟩ := read?_of_isUnsigned (isUnsigned_chars whole fraction exponent) hr
  cases negative with
  | true => exact hneg
  | false => exact hpos

theorem exists_chars_eq_cons (n : Numeral) :
    ∃ c cs, n.chars = c :: cs ∧ (c = '-' ∨ ∃ d : Fin 10, c = Nat.digitChar d.val) := by
  obtain ⟨negative, whole, fraction, exponent⟩ := n
  obtain ⟨d, ds, hchars, -⟩ := exists_toDigits whole
  cases negative with
  | true => exact ⟨'-', _, rfl, .inl rfl⟩
  | false =>
      have hcons : ∃ cs, chars ⟨false, whole, fraction, exponent⟩ = Nat.digitChar d.val :: cs := by
        rw [chars, hchars]
        exact ⟨_, rfl⟩
      obtain ⟨cs, hcs⟩ := hcons
      exact ⟨_, cs, hcs, .inr ⟨d, rfl⟩⟩

end Numeral

namespace Json

/-! ### Strings -/

/-- Every character is read from its escape. -/
theorem readChars_escape (acc : List Char) (c : Char) (cs : List Char) :
    readChars acc .plain (escape c ++ cs) = readChars (c :: acc) .plain cs := by
  unfold escape
  split_ifs with hquote hback hb hf hn hr ht hlow
  · subst hquote; rfl
  · subst hback; rfl
  · subst hb; rfl
  · subst hf; rfl
  · subst hn; rfl
  · subst hr; rfl
  · subst ht; rfl
  · have h0 : Hex.digit? '0' = some 0 := rfl
    have hhigh := Hex.digit?_digitChar (c.toNat / 16) (by omega)
    have hlast := Hex.digit?_digitChar (c.toNat % 16) (by omega)
    have hvalue : 16 * (c.toNat / 16) + c.toNat % 16 = c.toNat := by omega
    have hplain : ¬ (0xD800 ≤ c.toNat ∧ c.toNat < 0xDC00) ∧
        ¬ (0xDC00 ≤ c.toNat ∧ c.toNat < 0xE000) := by omega
    simp [readChars, stringStep, h0, hhigh, hlast, hvalue, finishCode, hplain]
  · simp [readChars, stringStep, hquote, hback, hlow]

theorem readChars_chars (s acc rest : List Char) :
    readChars acc .plain (s.flatMap escape ++ '"' :: rest) =
      some (String.ofList (acc.reverse ++ s), rest) := by
  induction s generalizing acc with
  | nil => simp [readChars]
  | cons c s ih =>
      rw [List.flatMap_cons, List.append_assoc, readChars_escape, ih]
      simp

theorem readString_chars (s : String) (rest : List Char) :
    readString (s.toList.flatMap escape ++ '"' :: rest) = some (s, rest) := by
  rw [readString, readChars_chars]
  simp

/-! ### Layouts -/

/-- Blanks as the layouts have them. -/
def Blank (cs : List Char) : Prop := ∀ c ∈ cs, c = ' ' ∨ c = '\n'

/-- A way to lay out documents: the blanks in front of a member or of the end of a container at a
level, and those behind a colon. -/
structure Layout where
  chars : Json → Nat → List Char
  gap : Nat → List Char
  space : List Char
  blank_gap : ∀ level, Blank (gap level)
  blank_space : Blank space
  scalar : ∀ doc level, doc.isScalar = true → chars doc level = doc.chars
  empty_array : ∀ level, chars (.array []) level = ['[', ']']
  array : ∀ items level, items ≠ [] → chars (.array items) level =
    '[' :: ([','].intercalate (items.map fun v => gap (level + 1) ++ chars v (level + 1)) ++
      (gap level ++ [']']))
  empty_object : ∀ level, chars (.object []) level = ['\x7b', '\x7d']
  object : ∀ members level, members ≠ [] → chars (.object members) level =
    '\x7b' :: ([','].intercalate (members.map fun m =>
      gap (level + 1) ++ (stringChars m.1 ++ ':' :: (space ++ chars m.2 (level + 1)))) ++
        (gap level ++ ['\x7d']))

theorem itemChars_eq : ∀ items : List Json,
    itemChars items = [','].intercalate (items.map chars)
  | [] => rfl
  | [v] => by simp [itemChars]
  | v :: w :: vs => by simp [itemChars, itemChars_eq (w :: vs)]

theorem memberChars_eq : ∀ members : List (String × Json),
    memberChars members =
      [','].intercalate (members.map fun m => stringChars m.1 ++ ':' :: m.2.chars)
  | [] => rfl
  | [(k, v)] => by simp [memberChars]
  | (k, v) :: m :: ms => by simp [memberChars, memberChars_eq (m :: ms)]

def Layout.compact : Layout where
  chars doc _ := doc.chars
  gap _ := []
  space := []
  blank_gap _ := List.forall_mem_nil _
  blank_space := List.forall_mem_nil _
  scalar _ _ _ := rfl
  empty_array _ := by simp [Json.chars, itemChars]
  array items _ _ := by simp [Json.chars, itemChars_eq]
  empty_object _ := by simp [Json.chars, memberChars]
  object members _ _ := by simp [Json.chars, memberChars_eq]

theorem prettyItems_eq (level : Nat) : ∀ items : List Json,
    prettyItems items level =
      [','].intercalate (items.map fun v => newLine level ++ v.prettyChars level)
  | [] => rfl
  | [v] => by simp [prettyItems]
  | v :: w :: vs => by simp [prettyItems, prettyItems_eq level (w :: vs)]

theorem prettyMembers_eq (level : Nat) : ∀ members : List (String × Json),
    prettyMembers members level = [','].intercalate (members.map fun m =>
      newLine level ++ (stringChars m.1 ++ ':' :: ([' '] ++ m.2.prettyChars level)))
  | [] => rfl
  | [(k, v)] => by simp [prettyMembers]
  | (k, v) :: m :: ms => by simp [prettyMembers, prettyMembers_eq level (m :: ms)]

def Layout.indented : Layout where
  chars := prettyChars
  gap := newLine
  space := [' ']
  blank_gap level := by
    rintro c hc
    rcases List.mem_cons.mp hc with rfl | hc
    · exact .inr rfl
    · exact .inl (List.eq_of_mem_replicate hc)
  blank_space := by simp [Blank]
  scalar doc level h := by
    cases doc with
    | array | object => cases h
    | _ => rw [prettyChars] <;> simp
  empty_array _ := by rw [prettyChars]
  array items level h := by rw [prettyChars, prettyItems_eq]; exact h
  empty_object _ := by rw [prettyChars]
  object members level h := by rw [prettyChars, prettyMembers_eq]; exact h

/-! ### Blanks in front -/

theorem skipBlank_append {g : List Char} (h : Blank g) (cs : List Char) :
    skipBlank (g ++ cs) = skipBlank cs :=
  List.dropWhile_append_of_pos fun c hc => by rcases h c hc with rfl | rfl <;> rfl

theorem skipBlank_idem (cs : List Char) : skipBlank (skipBlank cs) = skipBlank cs :=
  List.dropWhile_idempotent _ _

theorem readValue_skipBlank (fuel room : Nat) (cs : List Char) :
    readValue fuel room (skipBlank cs) = readValue fuel room cs := by
  cases fuel with
  | zero => rfl
  | succ fuel => rw [readValue, readValue, skipBlank_idem]

theorem readItems_skipBlank (fuel room : Nat) (acc : List Json) (cs : List Char) :
    readItems fuel room acc (skipBlank cs) = readItems fuel room acc cs := by
  cases fuel with
  | zero => rfl
  | succ fuel => rw [readItems, readItems, readValue_skipBlank]

theorem readMembers_skipBlank (fuel room : Nat) (acc : List (String × Json)) (cs : List Char) :
    readMembers fuel room acc (skipBlank cs) = readMembers fuel room acc cs := by
  cases fuel with
  | zero => rfl
  | succ fuel => rw [readMembers, readMembers, skipBlank_idem]

theorem readValue_append_blank {g : List Char} (h : Blank g) (fuel room : Nat) (cs : List Char) :
    readValue fuel room (g ++ cs) = readValue fuel room cs := by
  rw [← readValue_skipBlank, skipBlank_append h, readValue_skipBlank]

/-! ### The first character of a document -/

/-- A character that can begin a document. -/
def Begins (c : Char) : Prop :=
  c ∈ ['n', 't', 'f', '"', '[', '\x7b', '-'] ∨ ∃ d : Fin 10, c = Nat.digitChar d.val

theorem begins_chars (l : Layout) (doc : Json) (level : Nat) :
    ∃ c cs, l.chars doc level = c :: cs ∧ Begins c := by
  cases doc with
  | null => exact ⟨'n', _, l.scalar _ level rfl, .inl (by decide)⟩
  | bool b => cases b <;> exact ⟨_, _, l.scalar _ level rfl, .inl (by decide)⟩
  | number n =>
      obtain ⟨c, cs, hcs, hc⟩ := n.exists_chars_eq_cons
      refine ⟨c, cs, (l.scalar _ level rfl).trans hcs, hc.imp_left ?_⟩
      rintro rfl
      decide
  | string s => exact ⟨'"', _, l.scalar _ level rfl, .inl (by decide)⟩
  | array items =>
      by_cases h : items = []
      · subst h
        exact ⟨'[', _, l.empty_array level, .inl (by decide)⟩
      · exact ⟨'[', _, l.array items level h, .inl (by decide)⟩
  | object members =>
      by_cases h : members = []
      · subst h
        exact ⟨'\x7b', _, l.empty_object level, .inl (by decide)⟩
      · exact ⟨'\x7b', _, l.object members level h, .inl (by decide)⟩

theorem Begins.not_mem {c : Char} (h : Begins c) : c ∉ [' ', '\t', '\n', '\r', ']'] := by
  have hmark : ∀ m ∈ ['n', 't', 'f', '"', '[', '\x7b', '-'], m ∉ [' ', '\t', '\n', '\r', ']'] := by
    simp
  rcases h with h | ⟨d, rfl⟩
  · exact hmark c h
  · revert d
    decide

theorem skipBlank_of_begins {c : Char} (h : Begins c) (cs : List Char) :
    skipBlank (c :: cs) = c :: cs := by
  have hc := h.not_mem
  simp only [List.mem_cons, not_or] at hc
  simp [skipBlank, hc]

end Json

end PackedTree
