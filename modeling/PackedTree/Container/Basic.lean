import PackedTree.Container.Descriptor
import PackedTree.Container.Header

/-! # Containers

A container is one array or object in packed form: a header, a directory of descriptors and
the payload that the descriptors divide up.  An array has one descriptor for each element; an
object has the descriptors of all keys, followed by those of the values in the same order.
The bytes of a container are its three parts one after the other.

`ofBytes_bytes` and `bytes_of_ofBytes` say that containers and accepted byte strings are the
same thing.  Acceptance checks the header and that the directory fits; descriptors and
payload are examined when a child is read. -/

namespace PackedTree

/-- A packed array or object. -/
structure Container where
  header : Header
  words : List UInt32
  payload : Bytes
  length_words : words.length = header.entryCount
deriving DecidableEq, Repr

namespace Container

/-- The number of elements of an array, or of pairs of an object. -/
def len (c : Container) : Nat := c.header.len

/-- Whether this is an object; raw containers count as arrays. -/
def isObject (c : Container) : Bool := c.header.shape == .object

/-- Whether this is the wrapper around a bare scalar. -/
def isRaw (c : Container) : Bool := c.header.shape == .raw

/-- The number of descriptors. -/
def entryCount (c : Container) : Nat := c.header.entryCount

/-! ### Bytes -/

def bytes (c : Container) : Bytes :=
  Bytes.ofWord c.header.toWord ++ (c.words.flatMap Bytes.ofWord ++ c.payload)

/-- The number of bytes of a container. -/
def size (c : Container) : Nat := 4 + 4 * c.entryCount + c.payload.length

/-- The container that consists of the given bytes. -/
def ofBytes (b : Bytes) : Except Fault Container :=
  match Bytes.word? b 0 with
  | .error o => .error (.truncated o)
  | .ok w =>
      match Header.ofWord w with
      | .error f => .error f
      | .ok h =>
          if 4 + 4 * h.entryCount ≤ b.length then
            .ok ⟨h, Bytes.words h.entryCount (b.drop 4), b.drop (4 + 4 * h.entryCount), by simp⟩
          else .error (.truncated ⟨0, 4 + 4 * h.entryCount, b.length⟩)

theorem length_flatMap_ofWord (ws : List UInt32) :
    (ws.flatMap Bytes.ofWord).length = 4 * ws.length := by
  induction ws with
  | nil => rfl
  | cons w ws ih => simp [List.flatMap_cons, ih]; omega

theorem length_bytes (c : Container) : c.bytes.length = c.size := by
  rw [bytes, List.length_append, List.length_append, length_flatMap_ofWord, c.length_words,
    Bytes.length_ofWord, size, entryCount]
  omega

theorem ofBytes_bytes (c : Container) : ofBytes c.bytes = .ok c := by
  have hl := c.length_bytes
  have h4 := Bytes.length_ofWord c.header.toWord
  have hw : Bytes.word? c.bytes 0 = .ok c.header.toWord := by
    have h0 : 0 + 4 ≤ c.bytes.length := by rw [hl, size]; omega
    simp only [Bytes.word?, Bytes.slice?, if_pos h0, List.drop_zero]
    simp [Except.map, bytes, List.take_left' h4]
  have hd : c.bytes.drop 4 = c.words.flatMap Bytes.ofWord ++ c.payload := by
    simp [bytes, List.drop_left' h4]
  have hp : c.bytes.drop (4 + 4 * c.header.entryCount) = c.payload := by
    rw [← List.drop_drop, hd, List.drop_left']
    rw [length_flatMap_ofWord, c.length_words]
  have hs : 4 + 4 * c.header.entryCount ≤ c.bytes.length := by
    rw [hl, size, entryCount]
    omega
  have hws : Bytes.words c.header.entryCount (c.bytes.drop 4) = c.words := by
    rw [hd, ← c.length_words, Bytes.words_flatMap_ofWord]
  simp only [ofBytes, hw, Header.ofWord_toWord, if_pos hs, hp, hws]

theorem bytes_of_ofBytes {b : Bytes} {c : Container} (h : ofBytes b = .ok c) : c.bytes = b := by
  simp only [ofBytes] at h
  split at h
  · cases h
  · next w hw =>
      split at h
      · cases h
      · next hd hh =>
          split at h
          · next hs =>
              cases h
              have h4 : (b.take 4).length = 4 := by simp; omega
              have hb : Bytes.toWord (b.take 4) = w := by
                have h0 : 0 + 4 ≤ b.length := by omega
                simpa [Bytes.word?, Bytes.slice?, if_pos h0, Except.map] using hw
              have hn : 4 * hd.entryCount ≤ (b.drop 4).length := by simp; omega
              rw [bytes, Header.toWord_ofWord hh, ← hb, Bytes.ofWord_toWord h4,
                Bytes.flatMap_ofWord_words hn, ← List.drop_drop, List.take_append_drop,
                List.take_append_drop]
          · cases h

theorem size_of_ofBytes {b : Bytes} {c : Container} (h : ofBytes b = .ok c) :
    c.size = b.length := by
  rw [← length_bytes, bytes_of_ofBytes h]

/-! ### The directory -/

def entry (c : Container) (index : Nat) : Except Fault Descriptor :=
  match c.words[index]? with
  | some w => Descriptor.ofWord w
  | none => .error (.entryOutOfRange index (4 * (index + 1)) (4 * c.entryCount))

/-- Where child `index` begins in the payload, and how many descriptors tell so: those before
it are added up back to the nearest absolute one. -/
def walkBack (c : Container) : Nat → Except Fault (Nat × Nat)
  | 0 => .ok (0, 0)
  | index + 1 => do
      let d ← c.entry index
      if d.absolute then .ok (d.field, 1)
      else
        let (offset, touched) ← c.walkBack index
        .ok (offset + d.field, touched + 1)

/-- Where child `index` begins in the payload. -/
def start (c : Container) (index : Nat) : Except Fault Nat := (c.walkBack index).map Prod.fst

/-- The fault of a child that would end at `stop`. -/
def outOfRange (c : Container) (index stop : Nat) : Fault :=
  .entryOutOfRange index stop c.payload.length

/-- The number of payload bytes of child `index`, padding included. -/
def length (c : Container) (index : Nat) : Except Fault Nat := do
  let d ← c.entry index
  if d.absolute then
    let start ← c.start index
    if start ≤ d.field then .ok (d.field - start) else .error (c.outOfRange index d.field)
  else .ok d.field

end Container

end PackedTree
