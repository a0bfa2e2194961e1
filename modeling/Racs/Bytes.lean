import Racs.Foundation.ByteBuffer

/-!
# Fixed-width words in byte buffers

The readers and writers of `bytes.h`. A reader takes a buffer and an offset and returns the word
together with the offset behind it, as `racs_read_uint64` does; it is undefined where the C reader
leaves the memory of the buffer. The C writers store the bytes of a word at an offset that every
caller advances by the size written, so a writer is the list of bytes it appends. Words are in the
byte order of the little-endian machines the server runs on.

## Main definitions

* `Racs.writeUint64`, `Racs.writeUint32`, `Racs.writeUint16`.
* `Racs.readUint64`, `Racs.readUint32`, `Racs.readUint16`, `Racs.readBin`.

## Main results

* `Racs.readUint64_write`, `Racs.readUint32_write`, `Racs.readUint16_write`: a reader at the place
  where a word was written returns that word.
-/

namespace Racs

open ByteBuffer

/-- `racs_write_uint64`. -/
def writeUint64 (d : UInt64) : List UInt8 := encode 8 d.toNat

/-- `racs_write_uint32`. -/
def writeUint32 (d : UInt32) : List UInt8 := encode 4 d.toNat

/-- `racs_write_uint16`. -/
def writeUint16 (d : UInt16) : List UInt8 := encode 2 d.toNat

@[simp] theorem length_writeUint64 (d : UInt64) : (writeUint64 d).length = 8 := length_encode ..

@[simp] theorem length_writeUint32 (d : UInt32) : (writeUint32 d).length = 4 := length_encode ..

@[simp] theorem length_writeUint16 (d : UInt16) : (writeUint16 d).length = 2 := length_encode ..

/-- `memcpy(dest, buf + offset, size)` into a buffer of `size` bytes, with the offset behind the
bytes read. -/
def readBin (buf : List UInt8) (offset size : ℕ) :
    Option ({bs : List UInt8 // bs.length = size} × ℕ) :=
  if h : offset + size ≤ buf.length then
    some (⟨(buf.drop offset).take size, by rw [List.length_take, List.length_drop]; omega⟩,
      offset + size)
  else none

/-- `racs_read_uint64`. -/
def readUint64 (buf : List UInt8) (offset : ℕ) : Option (UInt64 × ℕ) :=
  (slice buf offset 8).map fun bs => (UInt64.ofNat (decode bs), offset + 8)

/-- `racs_read_uint32`. -/
def readUint32 (buf : List UInt8) (offset : ℕ) : Option (UInt32 × ℕ) :=
  (slice buf offset 4).map fun bs => (UInt32.ofNat (decode bs), offset + 4)

/-- `racs_read_uint16`. -/
def readUint16 (buf : List UInt8) (offset : ℕ) : Option (UInt16 × ℕ) :=
  (slice buf offset 2).map fun bs => (UInt16.ofNat (decode bs), offset + 2)

/-- Reading inside a buffer does not see what is behind it. -/
theorem readBin_append {a : List UInt8} (b : List UInt8) {offset size : ℕ}
    (hle : offset + size ≤ a.length) : readBin (a ++ b) offset size = readBin a offset size := by
  have hle' : offset + size ≤ (a ++ b).length := by
    rw [List.length_append]
    omega
  rw [readBin, readBin, dif_pos hle, dif_pos hle']
  refine congrArg some (Prod.ext (Subtype.ext ?_) rfl)
  dsimp only
  rw [List.drop_append_of_le_length (by omega),
    List.take_append_of_le_length (by rw [List.length_drop]; omega)]

theorem offset_of_readBin {buf : List UInt8} {offset size : ℕ} {r}
    (h : readBin buf offset size = some r) : r.2 = offset + size := by
  rw [readBin] at h
  split_ifs at h
  exact congrArg Prod.snd (Option.some.inj h).symm

theorem offset_of_readUint64 {buf : List UInt8} {offset : ℕ} {r}
    (h : readUint64 buf offset = some r) : r.2 = offset + 8 := by
  obtain ⟨_, -, rfl⟩ := Option.map_eq_some_iff.mp h
  rfl

theorem offset_of_readUint32 {buf : List UInt8} {offset : ℕ} {r}
    (h : readUint32 buf offset = some r) : r.2 = offset + 4 := by
  obtain ⟨_, -, rfl⟩ := Option.map_eq_some_iff.mp h
  rfl

/-- The word whose eight bytes `writeUint64` lists. -/
theorem ofNat_decode_writeUint64 (d : UInt64) : UInt64.ofNat (decode (writeUint64 d)) = d := by
  rw [writeUint64, decode_encode_of_lt (by simpa using d.toNat_lt), UInt64.ofNat_toNat]

variable {buf c : List UInt8} {offset : ℕ}

theorem readUint64_write {d : UInt64} (h : Holds buf offset (writeUint64 d ++ c)) :
    readUint64 buf offset = some (d, offset + 8) ∧ Holds buf (offset + 8) c := by
  refine ⟨?_, by simpa only [length_writeUint64] using h.skip⟩
  rw [readUint64, h.slice_eq (length_writeUint64 d).symm, Option.map_some,
    ofNat_decode_writeUint64]

theorem readUint32_write {d : UInt32} (h : Holds buf offset (writeUint32 d ++ c)) :
    readUint32 buf offset = some (d, offset + 4) ∧ Holds buf (offset + 4) c := by
  refine ⟨?_, by simpa only [length_writeUint32] using h.skip⟩
  have hd : decode (writeUint32 d) = d.toNat := decode_encode_of_lt (by simpa using d.toNat_lt)
  rw [readUint32, h.slice_eq (length_writeUint32 d).symm, Option.map_some, hd, UInt32.ofNat_toNat]

theorem readUint16_write {d : UInt16} (h : Holds buf offset (writeUint16 d ++ c)) :
    readUint16 buf offset = some (d, offset + 2) ∧ Holds buf (offset + 2) c := by
  refine ⟨?_, by simpa only [length_writeUint16] using h.skip⟩
  have hd : decode (writeUint16 d) = d.toNat := decode_encode_of_lt (by simpa using d.toNat_lt)
  rw [readUint16, h.slice_eq (length_writeUint16 d).symm, Option.map_some, hd, UInt16.ofNat_toNat]

/-- What is read was written there. -/
theorem of_readUint64 {d : UInt64} {next : ℕ} (h : Holds buf offset c)
    (hread : readUint64 buf offset = some (d, next)) : ∃ rest, c = writeUint64 d ++ rest := by
  obtain ⟨bs, hslice, hword⟩ := Option.map_eq_some_iff.mp hread
  obtain ⟨hlen, rest, rfl⟩ := h.of_slice hslice
  refine ⟨rest, ?_⟩
  have hlt := decode_lt bs
  rw [hlen] at hlt
  rw [← (Prod.mk.inj hword).1, writeUint64, UInt64.toNat_ofNat',
    Nat.mod_eq_of_lt (by simpa using hlt), ← hlen, encode_decode]

/-- What is read was written there. -/
theorem of_readUint32 {d : UInt32} {next : ℕ} (h : Holds buf offset c)
    (hread : readUint32 buf offset = some (d, next)) : ∃ rest, c = writeUint32 d ++ rest := by
  obtain ⟨bs, hslice, hword⟩ := Option.map_eq_some_iff.mp hread
  obtain ⟨hlen, rest, rfl⟩ := h.of_slice hslice
  refine ⟨rest, ?_⟩
  have hlt := decode_lt bs
  rw [hlen] at hlt
  rw [← (Prod.mk.inj hword).1, writeUint32, UInt32.toNat_ofNat',
    Nat.mod_eq_of_lt (by simpa using hlt), ← hlen, encode_decode]

/-- What is read was written there. -/
theorem of_readUint16 {d : UInt16} {next : ℕ} (h : Holds buf offset c)
    (hread : readUint16 buf offset = some (d, next)) : ∃ rest, c = writeUint16 d ++ rest := by
  obtain ⟨bs, hslice, hword⟩ := Option.map_eq_some_iff.mp hread
  obtain ⟨hlen, rest, rfl⟩ := h.of_slice hslice
  refine ⟨rest, ?_⟩
  have hlt := decode_lt bs
  rw [hlen] at hlt
  rw [← (Prod.mk.inj hword).1, writeUint16, UInt16.toNat_ofNat',
    Nat.mod_eq_of_lt (by simpa using hlt), ← hlen, encode_decode]

theorem of_readBin {size next : ℕ} {b : {bs : List UInt8 // bs.length = size}}
    (h : Holds buf offset c) (hread : readBin buf offset size = some (b, next)) :
    ∃ rest, c = b.1 ++ rest := by
  rw [readBin] at hread
  split_ifs at hread
  obtain ⟨rfl, -⟩ := Prod.mk.inj (Option.some.inj hread)
  refine ⟨c.drop size, ?_⟩
  change c = (buf.drop offset).take size ++ c.drop size
  rw [h.drop_eq, List.take_append_drop]

theorem readBin_write {b : List UInt8} {size : ℕ} (h : Holds buf offset (b ++ c))
    (hb : b.length = size) :
    readBin buf offset size = some (⟨b, hb⟩, offset + size) ∧ Holds buf (offset + size) c := by
  subst hb
  refine ⟨?_, h.skip⟩
  have hle : offset + b.length ≤ buf.length := by
    rw [h.length_eq, List.length_append]
    omega
  rw [readBin, dif_pos hle]
  congr 3
  rw [h.drop_eq, List.take_left]

end Racs
