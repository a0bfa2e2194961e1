import Racs.Foundation.ByteBuffer

/-!
# RIFF files

A RIFF file is a sequence of chunks. A chunk is a name of four bytes, the size of its body in four
bytes, and the body. Behind a body of odd size stands a byte of padding, which readers do not miss
at the end of the file. The file itself begins like a chunk with the name `RIFF`, whose body is a
name of four bytes for the kind of the file, and the chunks.

## Main definitions

* `Riff.Chunk`, `Riff.Chunk.bytes` — a chunk, and its bytes in a file.
* `Riff.fileBytes`, `Riff.readFile` — a file, and its chunks.

## Main results

* `Riff.readFile_fileBytes` — the chunks of a file are read back.
-/

namespace Riff

open ByteBuffer

/-- A chunk. -/
structure Chunk where
  name : List UInt8
  body : List UInt8
  deriving DecidableEq

/-- The bytes of a chunk, without padding. -/
def Chunk.bytes (chunk : Chunk) : List UInt8 :=
  chunk.name ++ encode 4 chunk.body.length ++ chunk.body

/-- The chunks in the bytes of a file; none when a chunk is not complete. -/
def readChunks : ℕ → List UInt8 → Option (List Chunk)
  | _, [] => some []
  | 0, _ => none
  | fuel + 1, bytes =>
    let size := decode ((bytes.drop 4).take 4)
    if bytes.length < 8 + size then none
    else (readChunks fuel (bytes.drop (8 + size + size % 2))).map fun chunks =>
      ⟨bytes.take 4, (bytes.drop 8).take size⟩ :: chunks

/-- The name of a RIFF file. -/
def riff : List UInt8 := [0x52, 0x49, 0x46, 0x46]

/-- The bytes of a file with chunks whose bodies have even sizes, except the last. -/
def fileBytes (kind : List UInt8) (chunks : List Chunk) : List UInt8 :=
  riff ++ encode 4 (4 + (chunks.flatMap Chunk.bytes).length) ++ kind ++ chunks.flatMap Chunk.bytes

/-- The kind of a RIFF file and its chunks; none when the sizes in it are not those of what is
there. -/
def readFile (bytes : List UInt8) : Option (List UInt8 × List Chunk) :=
  if bytes.take 4 = riff ∧ 12 ≤ bytes.length ∧
      decode ((bytes.drop 4).take 4) + 8 = bytes.length then
    (readChunks bytes.length (bytes.drop 12)).map ((bytes.drop 8).take 4, ·)
  else none

/-- A chunk can be written: its name has four bytes, and its size fits into four. -/
def Chunk.Writable (chunk : Chunk) : Prop := chunk.name.length = 4 ∧ chunk.body.length < 2 ^ 32

/-- Behind an odd body comes nothing. -/
def Unpadded : List Chunk → Prop
  | [] => True
  | chunk :: chunks => (chunk.body.length % 2 = 0 ∨ chunks = []) ∧ Unpadded chunks

theorem Chunk.length_bytes {chunk : Chunk} (h : chunk.Writable) :
    chunk.bytes.length = 8 + chunk.body.length := by
  rw [bytes, List.length_append, List.length_append, h.1, length_encode]

/-- The first chunk is read, and the rest behind it. -/
theorem readChunks_cons {chunk : Chunk} (h : chunk.Writable) {rest : List UInt8}
    (hpad : chunk.body.length % 2 = 0 ∨ rest = []) (fuel : ℕ) :
    readChunks (fuel + 1) (chunk.bytes ++ rest) =
      (readChunks fuel rest).map (chunk :: ·) := by
  obtain ⟨name, body⟩ := chunk
  obtain ⟨hname, hsize⟩ := h
  dsimp only at hname hsize hpad
  have hbytes : Chunk.bytes ⟨name, body⟩ ++ rest =
      name ++ (encode 4 body.length ++ (body ++ rest)) := by
    rw [Chunk.bytes, List.append_assoc, List.append_assoc]
  obtain ⟨b, bs, hcons⟩ : ∃ b bs, Chunk.bytes ⟨name, body⟩ ++ rest = b :: bs := by
    rcases hnil : Chunk.bytes ⟨name, body⟩ ++ rest with - | ⟨b, bs⟩
    · have hlen := congrArg List.length hnil
      rw [hbytes, List.length_append, hname] at hlen
      simp at hlen
    · exact ⟨b, bs, rfl⟩
  have hdrop : (name ++ (encode 4 body.length ++ (body ++ rest))).drop 4 =
      encode 4 body.length ++ (body ++ rest) := by
    rw [← hname, List.drop_left]
  have hbody : (name ++ (encode 4 body.length ++ (body ++ rest))).drop 8 = body ++ rest := by
    have htwice : 8 = 4 + (encode 4 body.length).length := by rw [length_encode]
    rw [htwice, ← List.drop_drop, hdrop, List.drop_left]
  have hdecode : decode ((encode 4 body.length ++ (body ++ rest)).take 4) = body.length := by
    rw [List.take_left' (length_encode ..), decode_encode_of_lt]
    exact hsize.trans_le (by norm_num)
  have htail : (name ++ (encode 4 body.length ++ (body ++ rest))).drop
      (8 + body.length + body.length % 2) = rest := by
    rw [← List.drop_drop, ← List.drop_drop, hbody, List.drop_left]
    rcases hpad with hpad | rfl
    · rw [hpad, List.drop_zero]
    · exact List.drop_nil
  have hlen : ¬ (name ++ (encode 4 body.length ++ (body ++ rest))).length < 8 + body.length := by
    simp only [List.length_append, length_encode, hname]
    omega
  rw [hcons, readChunks, ← hcons, hbytes, hdrop, hdecode, if_neg hlen, hbody, htail]
  · simp only [List.take_left]
    rw [← hname, List.take_left]
  · simp

/-- The chunks of a file are read back. -/
theorem readChunks_flatMap {chunks : List Chunk} (h : ∀ chunk ∈ chunks, chunk.Writable)
    (hpad : Unpadded chunks) {fuel : ℕ} (hfuel : chunks.length ≤ fuel) :
    readChunks fuel (chunks.flatMap Chunk.bytes) = some chunks := by
  induction chunks generalizing fuel with
  | nil => cases fuel <;> rfl
  | cons chunk chunks ih =>
    obtain ⟨hwritable, hrest⟩ := List.forall_mem_cons.mp h
    obtain ⟨heven, hunpadded⟩ := hpad
    obtain ⟨fuel, rfl⟩ : ∃ n, fuel = n + 1 := ⟨fuel - 1, by
      rw [List.length_cons] at hfuel
      omega⟩
    have hnil : chunk.body.length % 2 = 0 ∨ chunks.flatMap Chunk.bytes = [] :=
      heven.imp_right fun hchunks => by rw [hchunks, List.flatMap_nil]
    rw [List.flatMap_cons, readChunks_cons hwritable hnil,
      ih hrest hunpadded (Nat.le_of_succ_le_succ hfuel)]
    rfl

theorem length_le_flatMap {chunks : List Chunk} (h : ∀ chunk ∈ chunks, chunk.Writable) :
    chunks.length ≤ (chunks.flatMap Chunk.bytes).length := by
  induction chunks with
  | nil => exact Nat.zero_le _
  | cons chunk chunks ih =>
    obtain ⟨hwritable, hrest⟩ := List.forall_mem_cons.mp h
    have hle := ih hrest
    rw [List.flatMap_cons, List.length_append, List.length_cons, Chunk.length_bytes hwritable]
    omega

/-- **The chunks of a file are read back**, if its size fits into four bytes. -/
theorem readFile_fileBytes {kind : List UInt8} (hkind : kind.length = 4) {chunks : List Chunk}
    (h : ∀ chunk ∈ chunks, chunk.Writable) (hpad : Unpadded chunks)
    (hsize : 4 + (chunks.flatMap Chunk.bytes).length < 2 ^ 32) :
    readFile (fileBytes kind chunks) = some (kind, chunks) := by
  have hchunks := length_le_flatMap h
  obtain ⟨rest, hrest⟩ : ∃ rest, rest = chunks.flatMap Chunk.bytes := ⟨_, rfl⟩
  have hread := @readChunks_flatMap chunks h hpad (12 + rest.length) (by rw [hrest]; omega)
  rw [← hrest] at hread hsize
  have hdecode : decode (encode 4 (4 + rest.length)) = 4 + rest.length :=
    decode_encode_of_lt (hsize.trans_le (by norm_num))
  have hlen : (fileBytes kind chunks).length = 12 + rest.length := by
    rw [fileBytes, ← hrest]
    simp only [List.length_append, length_encode, hkind]
    simp only [riff, List.length_cons, List.length_nil]
  have htake : (fileBytes kind chunks).take 4 = riff := by
    rw [fileBytes, List.append_assoc, List.append_assoc]
    exact List.take_left' rfl
  have hdrop : (fileBytes kind chunks).drop 4 =
      encode 4 (4 + rest.length) ++ (kind ++ rest) := by
    rw [fileBytes, List.append_assoc, List.append_assoc, ← hrest]
    exact List.drop_left' rfl
  have hsizebytes : ((fileBytes kind chunks).drop 4).take 4 = encode 4 (4 + rest.length) := by
    rw [hdrop]
    exact List.take_left' (length_encode ..)
  have hkindbytes : (fileBytes kind chunks).drop 8 = kind ++ rest := by
    have height : 8 = 4 + 4 := rfl
    rw [height, ← List.drop_drop, hdrop]
    exact List.drop_left' (length_encode ..)
  have hrestbytes : (fileBytes kind chunks).drop 12 = rest := by
    have htwelve : 12 = 8 + 4 := rfl
    rw [htwelve, ← List.drop_drop, hkindbytes]
    exact List.drop_left' hkind
  rw [readFile, hsizebytes, hdecode, hkindbytes, hrestbytes, hlen, hread, List.take_left' hkind,
    if_pos ⟨htake, by omega, by omega⟩]
  rfl

end Riff
