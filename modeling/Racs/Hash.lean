import Racs.Foundation.ByteBuffer

/-!
# The checksum of blocks and the hash of keys

`crc32c` is the CRC-32C of `crc32c.c`, computed a byte at a time with the table that
`crc32c_init_sw_little` builds; the ways in which `crc32c.c` computes it are in `Racs.Crc32c` and
`Racs.CrcInstruction`. `murmur3X64128` is the first word of `murmur3_x64_128` with seed zero, the
only word any caller uses. No theorem depends on what that function computes.
-/

namespace Racs

/-- `POLY`, the CRC-32C polynomial in reversed bit order. -/
def crcPoly : UInt32 := 0x82f63b78

/-- One bit of the loop body of `crc32c_init_sw_little`. -/
def crcShift (crc : UInt32) : UInt32 :=
  if crc &&& 1 = 1 then (crc >>> 1) ^^^ crcPoly else crc >>> 1

/-- The entry `crc32c_table_little[0][n]`. -/
def crc32cTable (n : UInt32) : UInt32 :=
  crcShift (crcShift (crcShift (crcShift (crcShift (crcShift (crcShift (crcShift n)))))))

/-- `crc32c`. -/
def crc32c (crc : UInt32) (buf : List UInt8) : UInt32 :=
  ~~~ buf.foldl (fun crc b => crc32cTable ((crc ^^^ b.toUInt32) &&& 0xff) ^^^ (crc >>> 8)) (~~~ crc)

/-- `rotl64`. -/
def rotl64 (x : UInt64) (r : UInt64) : UInt64 := (x <<< r) ||| (x >>> (64 - r))

/-- `fmix64`. -/
def fmix64 (k : UInt64) : UInt64 :=
  let k := k ^^^ (k >>> 33)
  let k := k * 0xff51afd7ed558ccd
  let k := k ^^^ (k >>> 33)
  let k := k * 0xc4ceb9fe1a85ec53
  k ^^^ (k >>> 33)

/-- The constant `c1` of `murmur3_x64_128`. -/
def murmurC1 : UInt64 := 0x87c37b91114253d5

/-- The constant `c2` of `murmur3_x64_128`. -/
def murmurC2 : UInt64 := 0x4cf5ad432745937f

/-- The loop over the blocks of sixteen bytes of `murmur3_x64_128`, then its tail: a shorter list
is the tail, whose missing bytes contribute nothing to `k1` and `k2`. -/
def murmurBlocks : ℕ → UInt64 × UInt64 → List UInt8 → UInt64 × UInt64
  | 0, (h1, h2), tail =>
    let k1 := UInt64.ofNat (ByteBuffer.decode (tail.take 8))
    let k2 := UInt64.ofNat (ByteBuffer.decode (tail.drop 8))
    let h2 := if 8 < tail.length then h2 ^^^ (rotl64 (k2 * murmurC2) 33 * murmurC1) else h2
    let h1 := if 0 < tail.length then h1 ^^^ (rotl64 (k1 * murmurC1) 31 * murmurC2) else h1
    (h1, h2)
  | n + 1, (h1, h2), data =>
    let k1 := UInt64.ofNat (ByteBuffer.decode (data.take 8))
    let k2 := UInt64.ofNat (ByteBuffer.decode ((data.drop 8).take 8))
    let h1 := h1 ^^^ (rotl64 (k1 * murmurC1) 31 * murmurC2)
    let h1 := (rotl64 h1 27 + h2) * 5 + 0x52dce729
    let h2 := h2 ^^^ (rotl64 (k2 * murmurC2) 33 * murmurC1)
    let h2 := (rotl64 h2 31 + h1) * 5 + 0x38495ab5
    murmurBlocks n (h1, h2) (data.drop 16)

/-- The word `hash[0]` that `murmur3_x64_128(key, len, 0, hash)` stores. -/
def murmur3X64128 (key : List UInt8) : UInt64 :=
  let len := UInt64.ofNat key.length
  let (h1, h2) := murmurBlocks (key.length / 16) (0, 0) key
  let h1 := h1 ^^^ len
  let h2 := h2 ^^^ len
  let h1 := h1 + h2
  let h2 := h2 + h1
  fmix64 h1 + fmix64 h2

end Racs
