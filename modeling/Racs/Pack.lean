import Racs.Foundation.MessagePack
import Racs.Bytes

/-!
# Replies

The functions of `pack.c` append one reply to a buffer: an array whose first element names the type
of the reply, and whose other elements are its value. A reply of the type `error` comes with the
status of a failure. The buffers hold what was packed, so unpacking never finds bytes that are
malformed, and the branch of `racs_parse_buf` for them is left out. A string is shorter than 2^32
bytes.

## Main definitions

* `Racs.Status`, `Racs.Reply`, `Racs.RacsType`, the functions `Racs.pack…`.
* `Racs.Truthful` — a reply is one object, and an error exactly when the status says so.
* `Racs.Answers` — what a stage may leave behind, and `Racs.Tagged`, what the next one finds.
* `Racs.s32Bytes`, `Racs.s32Words` — the data of a vector of samples.
-/

namespace Racs

open MessagePack ByteBuffer

/-- The bytes of a text. -/
def ascii (s : String) : List UInt8 := s.toList.map fun c => c.toNat.toUInt8

/-- `racs_status`. -/
inductive Status
  | ok
  | notFound
  | error
  deriving DecidableEq

/-- `racs_type`. -/
inductive RacsType
  | str
  | int
  | float
  | list
  | null
  | error
  | bool
  | u8vec
  | s8vec
  | u16vec
  | s16vec
  | u32vec
  | s32vec
  | f32vec
  | c64vec
  deriving DecidableEq

/-- `racs_type_string`. -/
def RacsType.string : RacsType → List UInt8
  | .str => ascii "string"
  | .int => ascii "int"
  | .float => ascii "float"
  | .list => ascii "list"
  | .null => ascii "null"
  | .error => ascii "error"
  | .bool => ascii "bool"
  | .u8vec => ascii "u8v"
  | .s8vec => ascii "s8v"
  | .u16vec => ascii "u16v"
  | .s16vec => ascii "s16v"
  | .u32vec => ascii "u32v"
  | .s32vec => ascii "s32v"
  | .f32vec => ascii "f32v"
  | .c64vec => ascii "c64v"

variable {δ : Type}

/-- `msgpack_sbuffer`. -/
abbrev Buffer (δ : Type) := List (Item δ)

/-- What a command returns, and the buffer as it leaves it. -/
abbrev Reply (δ : Type) := Status × Buffer δ

/-! ### Packing -/

/-- `racs_pack_type`. -/
def packType (type : RacsType) : Item δ := .str type.string

/-- `racs_pack_null_with_status_ok`. -/
def packNullWithStatusOk (pk : Buffer δ) : Reply δ := (.ok, pk ++ [.array 1, packType .null])

/-- `racs_pack_error`. -/
def packError (pk : Buffer δ) (command message : List UInt8) : Reply δ :=
  (.error, pk ++ [.array 2, packType .error, .str (command ++ ascii ": " ++ message)])

/-- `racs_pack_invalid_num_args`. -/
def packInvalidNumArgs (pk : Buffer δ) (command : List UInt8) (expected actual : ℕ) : Reply δ :=
  packError pk command (ascii s!"Expected {expected} args, but got {actual}")

/-- `racs_pack_str`. -/
def packStr (pk : Buffer δ) (s : List UInt8) : Reply δ :=
  (.ok, pk ++ [.array 2, packType .str, .str s])

/-- `racs_pack_int64`. -/
def packInt64 (pk : Buffer δ) (d : Int64) : Reply δ :=
  (.ok, pk ++ [.array 2, packType .int, .int d])

/-- `racs_pack_float64`. -/
def packFloat64 (pk : Buffer δ) (d : δ) : Reply δ :=
  (.ok, pk ++ [.array 2, packType .float, .float d])

/-- `racs_pack_bool`. -/
def packBool (pk : Buffer δ) (d : Bool) : Reply δ :=
  (.ok, pk ++ [.array 2, packType .bool, .bool d])

/-- The functions `racs_pack_s8v` to `racs_pack_c64v`: the bytes of a vector. -/
def packVec (pk : Buffer δ) (type : RacsType) (data : List UInt8) : Reply δ :=
  (.ok, pk ++ .array 2 :: packType type :: binItems data)

/-- `racs_pack_u8v`. -/
def packU8v (pk : Buffer δ) (data : List UInt8) : Reply δ := packVec pk .u8vec data

/-- The bytes of 32-bit samples. -/
def s32Bytes (samples : List Int32) : List UInt8 :=
  samples.flatMap fun x => writeUint32 x.toUInt32

/-- `racs_pack_s32v`. -/
def packS32v (pk : Buffer δ) (samples : List Int32) : Reply δ :=
  packVec pk .s32vec (s32Bytes samples)

/-- `racs_pack_streams`. -/
def packStreams (pk : Buffer δ) (streams : List (List UInt8)) : Reply δ :=
  (.ok, pk ++ .array (streams.length + 1) :: packType .list :: streams.map .str)

/-- `racs_unpack_s32v` and `racs_unpack_s32v_size`: the samples in the bytes of a binary. -/
def s32Words : List UInt8 → List Int32
  | a :: b :: c :: d :: rest =>
    (UInt32.ofNat (decode [a, b, c, d])).toInt32 :: s32Words rest
  | _ => []

/-- `racs_unpack_u8v`; undefined for an element that is not a binary. The function returns a pointer
into the message: the data of a binary stand for what is in memory from there on. -/
def unpackU8v (items : List (Item δ)) (n : ℕ) : Option (List UInt8) :=
  match items[n]? with
  | some (.bin data) => some data
  | _ => none

@[simp] theorem length_s32Bytes (samples : List Int32) :
    (s32Bytes samples).length = 4 * samples.length := by
  induction samples with
  | nil => rfl
  | cons x samples ih =>
    rw [s32Bytes, List.flatMap_cons, List.length_append, length_writeUint32, ← s32Bytes, ih,
      List.length_cons]
    ring

/-- The samples are read back from their bytes. -/
theorem s32Words_s32Bytes (samples : List Int32) : s32Words (s32Bytes samples) = samples := by
  induction samples with
  | nil => rfl
  | cons x samples ih =>
    obtain ⟨a, b, c, d, hbytes⟩ : ∃ a b c d, writeUint32 x.toUInt32 = [a, b, c, d] :=
      ⟨_, _, _, _, rfl⟩
    have hdecode : UInt32.ofNat (decode [a, b, c, d]) = x.toUInt32 := by
      rw [← hbytes, writeUint32, decode_encode_of_lt x.toUInt32.toNat_lt, UInt32.ofNat_toNat]
    have happend : s32Bytes (x :: samples) = a :: b :: c :: d :: s32Bytes samples := by
      rw [s32Bytes, List.flatMap_cons, hbytes]
      rfl
    rw [happend, s32Words, hdecode, ih, Int32.toInt32_toUInt32]

/-! ### What a reply says -/

/-- The error object. -/
def IsErrorObject (out : Buffer δ) : Prop :=
  ∃ text, out = [.array 2, packType .error, .str text]

/-- The buffer holds exactly one object, and it is the error object exactly when the status is not
OK. -/
def Truthful (reply : Reply δ) : Prop :=
  OneObject reply.2 ∧ (IsErrorObject reply.2 ↔ reply.1 ≠ .ok)

theorem truthful_packError (command message : List UInt8) :
    Truthful (packError ([] : Buffer δ) command message) :=
  ⟨oneObject_array (by simp [packType, Item.isScalar]), fun _ => by simp [packError],
    fun _ => ⟨_, rfl⟩⟩

/-- **An error behind other output** is not the only object. -/
theorem not_truthful_packError {out : Buffer δ} (h : out ≠ []) (command message : List UInt8) :
    ¬ Truthful (packError out command message) := fun htruth =>
  not_oneObject_append_array h 2 _ htruth.1

theorem RacsType.string_ne_error {type : RacsType} (h : type ≠ .error) :
    type.string ≠ RacsType.error.string := by
  cases type <;> first | exact absurd rfl h | decide

/-- A reply with a value of a type that is not `error`. -/
theorem truthful_value {type : RacsType} (htype : type ≠ .error) {items : List (Item δ)}
    (h : ∀ i ∈ items, i.isScalar = true) :
    Truthful (Status.ok, .array (items.length + 1) :: packType type :: items) := by
  refine ⟨@oneObject_array _ (packType type :: items) ?_, ?_⟩
  · exact List.forall_mem_cons.mpr ⟨rfl, h⟩
  · refine iff_of_false ?_ (fun hne => hne rfl)
    rintro ⟨text, heq⟩
    have hstring : type.string = RacsType.error.string := by
      have hhead := (List.cons.inj (List.cons.inj heq).2).1
      exact Item.str.inj hhead
    exact type.string_ne_error htype hstring

theorem truthful_packVec {type : RacsType} (htype : type ≠ .error) (data : List UInt8) :
    Truthful (packVec ([] : Buffer δ) type data) ↔ data.length < 2 ^ 32 := by
  by_cases h : data.length < 2 ^ 32
  · refine iff_of_true ?_ h
    rw [packVec, binItems_of_lt h]
    exact truthful_value htype (by simp [Item.isScalar])
  · exact iff_of_false (fun htruth => not_oneObject_binItems h htruth.1) h

/-- A stage of a pipeline returns, and if it is the last one that is executed, because it fails or
because no other follows, its reply is truthful. -/
def Answers (isFinal : Bool) (reply : Option (Reply δ)) : Prop :=
  ∃ r, reply = some r ∧ (r.1 ≠ .ok ∨ isFinal = true → Truthful r)

/-- A buffer starts with an object whose first element names its type, and whose second element is a
binary when it is a vector of samples. -/
def Tagged (out : Buffer δ) : Prop :=
  ∃ type items rest, out = .array (items.length + 1) :: packType type :: (items ++ rest) ∧
    (type = .s32vec → ∃ data, items = [.bin data])

theorem Tagged.unpackNext {out : Buffer δ} (h : Tagged out) :
    ∃ type items, unpackNext out = .array (packType type :: items) ∧
      (type = .s32vec → ∃ data, items = [.bin data]) := by
  obtain ⟨type, items, rest, rfl, hvec⟩ := h
  exact ⟨type, items, unpackNext_array (packType type :: items) rest, hvec⟩

theorem tagged_value {type : RacsType} (htype : type ≠ .s32vec) (items : List (Item δ)) :
    Tagged (.array (items.length + 1) :: packType type :: items) :=
  ⟨type, items, [], by rw [List.append_nil], fun h => absurd h htype⟩

theorem tagged_packVec (type : RacsType) (data : List UInt8) :
    Tagged (packVec ([] : Buffer δ) type data).2 := by
  obtain ⟨data', rest, hitems⟩ := @exists_binItems δ data
  refine ⟨type, [.bin data'], rest, ?_, fun _ => ⟨data', rfl⟩⟩
  rw [packVec, hitems]
  rfl

/-- What is known of the result of a stage: when it is a good answer, and what it hands on. -/
structure Specified (isFinal : Bool) (reply : Option (Reply δ)) (C : Prop) : Prop where
  answers_iff : Answers isFinal reply ↔ C
  tagged : ∀ r, reply = some r → r.1 = .ok → Tagged r.2

namespace Specified

variable {isFinal : Bool} {C D : Prop}

theorem congr {reply : Option (Reply δ)} (h : Specified isFinal reply C) (hCD : C ↔ D) :
    Specified isFinal reply D := ⟨h.answers_iff.trans hCD, h.tagged⟩

/-- A stage that does not return. -/
theorem undefined (hC : ¬ C) : Specified isFinal (none : Option (Reply δ)) C := by
  refine ⟨iff_of_false ?_ hC, fun r hr => by cases hr⟩
  rintro ⟨r, hr, -⟩
  cases hr

/-- A stage that clears the buffer and fails. -/
theorem error (command message : List UInt8) (hC : C) :
    Specified isFinal (some (packError ([] : Buffer δ) command message)) C := by
  refine ⟨iff_of_true ⟨_, rfl, fun _ => truthful_packError command message⟩ hC, ?_⟩
  rintro r hr hok
  obtain rfl := Option.some.inj hr
  cases hok

/-- A stage that fails behind other output. -/
theorem error_behind {out : Buffer δ} (hout : out ≠ []) (command message : List UInt8)
    (hC : ¬ C) : Specified isFinal (some (packError out command message)) C := by
  refine ⟨iff_of_false ?_ hC, ?_⟩
  · rintro ⟨r, hr, htruth⟩
    obtain rfl := Option.some.inj hr
    exact not_truthful_packError hout command message (htruth (.inl Status.noConfusion))
  · rintro r hr hok
    obtain rfl := Option.some.inj hr
    cases hok

/-- A stage that replies with a value other than a vector of samples. -/
theorem value (type : RacsType) (htype : type ≠ .error) (hvec : type ≠ .s32vec)
    (items : List (Item δ)) (hitems : ∀ i ∈ items, i.isScalar = true) (hC : C) :
    Specified isFinal
      (some (Status.ok, .array (items.length + 1) :: packType type :: items)) C := by
  refine ⟨iff_of_true ⟨_, rfl, fun _ => truthful_value htype hitems⟩ hC, ?_⟩
  rintro r hr -
  obtain rfl := Option.some.inj hr
  exact tagged_value hvec items

/-- A stage that replies with one scalar. -/
theorem scalar (type : RacsType) (htype : type ≠ .error) (hvec : type ≠ .s32vec) (i : Item δ)
    (hi : i.isScalar = true) (hC : C) :
    Specified isFinal (some (Status.ok, [.array 2, packType type, i])) C :=
  value type htype hvec [i] (List.forall_mem_singleton.mpr hi) hC

/-- A stage that replies with nothing but OK. -/
theorem null (hC : C) : Specified isFinal (some (packNullWithStatusOk ([] : Buffer δ))) C :=
  value .null (by decide) (by decide) [] (fun _ h => absurd h List.not_mem_nil) hC

/-- A stage that replies with the bytes of a vector. -/
theorem vec {type : RacsType} (htype : type ≠ .error) (data : List UInt8) :
    Specified isFinal (some (packVec ([] : Buffer δ) type data))
      (isFinal = true → data.length < 2 ^ 32) := by
  refine ⟨⟨?_, fun h => ⟨_, rfl, fun hlast => ?_⟩⟩, ?_⟩
  · rintro ⟨r, hr, htruth⟩ hfinal
    obtain rfl := Option.some.inj hr
    exact (truthful_packVec htype data).mp (htruth (.inr hfinal))
  · exact (truthful_packVec htype data).mpr (h (hlast.resolve_left fun hne => hne rfl))
  · rintro r hr -
    obtain rfl := Option.some.inj hr
    exact tagged_packVec type data

end Specified

end Racs
