import Racs.Encoders
import Racs.Ops
import Racs.Range
import Racs.Scm
import Racs.Stream

/-!
# Commands

A command reads its arguments from one buffer and uses the other both for its input, which an
earlier command left there, and for its reply (`command.c`). The commands PING to EVAL clear that
buffer first. The others read a vector of samples from it; all their checks clear it before they
pack an error, except the check of the number of arguments.

`Backend` holds what the commands use of the clock, the cache, the C library, the Scheme interpreter
and the encoders. What a range finds in the cache is any contents; `Racs.CachedReads` is about the
contents that the cache comes to have.

## Main definitions

* `Racs.CommandDef`, `Racs.CommandDef.run` — a command, and what all commands have in common.
* `Racs.Backend`, `Racs.CommandName`, `Racs.command` — the commands of `command.c`.
-/

namespace Racs

open MessagePack

/-! ### What commands have in common -/

/-- Code that may return an error early, or is undefined. -/
abbrev Checked (α : Type) := ExceptT String Option α

/-- Code that is undefined or does not return. -/
def undefined {α : Type} : Checked α := ExceptT.mk none

variable {δ : Type}

/-- The part of a command behind the checks of its arguments. -/
inductive CommandBody (δ : Type)
  /-- It packs a reply into the buffer that was cleared. -/
  | plain (f : List (Item δ) → Store → Bool → Option (Reply δ × Store))
  /-- It packs a reply to the samples that the buffer held, or an error. -/
  | vector (f : List (Item δ) → List Int32 → Bool → Checked (Reply δ))

/-- A command: its name in errors, the types of its arguments with the errors for arguments of
another type, and its body. -/
structure CommandDef (δ : Type) where
  name : String
  args : List (ObjectType × String)
  body : CommandBody δ

/-- `racs_validate_num_args`, which leaves the buffer as it is, and the checks
`racs_validate_arg_type`, which clear it. -/
def validateArgs (out : Buffer δ) (name : String) (types : List (ObjectType × String))
    (args : List (Item δ)) : Option (Reply δ) :=
  if args.length ≠ types.length then
    some (packInvalidNumArgs out (ascii name) types.length args.length)
  else ((args.zip types).find? fun p => p.1.type ≠ p.2.1).map fun p =>
    packError [] (ascii name) (ascii p.2.2)

/-- `racs_validate_not_null`, `racs_validate_s32v` and `racs_unpack_s32v`. -/
def validateS32v : Object δ → Checked (List Int32)
  | .nil => throw "Missing input data."
  | .array (.str type :: items) =>
    if type ≠ RacsType.s32vec.string then throw "Invalid input type. Expected: int32 array"
    else match items with
      | .bin data :: _ => pure (s32Words data)
      | _ => undefined
  | _ => undefined

/-- The buffer after code that may fail: an error is packed into the cleared buffer. -/
def finish (name : String) (reply : Checked (Reply δ)) : Option (Reply δ) :=
  reply.run.map fun
    | .error message => packError [] (ascii name) (ascii message)
    | .ok r => r

/-- The call of a command on the buffer of its arguments, which is always an array, and the buffer
of its input and reply. -/
def CommandDef.run (c : CommandDef δ) (inBuf out : Buffer δ) (s : Store) (isFinal : Bool) :
    Option (Reply δ × Store) :=
  match unpackNext inBuf, c.body with
  | .array args, .plain f =>
    match validateArgs [] c.name c.args args with
    | some reply => some (reply, s)
    | none => f args s isFinal
  | .array args, .vector f =>
    match validateArgs out c.name c.args args with
    | some reply => some (reply, s)
    | none => (finish c.name do f args (← validateS32v (unpackNext out)) isFinal).map (·, s)
  | _, _ => none

/-! ### The commands -/

variable (P : Platform)

/-- What the commands call. -/
structure Backend where
  /-- `racs_time_now`. -/
  timeNow : Store → Int64
  /-- Whether a name matches a pattern, by `fnmatch` with `FNM_IGNORECASE`. -/
  fnmatch : List UInt8 → List UInt8 → Bool
  /-- The cache that a range finds. -/
  scache : Store → Cache
  /-- Whether an allocation of no bytes returns a pointer. -/
  allocEmpty : Bool
  /-- What RANGE replies where it accesses memory outside its vector, if it returns. -/
  overread : Pcm → Bool → Option RangeReply
  /-- The value of an expression, `#f` when an exception was raised, and the text on the error port;
  none when the evaluation does not return. -/
  eval : Store → List UInt8 → Option (Scm P.Double × List UInt8)
  /-- Whether the elements of an empty vector are the null pointer. -/
  nullElements : Bool
  /-- The encoders for MP3 and Ogg files. -/
  codecs : Codecs

variable {P} (b : Backend P)

/-- `racs_streams_list`. -/
def Backend.streamsList (s : Store) (pattern : List UInt8) : List (List UInt8) :=
  metadataStreams P.dataDir b.fnmatch s.disk.metadata pattern

/-- `racs_range`, undefined, or none when the stream is not found. -/
def Backend.range (s : Store) (streamId : List UInt8) (start duration : P.Double) :
    Option (Option Pcm) :=
  (Racs.range P s.disk.metadata s.disk.sstables s.mmt (b.scache s) streamId start duration).map
    (Option.map Prod.snd)

/-- `racs_encode_pcm`. -/
def Backend.encodePcm : Encode → List Int32 → ℕ → ℕ → List UInt8 → Option (List UInt8) :=
  Racs.encodePcm b.codecs

/-- A text as the name of a stream. -/
def streamName (s : List UInt8) : { id : List UInt8 // 0 ∉ id } :=
  ⟨cString s, fun h => by simpa using List.mem_takeWhile_imp h⟩

/-- `racs_command_ping`. -/
def commandPing : CommandDef P.Double where
  name := "PING"
  args := []
  body := .plain fun _ s _ => some (packStr [] (ascii "PONG"), s)

/-- `racs_command_streamcreate`. -/
def commandStreamCreate : CommandDef P.Double where
  name := "CREATE"
  args := [(.str, "Invalid type at arg 1. Expected: string"),
    (.positiveInteger, "Invalid type at arg 2. Expected: positive int"),
    (.positiveInteger, "Invalid type at arg 3. Expected: positive int"),
    (.positiveInteger, "Invalid type at arg 4. Expected: positive int")]
  body := .plain fun args s _ => match args with
    | [.str streamId, .int sampleRate, .int channels, .int bitDepth] =>
      let channels := channels.toUInt64.toUInt16
      let bitDepth := bitDepth.toUInt64.toUInt16
      if bitDepth ≠ 16 ∧ bitDepth ≠ 24 then
        some (packError [] (ascii "CREATE")
          (ascii "Invalid bit-depth. Only 16- and 24-bit are supported."), s)
      else if channels ≠ 1 ∧ channels ≠ 2 then
        some (packError [] (ascii "CREATE")
          (ascii "Invalid number of channels. Must be mono or stereo."), s)
      else
        let (md, created) := streamCreate s.disk.metadata (streamName streamId)
          sampleRate.toUInt64.toUInt32 channels bitDepth (b.timeNow s)
        let s := { s with disk := { s.disk with metadata := md } }
        if created then some (packNullWithStatusOk [], s)
        else some (packError [] (ascii "CREATE") (ascii "Stream already exist."), s)
    | _ => none

/-- `racs_command_streamlist`. -/
def commandStreamList : CommandDef P.Double where
  name := "LIST"
  args := [(.str, "Invalid type at arg 1. Expected string")]
  body := .plain fun args s _ => match args with
    | [.str pattern] => some (packStreams [] (b.streamsList s (cString pattern)), s)
    | _ => none

/-- `racs_command_streamopen`. -/
def commandStreamOpen : CommandDef P.Double where
  name := "OPEN"
  args := [(.str, "Invalid type at arg 1. Expected string")]
  body := .plain fun args s _ => match args with
    | [.str streamId] =>
      let (kv, opened) := streamOpen s.kv (racsHash (cString streamId))
      if opened then some (packNullWithStatusOk [], { s with kv := kv })
      else some (packError [] (ascii "OPEN") (ascii "Stream is already open"), s)
    | _ => none

/-- `racs_command_streamclose`. -/
def commandStreamClose : CommandDef P.Double where
  name := "CLOSE"
  args := [(.str, "Invalid type at arg 1. Expected string")]
  body := .plain fun args s _ => match args with
    | [.str streamId] =>
      let (kv, closed) := streamClose s.kv (racsHash (cString streamId))
      if closed then some (packNullWithStatusOk [], { s with kv := kv })
      else some (packError [] (ascii "CLOSE") (ascii "Stream is not open"), s)
    | _ => none

/-- `racs_metadata_attr`. -/
def metadataAttr (md : Metadata) (attr : List UInt8) : Int64 :=
  if attr = ascii "sample_rate" then md.sampleRate.toUInt64.toInt64
  else if attr = ascii "channels" then md.channels.toUInt64.toInt64
  else if attr = ascii "bit_depth" then md.bitDepth.toUInt64.toInt64
  else if attr = ascii "ref" then md.ref
  else 0

/-- `racs_command_metadata`. -/
def commandMetadata : CommandDef P.Double where
  name := "META"
  args := [(.str, "Invalid type at arg 1. Expected string"),
    (.str, "Invalid type at arg 2. Expected string")]
  body := .plain fun args s _ => match args with
    | [.str streamId, .str attr] =>
      let hash := racsHash (cString streamId)
      match metadataGet s.disk.metadata hash with
      | none => some (packError [] (ascii "META") (ascii "The stream-id does not exist."), s)
      | some md =>
        let value := if cString attr = ascii "size" then (offsetsGet s.offsets hash).toInt64
          else metadataAttr md (cString attr)
        if value = 0 then
          some (packError [] (ascii "META") (ascii "Invalid metadata attribute."), s)
        else some (packInt64 [] value, s)
    | _ => none

/-- `racs_scm_safe_eval_with_error_handling` and the packing of the value; the conversion of the
error may raise an exception itself. -/
def evalReply (s : Store) (expr : List UInt8) (isFinal : Bool) : Option (Reply P.Double) :=
  (unescapeSingleQuotes expr).bind fun expr =>
  (b.eval s expr).bind fun
    | (.bool false, error) => (scmToLocaleString (.string error : Scm P.Double)).toOption.map
      (packError [] (ascii "EVAL"))
    | (x, _) => scmPack b.nullElements [] x isFinal

/-- `racs_command_eval`. -/
def commandEval : CommandDef P.Double where
  name := "EVAL"
  args := [(.str, "Invalid type at arg 1. Expected string")]
  body := .plain fun args s isFinal => match args with
    | [.str expr] => (evalReply b s (cString expr) isFinal).map (·, s)
    | _ => none

/-- What RANGE packs of the blocks that it collected. -/
def rangeReply (pcm : Pcm) (isFinal : Bool) : Option RangeReply :=
  (commandRange b.allocEmpty pcm isFinal).or (b.overread pcm isFinal)

/-- `racs_command_range`. -/
def commandRangeDef : CommandDef P.Double where
  name := "RANGE"
  args := [(.str, "Invalid type at arg 1. Expected: string"),
    (.float64, "Invalid type at arg 2. Expected: float"),
    (.float64, "Invalid type at arg 3. Expected: float")]
  body := .plain fun args s isFinal => match args with
    | [.str streamId, .float start, .float duration] =>
      (b.range s (cString streamId) start duration).bind fun
        | none => some (packError [] (ascii "RANGE") (ascii "The stream-id does not exist"), s)
        | some pcm => (rangeReply b pcm isFinal).map fun
          | .error message => (packError [] (ascii "RANGE") (ascii message), s)
          | .s32v samples => (packS32v [] samples, s)
    | _ => none

/-- The format in the header of a vector. -/
def Audio.encode (audio : Audio) : Encode :=
  ⟨audio.channels, audio.sampleRate.toUInt32, audio.format.toUInt32.toUInt16⟩

/-- The size of the buffer that is allocated for the encoded audio. -/
def Audio.encodeSize (audio : Audio) : ℕ :=
  audio.samples.length * (audio.encode.bitDepth.toNat / 8) + 44

/-- The part of `racs_command_encode` behind the unpacking; undefined when there are no channels to
divide by. -/
def encodeAudio (audio : Audio) (mimeType : List UInt8) : Checked (Reply P.Double) :=
  if audio.samples = [] then throw "Missing input data."
  else if audio.channels = 0 then undefined
  else match b.encodePcm audio.encode audio.samples
      (audio.samples.length / audio.channels.toNat) audio.encodeSize mimeType with
    | none => undefined
    | some [] => throw "Unsupported format"
    | some out => pure (packU8v [] out)

/-- `racs_command_encode`; undefined for a vector without header, whose size without the header
wraps around. -/
def commandEncode : CommandDef P.Double where
  name := "ENCODE"
  args := [(.str, "Invalid type at arg 1. Expected: string")]
  body := .vector fun args samples _ => match args, Audio.ofWords samples with
    | [.str mimeType], some audio => encodeAudio b audio (cString mimeType)
    | _, _ => undefined

/-- `racs_command_shutdown`, which does not return. -/
def commandShutdown : CommandDef P.Double where
  name := "SHUTDOWN"
  args := []
  body := .plain fun _ _ _ => none

/-- The samples with their header, or an error. -/
def audioInput (samples : List Int32) : Checked Audio :=
  match Audio.ofWords samples with
  | none => throw "Missing input data."
  | some audio => pure audio

/-- The result of an operation is packed, without its header in the last stage; the null pointer
cannot be. -/
def packAudio (out : Option (Option Audio)) (isFinal : Bool) : Checked (Reply P.Double) :=
  match out with
  | some (some audio) => pure (packS32v [] (if isFinal then audio.samples else audio.words))
  | _ => undefined

/-- `racs_command_gain`. -/
def commandGain : CommandDef P.Double where
  name := "GAIN"
  args := [(.float64, "Invalid type at arg 1. Expected: float")]
  body := .vector fun args samples isFinal => match args with
    | [.float gain] => do packAudio (opsGain P (← audioInput samples) gain) isFinal
    | _ => undefined

/-- `racs_command_trim`. -/
def commandTrim : CommandDef P.Double where
  name := "TRIM"
  args := [(.float64, "Invalid type at arg 1. Expected: float"),
    (.float64, "Invalid type at arg 1. Expected: float")]
  body := .vector fun args samples isFinal => match args with
    | [.float left, .float right] => do
      packAudio (opsTrim P (← audioInput samples) left right) isFinal
    | _ => undefined

/-- `racs_command_fade`. -/
def commandFade : CommandDef P.Double where
  name := "FADE"
  args := [(.float64, "Invalid type at arg 1. Expected: float"),
    (.float64, "Invalid type at arg 1. Expected: float")]
  body := .vector fun args samples isFinal => match args with
    | [.float fadeIn, .float fadeOut] => do
      packAudio (opsFade P (← audioInput samples) fadeIn fadeOut) isFinal
    | _ => undefined

/-- `racs_command_pan`. -/
def commandPan : CommandDef P.Double where
  name := "PAN"
  args := [(.float64, "Invalid type at arg 1. Expected: float")]
  body := .vector fun args samples isFinal => match args with
    | [.float pan] => do
      if P.lt pan (P.ofInt (-1)) ∨ P.lt (P.ofInt 1) pan then
        throw "Pan must be between -1.0 and +1.0."
      packAudio (opsPan P (← audioInput samples) pan) isFinal
    | _ => undefined

/-- `racs_command_pad`. -/
def commandPad : CommandDef P.Double where
  name := "PAD"
  args := [(.float64, "Invalid type at arg 1. Expected: float"),
    (.float64, "Invalid type at arg 2. Expected: float")]
  body := .vector fun args samples isFinal => match args with
    | [.float left, .float right] => do
      packAudio (opsPad P (← audioInput samples) left right) isFinal
    | _ => undefined

/-- `racs_command_clip`; the bounds are cut to 32 bits. -/
def commandClip : CommandDef P.Double where
  name := "CLIP"
  args := [(.negativeInteger, "Invalid type at arg 1. Expected: negative int"),
    (.positiveInteger, "Invalid type at arg 2. Expected: positive int")]
  body := .vector fun args samples isFinal => match args with
    | [.int min, .int max] => do
      packAudio (opsClip P (← audioInput samples) min.toInt32 max.toInt32) isFinal
    | _ => undefined

/-- `racs_command_split`; the channel is cut to 16 bits. -/
def commandSplit : CommandDef P.Double where
  name := "SPLIT"
  args := [(.positiveInteger, "Invalid type at arg 2. Expected: positive int")]
  body := .vector fun args samples isFinal => match args with
    | [.int channel] => do
      let channel := channel.toUInt64.toUInt16
      let audio ← audioInput samples
      if audio.channels ≠ 2 then throw "Invalid number of channels."
      if 1 < channel then throw "Invalid channel number."
      packAudio (opsSplit P audio channel) isFinal
    | _ => undefined

/-- The functions that `racs_exec_init` registers. -/
inductive CommandName
  | ping
  | create
  | metadata
  | openStream
  | closeStream
  | list
  | range
  | eval
  | encode
  | shutdown
  | gain
  | trim
  | fade
  | pan
  | pad
  | clip
  | split
  deriving DecidableEq

/-- The command with a name. -/
def command : CommandName → CommandDef P.Double
  | .ping => commandPing
  | .create => commandStreamCreate b
  | .metadata => commandMetadata
  | .openStream => commandStreamOpen
  | .closeStream => commandStreamClose
  | .list => commandStreamList b
  | .range => commandRangeDef b
  | .eval => commandEval b
  | .encode => commandEncode b
  | .shutdown => commandShutdown
  | .gain => commandGain
  | .trim => commandTrim
  | .fade => commandFade
  | .pan => commandPan
  | .pad => commandPad
  | .clip => commandClip
  | .split => commandSplit

end Racs
