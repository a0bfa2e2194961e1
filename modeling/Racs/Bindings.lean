import Racs.Stages

/-!
# Scheme bindings

The operations on audio are also procedures of the Scheme interpreter (`scm_bindings.c`). Each has
its own checks, made in another order and not all the same as those of the command of the operation:
`pan` asks for two channels, integers must fit into the type that the operation takes, `encode`
wants two samples and does not notice when nothing was encoded.

An exception of a procedure is modelled as an error; its text is part of the model although the
text on the error port, which the reply quotes, also shows the other arguments of the exception.

## Main definitions

* `Racs.scmGain` to `Racs.scmSplit`, `Racs.scmEncode` — the procedures.
* `Racs.Stage.call` — the procedure that corresponds to a stage, with the same arguments.
-/

namespace Racs

variable {P : Platform}

/-! ### Conversions of arguments -/

/-- `scm_to_double`. -/
def scmToDouble (P : Platform) : Scm P.Double → Checked P.Double
  | .real x _ => pure x
  | .int z => pure (P.ofInt z)
  | _ => throw "Wrong type argument"

/-- The conversions of exact integers, which check the range of the type. -/
def scmToInt {δ α : Type} (low high : ℤ) (convert : ℤ → α) : Scm δ → Checked α
  | .int z => if low ≤ z ∧ z < high then pure (convert z) else throw "Value out of range"
  | _ => throw "Wrong type argument"

/-- `scm_to_int32`. -/
def scmToInt32 {δ : Type} : Scm δ → Checked Int32 := scmToInt (-2 ^ 31) (2 ^ 31) Int32.ofInt

/-- `scm_to_uint16`. -/
def scmToUint16 {δ : Type} : Scm δ → Checked UInt16 :=
  scmToInt 0 (2 ^ 16) fun z => UInt16.ofNat z.toNat

/-- `scm_array_get_handle` and `scm_array_handle_s32_elements`. -/
def scmS32Elements {δ : Type} : Scm δ → Checked (List Int32)
  | .s32vector data => pure data
  | _ => throw "Wrong type argument"

/-- The vector argument of a procedure. -/
def scmAudio {δ : Type} (input : Scm δ) : Checked Audio := do
  audioInput (← scmS32Elements input)

/-- `scm_take_s32vector` of the result of an operation; the null pointer is no vector. -/
def scmTakeS32Vector {δ : Type} (out : Option (Option Audio)) : Checked (Scm δ) := do
  return .s32vector (← opResult out).words

/-! ### The procedures -/

/-- `racs_scm_gain`. -/
def scmGain (P : Platform) (input gain : Scm P.Double) : Checked (Scm P.Double) := do
  let gain ← scmToDouble P gain
  scmTakeS32Vector (opsGain P (← scmAudio input) gain)

/-- `racs_scm_trim`. -/
def scmTrim (P : Platform) (input left right : Scm P.Double) : Checked (Scm P.Double) := do
  let left ← scmToDouble P left
  let right ← scmToDouble P right
  scmTakeS32Vector (opsTrim P (← scmAudio input) left right)

/-- `racs_scm_fade`. -/
def scmFade (P : Platform) (input fadeIn fadeOut : Scm P.Double) : Checked (Scm P.Double) := do
  let fadeIn ← scmToDouble P fadeIn
  let fadeOut ← scmToDouble P fadeOut
  scmTakeS32Vector (opsFade P (← scmAudio input) fadeIn fadeOut)

/-- `racs_scm_pan`. -/
def scmPan (P : Platform) (input pan : Scm P.Double) : Checked (Scm P.Double) := do
  let pan ← scmToDouble P pan
  if P.lt pan (P.ofInt (-1)) ∨ P.lt (P.ofInt 1) pan then
    throw "Pan must be between -1.0 and +1.0"
  let audio ← scmAudio input
  if audio.channels < 2 then throw "Invalid number of channels."
  scmTakeS32Vector (opsPan P audio pan)

/-- `racs_scm_pad`. -/
def scmPad (P : Platform) (input left right : Scm P.Double) : Checked (Scm P.Double) := do
  let left ← scmToDouble P left
  let right ← scmToDouble P right
  scmTakeS32Vector (opsPad P (← scmAudio input) left right)

/-- `racs_scm_clip`. -/
def scmClip (P : Platform) (input min max : Scm P.Double) : Checked (Scm P.Double) := do
  let min ← scmToInt32 min
  let max ← scmToInt32 max
  scmTakeS32Vector (opsClip P (← scmAudio input) min max)

/-- `racs_scm_split`. -/
def scmSplit (P : Platform) (input channel : Scm P.Double) : Checked (Scm P.Double) := do
  let channel ← scmToUint16 channel
  let audio ← scmAudio input
  if audio.channels ≠ 2 then throw "Invalid number of channels."
  if 1 < channel then throw "Invalid channel number."
  scmTakeS32Vector (opsSplit P audio channel)

variable (b : Backend P)

/-- `racs_scm_encode`: the difference of the length and 2 is compared as a signed number. The vector
of the result is empty when nothing was encoded. -/
def scmEncode (data mimeType : Scm P.Double) : Checked (Scm P.Double) := do
  let mimeType ← ExceptT.mk (some (scmToLocaleString mimeType))
  match Audio.ofWords (← scmS32Elements data) with
  | none => throw "Missing input data."
  | some audio =>
    if audio.samples.length < 2 then throw "Missing input data."
    if audio.channels = 0 then undefined
    match b.encodePcm audio.encode audio.samples
        (audio.samples.length / audio.channels.toNat) audio.encodeSize mimeType with
    | none => undefined
    | some out => return .vector .u8vec RacsType.noConfusion out

/-- The procedure of a stage, with the arguments of the stage. -/
def Stage.call (P : Platform) (input : Scm P.Double) : Stage P.Double → Checked (Scm P.Double)
  | .gain factor => scmGain P input (.real factor false)
  | .trim left right => scmTrim P input (.real left false) (.real right false)
  | .fade fadeIn fadeOut => scmFade P input (.real fadeIn false) (.real fadeOut false)
  | .pan position => scmPan P input (.real position false)
  | .pad left right => scmPad P input (.real left false) (.real right false)
  | .clip min max => scmClip P input (.int min.toInt) (.int max.toInt)
  | .split channel => scmSplit P input (.int channel.toInt)

end Racs
