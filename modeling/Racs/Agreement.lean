import Racs.EncodeFaults
import Racs.StageResults

/-!
# Pipelines and Scheme expressions

A chain of stages, possibly with ENCODE at its end, can be run as a pipeline of commands or be
evaluated as nested calls of the corresponding Scheme procedures. This module compares the replies.

## Main definitions

* `Racs.Chain`, `Racs.Chain.commands`, `Racs.Chain.call` — a chain in both forms.
* `Racs.Chain.RepliesAlike` — the pipeline replies with the same value, or both with an error.
* `Racs.Stage.Agrees`, `Racs.Stage.Alike`, `Racs.EncodeAgrees`, `Racs.Chain.Agrees` — the checks of
  both forms decide alike, and what is behind them is defined.

## Main results

* `Racs.Chain.repliesAlike_iff` — when all initial parts of a chain are answered alike.
-/

namespace Racs

open MessagePack

/-! ### Outcomes -/

/-- What a computation does: nothing where it is undefined, or an error, or a value. -/
def outcome {α : Type} (x : Checked α) : Option (Option α) := x.run.map Except.toOption

/-- The second step of a computation, if the first one yields a value. -/
def andThen {α β : Type} (x : Option (Option α)) (f : α → Option (Option β)) :
    Option (Option β) :=
  x.bind fun a => a.elim (some none) f

/-- Both computations are undefined, or both fail, or both yield a value. -/
def SameKind {α β : Type} (x : Option (Option α)) (y : Option (Option β)) : Prop :=
  x.map Option.isSome = y.map Option.isSome

section Outcome

variable {α β γ : Type}

@[simp] theorem outcome_undefined : outcome (undefined : Checked α) = none := rfl

@[simp] theorem outcome_throw (message : String) :
    outcome (throw message : Checked α) = some none := rfl

@[simp] theorem outcome_pure (a : α) : outcome (pure a) = some (some a) := rfl

@[simp] theorem outcome_bind (x : Checked α) (f : α → Checked β) :
    outcome (x >>= f) = andThen (outcome x) fun a => outcome (f a) := by
  rcases x with - | message | a <;> rfl

@[simp] theorem andThen_none (f : α → Option (Option β)) : andThen none f = none := rfl

@[simp] theorem andThen_error (f : α → Option (Option β)) : andThen (some none) f = some none :=
  rfl

@[simp] theorem andThen_value (a : α) (f : α → Option (Option β)) :
    andThen (some (some a)) f = f a := rfl

theorem map_eq_andThen (x : Option (Option α)) (f : α → β) :
    x.map (Option.map f) = andThen x fun a => some (some (f a)) := by
  rcases x with - | - | a <;> rfl

theorem sameKind_map_map (f : α → β) (x : Option (Option α)) :
    SameKind (x.map (Option.map f)) x := by
  rcases x with - | - | a <;> rfl

/-- The outcome of an operation is no error. -/
theorem outcome_opResult_ne (out : Option (Option Audio)) :
    outcome (opResult out) ≠ some none := by
  rcases out with - | - | audio <;> simp [opResult]

end Outcome

/-! ### A stage in both forms -/

variable {P : Platform}

/-- What the command of a stage does to a vector of words. -/
def Stage.onCommand (P : Platform) (samples : List Int32) (stage : Stage P.Double) :
    Option (Option Audio) :=
  if stage.Accepted then
    andThen (outcome (audioInput samples)) fun audio => outcome (stage.transform P audio)
  else some none

/-- What the procedure of a stage does to a vector of words. -/
def Stage.onCall (P : Platform) (samples : List Int32) (stage : Stage P.Double) :
    Option (Option (Scm P.Double)) :=
  outcome (stage.call P (.s32vector samples))

/-- The integer is in the range of `racs_int32`. -/
def InInt32 (z : Int64) : Prop := -2 ^ 31 ≤ z.toInt ∧ z.toInt < 2 ^ 31

instance (z : Int64) : Decidable (InInt32 z) := inferInstanceAs (Decidable (_ ∧ _))

/-- The checks of command and procedure decide alike: a position in range is used with two channels
at least, the bounds of CLIP are acceptable for both or for neither, and a channel number that does
not fit into 16 bits is refused by the command too. -/
def Stage.Agrees (P : Platform) (audio : Audio) : Stage P.Double → Prop
  | .pan position =>
    (P.lt position (P.ofInt (-1)) ∨ P.lt (P.ofInt 1) position) ∨ ¬ audio.channels < 2
  | .clip min max => (min < 0 ∧ 0 ≤ max) ↔ (InInt32 min ∧ InInt32 max)
  | .split channel =>
    2 ^ 16 ≤ channel.toInt → ¬ (audio.channels = 2 ∧ channel.toUInt64.toUInt16 ≤ 1)
  | _ => True

@[simp] theorem outcome_scmAudio (audio : Audio) :
    outcome (scmAudio (.s32vector audio.words : Scm P.Double)) = some (some audio) := rfl

@[simp] theorem outcome_audioInput_words (audio : Audio) :
    outcome (audioInput audio.words) = some (some audio) := rfl

@[simp] theorem outcome_scmToDouble (x : P.Double) (integral : Bool) :
    outcome (scmToDouble P (.real x integral)) = some (some x) := rfl

theorem outcome_scmTakeS32Vector (out : Option (Option Audio)) :
    outcome (scmTakeS32Vector out : Checked (Scm P.Double)) =
      (outcome (opResult out)).map (Option.map fun audio => .s32vector audio.words) := by
  rcases out with - | - | audio <;> rfl

theorem outcome_scmToInt {α : Type} (low high z : ℤ) (convert : ℤ → α) :
    outcome (scmToInt low high convert (.int z : Scm P.Double)) =
      if low ≤ z ∧ z < high then some (some (convert z)) else some none := by
  rw [scmToInt]
  split_ifs <;> rfl

theorem outcome_scmToInt32 (z : Int64) :
    outcome (scmToInt32 (.int z.toInt : Scm P.Double)) =
      if InInt32 z then some (some z.toInt32) else some none := by
  rw [scmToInt32, outcome_scmToInt, Int32.ofInt_int64ToInt]
  rfl

/-- A channel number that fits into 16 bits is not cut. -/
theorem outcome_scmToUint16 (z : Int64) :
    outcome (scmToUint16 (.int z.toInt : Scm P.Double)) =
      if 0 ≤ z.toInt ∧ z.toInt < 2 ^ 16 then some (some z.toUInt64.toUInt16) else some none := by
  rw [scmToUint16, outcome_scmToInt]
  refine ite_congr rfl (fun h => ?_) fun _ => rfl
  have hnat : z.toUInt64.toNat = z.toInt.toNat :=
    Int64.toNat_toUInt64_of_le (Int64.le_iff_toInt_le.mpr h.1)
  have hcut : UInt16.ofNat z.toInt.toNat = z.toUInt64.toUInt16 := by
    apply UInt16.toNat.inj
    rw [← hnat, UInt16.toNat_ofNat', UInt64.toNat_toUInt16]
  rw [hcut]

/-- Both forms fail on too few words for a vector. -/
theorem Stage.onCommand_short {samples : List Int32} (h : Audio.ofWords samples = none)
    (stage : Stage P.Double) : stage.onCommand P samples = some none := by
  rw [onCommand, audioInput, h]
  split_ifs <;> rfl

@[inherit_doc Stage.onCommand_short]
theorem Stage.onCall_short {samples : List Int32} (h : Audio.ofWords samples = none)
    (stage : Stage P.Double) : stage.onCall P samples = some none := by
  have hinput : outcome (scmAudio (.s32vector samples : Scm P.Double)) = some none := by
    simp [scmAudio, scmS32Elements, audioInput, h]
  cases stage
  case pan position =>
    rw [onCall, call, scmPan, outcome_bind, outcome_scmToDouble, andThen_value]
    split_ifs <;> simp [hinput]
  case clip min max =>
    simp only [onCall, call, scmClip, outcome_bind, outcome_scmToInt32, hinput]
    split_ifs <;> rfl
  case split channel =>
    simp only [onCall, call, scmSplit, outcome_bind, outcome_scmToUint16, hinput]
    split_ifs <;> rfl
  all_goals simp [onCall, call, scmGain, scmTrim, scmFade, scmPad, hinput]

/-- What the command does to a vector. -/
theorem Stage.onCommand_words (audio : Audio) (stage : Stage P.Double) :
    stage.onCommand P audio.words =
      if stage.Accepted then outcome (stage.transform P audio) else some none := rfl

theorem Stage.onCall_pan (audio : Audio) (position : P.Double) :
    (Stage.pan position).onCall P audio.words =
      if P.lt position (P.ofInt (-1)) ∨ P.lt (P.ofInt 1) position then some none
      else if audio.channels < 2 then some none
      else (outcome (opResult (opsPan P audio position))).map
        (Option.map fun out => .s32vector out.words) := by
  rw [onCall, call, scmPan, outcome_bind, outcome_scmToDouble, andThen_value]
  split_ifs with hrange hchannels
  · rfl
  · simp [hchannels]
  · simp [hchannels, outcome_scmTakeS32Vector]

theorem Stage.onCall_clip (audio : Audio) (min max : Int64) :
    (Stage.clip min max : Stage P.Double).onCall P audio.words =
      if InInt32 min ∧ InInt32 max then
        (outcome (opResult (opsClip P audio min.toInt32 max.toInt32))).map
          (Option.map fun out => .s32vector out.words)
      else some none := by
  rw [onCall, call, scmClip, outcome_bind, outcome_scmToInt32]
  by_cases hmin : InInt32 min
  · rw [if_pos hmin, andThen_value, outcome_bind, outcome_scmToInt32]
    by_cases hmax : InInt32 max
    · rw [if_pos hmax, andThen_value, if_pos ⟨hmin, hmax⟩, outcome_bind, outcome_scmAudio,
        andThen_value, outcome_scmTakeS32Vector]
    · rw [if_neg hmax, andThen_error, if_neg fun h => hmax h.2]
  · rw [if_neg hmin, andThen_error, if_neg fun h => hmin h.1]

theorem Stage.onCall_split (audio : Audio) (channel : Int64) :
    (Stage.split channel : Stage P.Double).onCall P audio.words =
      if 0 ≤ channel.toInt ∧ channel.toInt < 2 ^ 16 then
        if audio.channels ≠ 2 then some none
        else if 1 < channel.toUInt64.toUInt16 then some none
        else (outcome (opResult (opsSplit P audio channel.toUInt64.toUInt16))).map
          (Option.map fun out => .s32vector out.words)
      else some none := by
  rw [onCall, call, scmSplit, outcome_bind, outcome_scmToUint16]
  by_cases hrange : 0 ≤ channel.toInt ∧ channel.toInt < 2 ^ 16
  · rw [if_pos hrange, if_pos hrange, andThen_value, outcome_bind, outcome_scmAudio,
      andThen_value]
    by_cases hchannels : audio.channels ≠ 2
    · rw [if_pos hchannels, if_pos hchannels]
      rfl
    · rw [if_neg hchannels, if_neg hchannels]
      by_cases hchannel : 1 < channel.toUInt64.toUInt16
      · rw [if_pos hchannel, if_pos hchannel]
        rfl
      · rw [if_neg hchannel, if_neg hchannel, ← outcome_scmTakeS32Vector]
  · rw [if_neg hrange, if_neg hrange, andThen_error]

/-- Where the checks decide alike, so do both forms. -/
theorem Stage.onCall_of_agrees {audio : Audio} {stage : Stage P.Double}
    (h : stage.Agrees P audio) : stage.onCall P audio.words =
      (stage.onCommand P audio.words).map (Option.map fun out => .s32vector out.words) := by
  rw [onCommand_words]
  cases stage with
  | pan position =>
    have haccept : (Stage.pan position).Accepted := trivial
    rw [onCall_pan, if_pos haccept, transform]
    by_cases hrange : P.lt position (P.ofInt (-1)) ∨ P.lt (P.ofInt 1) position
    · rw [if_pos hrange, if_pos hrange]
      rfl
    · rw [if_neg hrange, if_neg hrange, if_neg (h.resolve_left hrange)]
  | clip min max =>
    rw [onCall_clip]
    by_cases haccept : (Stage.clip min max : Stage P.Double).Accepted
    · rw [if_pos haccept, if_pos (h.mp haccept), transform]
    · rw [if_neg haccept, if_neg fun hrange => haccept (h.mpr hrange)]
      rfl
  | split channel =>
    rw [onCall_split, transform]
    by_cases haccept : (Stage.split channel : Stage P.Double).Accepted
    · have hnonneg : 0 ≤ channel.toInt := Int64.le_iff_toInt_le.mp haccept
      rw [if_pos haccept]
      by_cases hlt : channel.toInt < 2 ^ 16
      · rw [if_pos ⟨hnonneg, hlt⟩]
        split_ifs <;> rfl
      · have hrefused := h (not_lt.mp hlt)
        rw [if_neg fun hrange => hlt hrange.2]
        split_ifs with hchannels hchannel
        · rfl
        · rfl
        · exact absurd ⟨not_not.mp hchannels, UInt16.not_lt.mp hchannel⟩ hrefused
    · rw [if_neg haccept, if_neg fun hrange => haccept (Int64.le_iff_toInt_le.mpr hrange.1)]
      rfl
  | _ =>
    rw [onCall, call]
    simp [scmGain, scmTrim, scmFade, scmPad, transform, outcome_scmTakeS32Vector, Accepted]

/-- One form fails and the other does not. -/
theorem not_sameKind_of_error_right {α β : Type} {x : Option (Option α)} (h : x ≠ some none) :
    ¬ SameKind x (some none : Option (Option β)) := by
  rcases x with - | - | a
  · intro hkind
    cases hkind
  · exact absurd rfl h
  · intro hkind
    cases hkind

/-- Where the checks do not decide alike, one form fails and the other does not. -/
theorem Stage.not_sameKind {audio : Audio} {stage : Stage P.Double}
    (h : ¬ stage.Agrees P audio) :
    ¬ SameKind (stage.onCommand P audio.words) (stage.onCall P audio.words) := by
  rw [onCommand_words]
  cases stage with
  | pan position =>
    obtain ⟨hrange, hchannels⟩ := not_or.mp h
    have haccept : (Stage.pan position).Accepted := trivial
    rw [onCall_pan, if_pos haccept, transform, if_neg hrange, if_neg hrange,
      if_pos (not_not.mp hchannels)]
    exact not_sameKind_of_error_right (outcome_opResult_ne _)
  | clip min max =>
    rw [onCall_clip]
    by_cases haccept : (Stage.clip min max : Stage P.Double).Accepted
    · have hrange : ¬ (InInt32 min ∧ InInt32 max) := fun hrange =>
        h (iff_of_true haccept hrange)
      rw [if_pos haccept, if_neg hrange]
      exact not_sameKind_of_error_right (outcome_opResult_ne _)
    · have hrange : InInt32 min ∧ InInt32 max := by
        by_contra hrange
        exact h (iff_of_false haccept hrange)
      rw [if_neg haccept, if_pos hrange]
      intro hkind
      have hsame := (sameKind_map_map _ _).symm.trans hkind.symm
      exact not_sameKind_of_error_right (β := Audio) (outcome_opResult_ne _) hsame
  | split channel =>
    obtain ⟨hge, hchannels, hchannel⟩ : 2 ^ 16 ≤ channel.toInt ∧
        audio.channels = 2 ∧ channel.toUInt64.toUInt16 ≤ 1 := by
      by_contra hnot
      exact h fun hge hboth => hnot ⟨hge, hboth⟩
    have haccept : (Stage.split channel : Stage P.Double).Accepted :=
      Int64.le_iff_toInt_le.mpr (le_trans (by decide) hge)
    rw [onCall_split, if_pos haccept, if_neg fun hrange => absurd hrange.2 (not_lt.mpr hge),
      transform, if_neg (not_not.mpr hchannels), if_neg (UInt16.not_lt.mpr hchannel)]
    exact not_sameKind_of_error_right (outcome_opResult_ne _)
  | _ => exact absurd trivial h

/-- The checks decide alike, and an operation that is called can be carried out. -/
def Stage.Alike (P : Platform) (audio : Audio) (stage : Stage P.Double) : Prop :=
  stage.Agrees P audio ∧ (stage.Accepted → stage.Fits P audio)

theorem outcome_opResult_ne_none_iff (out : Option (Option Audio)) :
    outcome (opResult out) ≠ none ↔ Returned out := by
  rcases out with - | - | audio
  · exact iff_of_false (fun h => h rfl) not_returned_undefined
  · exact iff_of_false (fun h => h rfl) not_returned_null
  · exact iff_of_true (Option.some_ne_none _) (returned_some audio)

/-- When the command of a stage is defined. -/
theorem Stage.onCommand_ne_none_iff {audio : Audio} (hlen : audio.words.length < 2 ^ 64)
    (stage : Stage P.Double) :
    stage.onCommand P audio.words ≠ none ↔ (stage.Accepted → stage.Fits P audio) := by
  rw [onCommand_words]
  by_cases haccept : stage.Accepted
  · rw [if_pos haccept, imp_iff_right haccept, transform_eq, fits_iff stage hlen]
    rcases stage.refusal P audio with - | message
    · rw [or_iff_right (not_not.mpr rfl), and_iff_right rfl]
      exact outcome_opResult_ne_none_iff _
    · exact iff_of_true (Option.some_ne_none _) (.inl (Option.some_ne_none _))
  · rw [if_neg haccept]
    exact iff_of_true (Option.some_ne_none _) fun h => absurd h haccept

/-! ### ENCODE in both forms -/

variable (b : Backend P)

/-- The encoder on a vector. -/
def encoded (audio : Audio) (mimeType : List UInt8) : Option (List UInt8) :=
  encodeFrames b audio (audio.samples.length / audio.channels.toNat) mimeType

/-- What ENCODE does to a vector of words. -/
def encodeOnCommand (samples : List Int32) (mimeType : List UInt8) :
    Option (Option (List UInt8)) :=
  (Audio.ofWords samples).bind fun audio =>
    if audio.samples = [] then some none
    else if audio.channels = 0 then none
    else (encoded b audio (cString mimeType)).map fun data => if data = [] then none else some data

/-- What the procedure `encode` does to a vector of words. -/
def encodeOnCall (samples : List Int32) (mimeType : List UInt8) :
    Option (Option (Scm P.Double)) :=
  outcome (scmEncode b (.s32vector samples) (.string mimeType))

/-- The bytes of an encoded vector as a value of the interpreter. -/
def encodedVector {δ : Type} (data : List UInt8) : Scm δ := .vector .u8vec RacsType.noConfusion data

/-- ENCODE and the procedure decide alike: the vector has a header; and it has no samples, or the
encoder takes the samples, and no bytes are encoded exactly where the procedure raises an exception,
for one sample or a name with a null character. -/
def EncodeAgrees (samples : List Int32) (mimeType : List UInt8) : Prop :=
  ∃ audio, Audio.ofWords samples = some audio ∧
    (audio.samples = [] ∨ audio.Encodes b (cString mimeType) ∧
      (audio.samples.length = 1 ∨ 0 ∈ mimeType ↔ audio.EncodesNothing b (cString mimeType)))

theorem cString_of_not_mem {s : List UInt8} (h : 0 ∉ s) : cString s = s := by
  rw [cString, List.takeWhile_eq_self_iff]
  intro c hc
  simpa using fun hzero : c = 0 => h (hzero ▸ hc)

/-- What the procedure does to a vector with a header. -/
theorem encodeOnCall_words (audio : Audio) (mimeType : List UInt8) :
    encodeOnCall b audio.words mimeType =
      if 0 ∈ mimeType ∨ audio.samples.length < 2 then some none
      else if audio.channels = 0 then none
      else (encoded b audio (cString mimeType)).map fun data => some (encodedVector data) := by
  by_cases hnull : 0 ∈ mimeType
  · rw [encodeOnCall, scmEncode, scmToLocaleString, if_pos hnull, if_pos (.inl hnull)]
    rfl
  · rw [encodeOnCall, scmEncode_eq b _ hnull, Audio.ofWords_words, cString_of_not_mem hnull,
      encoded]
    dsimp only
    by_cases hshort : audio.samples.length < 2
    · rw [if_pos hshort, if_pos (.inr hshort), outcome_throw]
    · rw [if_neg hshort, if_neg (not_or.mpr ⟨hnull, hshort⟩)]
      by_cases hchannels : audio.channels = 0
      · rw [if_pos hchannels, if_pos hchannels, outcome_undefined]
      · rw [if_neg hchannels, if_neg hchannels]
        rcases encodeFrames b audio (audio.samples.length / audio.channels.toNat) mimeType with
          - | data <;> rfl

/-- What the procedure does to too few words for a header. -/
theorem encodeOnCall_short {samples : List Int32} (h : Audio.ofWords samples = none)
    (mimeType : List UInt8) :
    encodeOnCall b samples mimeType = some none := by
  by_cases hnull : 0 ∈ mimeType
  · rw [encodeOnCall, scmEncode, scmToLocaleString, if_pos hnull]
    rfl
  · rw [encodeOnCall, scmEncode_eq b _ hnull, h, outcome_throw]

/-- What ENCODE does to a vector with a header. -/
theorem encodeOnCommand_words (audio : Audio) (mimeType : List UInt8) :
    encodeOnCommand b audio.words mimeType =
      if audio.samples = [] then some none
      else if audio.channels = 0 then none
      else (encoded b audio (cString mimeType)).map fun data =>
        if data = [] then none else some data := rfl

/-- What both forms do to samples that the encoder takes. -/
theorem exists_encoded {audio : Audio} {mimeType : List UInt8} (h : audio.Encodes b mimeType) :
    ∃ data, encoded b audio mimeType = some data ∧
      (data = [] ↔ audio.EncodesNothing b mimeType) := by
  obtain ⟨data, hdata⟩ := Option.isSome_iff_exists.mp
    ((isSome_encodeFrames_iff b audio mimeType h.1).mpr h)
  refine ⟨data, hdata, ?_⟩
  rw [← encodeFrames_eq_nil_iff h, hdata, Option.some.injEq]

/-- Where ENCODE and the procedure decide alike, they do the same, and it is defined. -/
theorem encodeOnCall_of_agrees {samples : List Int32} {mimeType : List UInt8}
    (h : EncodeAgrees b samples mimeType) :
    encodeOnCommand b samples mimeType ≠ none ∧ encodeOnCall b samples mimeType =
      (encodeOnCommand b samples mimeType).map (Option.map encodedVector) := by
  obtain ⟨audio, haudio, h⟩ := h
  rw [Audio.eq_words_of_ofWords haudio, encodeOnCall_words, encodeOnCommand_words]
  by_cases hnil : audio.samples = []
  · rw [if_pos hnil, if_pos (.inr (by simp [hnil]))]
    exact ⟨Option.some_ne_none _, rfl⟩
  · obtain ⟨hencodes, hnothing⟩ := h.resolve_left hnil
    obtain ⟨data, hdata, hempty⟩ := exists_encoded b hencodes
    have hpos := List.length_pos_iff.mpr hnil
    rw [if_neg hnil, if_neg hencodes.1, if_neg hencodes.1, hdata]
    by_cases hcase : audio.samples.length = 1 ∨ 0 ∈ mimeType
    · have hfail : 0 ∈ mimeType ∨ audio.samples.length < 2 := by
        rcases hcase with hone | hnull
        · exact .inr (by omega)
        · exact .inl hnull
      rw [if_pos hfail, hempty.mpr (hnothing.mp hcase)]
      exact ⟨Option.some_ne_none _, rfl⟩
    · have hne : data ≠ [] := fun heq => hcase (hnothing.mpr (hempty.mp heq))
      obtain ⟨hone, hnull⟩ := not_or.mp hcase
      rw [if_neg (not_or.mpr ⟨hnull, by omega⟩), Option.map_some, if_neg hne]
      exact ⟨Option.some_ne_none _, rfl⟩

/-- Where both forms are defined, the encoder takes the samples. -/
theorem encodes_of_sameKind {audio : Audio} {mimeType : List UInt8} (hnil : audio.samples ≠ [])
    (hkind : SameKind (encodeOnCommand b audio.words mimeType)
      (encodeOnCall b audio.words mimeType))
    (hdefined : encodeOnCall b audio.words mimeType ≠ none) :
    audio.Encodes b (cString mimeType) := by
  have hcommand : encodeOnCommand b audio.words mimeType ≠ none := by
    intro hnone
    rw [hnone] at hkind
    exact hdefined (Option.map_eq_none_iff.mp hkind.symm)
  rw [encodeOnCommand_words, if_neg hnil] at hcommand
  by_cases hchannels : audio.channels = 0
  · rw [if_pos hchannels] at hcommand
    exact absurd rfl hcommand
  · rw [if_neg hchannels] at hcommand
    rw [← isSome_encodeFrames_iff b audio _ hchannels, Option.isSome_iff_ne_none]
    exact fun hnone => hcommand (Option.map_eq_none_iff.mpr hnone)

/-- Where both forms are defined and both fail or both yield a value, they decide alike. -/
theorem encodeAgrees_of_sameKind {samples : List Int32} {mimeType : List UInt8}
    (hkind : SameKind (encodeOnCommand b samples mimeType) (encodeOnCall b samples mimeType))
    (hdefined : encodeOnCall b samples mimeType ≠ none) : EncodeAgrees b samples mimeType := by
  rcases haudio : Audio.ofWords samples with - | audio
  · rw [encodeOnCall_short b haudio] at hkind
    exact absurd hkind (not_sameKind_of_error_right (by simp [encodeOnCommand, haudio]))
  · obtain rfl := Audio.eq_words_of_ofWords haudio
    refine ⟨audio, haudio, or_iff_not_imp_left.mpr fun hnil => ?_⟩
    have hencodes := encodes_of_sameKind b hnil hkind hdefined
    obtain ⟨data, hdata, hempty⟩ := exists_encoded b hencodes
    have hpos := List.length_pos_iff.mpr hnil
    rw [encodeOnCall_words, encodeOnCommand_words, if_neg hnil, if_neg hencodes.1,
      if_neg hencodes.1, hdata, Option.map_some, Option.map_some] at hkind
    refine ⟨hencodes, Iff.trans ?_ hempty⟩
    by_cases hfail : 0 ∈ mimeType ∨ audio.samples.length < 2
    · rw [if_pos hfail] at hkind
      have hcase : audio.samples.length = 1 ∨ 0 ∈ mimeType := by
        rcases hfail with hnull | hshort
        · exact .inr hnull
        · exact .inl (by omega)
      -- the procedure fails, and so does the command
      refine iff_of_true hcase ?_
      by_contra hne
      rw [if_neg hne] at hkind
      cases hkind
    · obtain ⟨hnull, hlong⟩ := not_or.mp hfail
      rw [if_neg hfail] at hkind
      refine iff_of_false (not_or.mpr ⟨by omega, hnull⟩) fun heq => ?_
      rw [if_pos heq] at hkind
      cases hkind

/-! ### Chains -/

/-- Stages one after the other, possibly with ENCODE at the end. -/
inductive Chain (δ : Type)
  | last (stage : Stage δ)
  | encode (mimeType : List UInt8)
  | next (stage : Stage δ) (rest : Chain δ)

namespace Chain

/-- The stages of the pipeline. -/
def commands {δ : Type} : Chain δ → List (CommandName × Command δ)
  | last stage => [(stage.name, ⟨0, [], stage.args⟩)]
  | encode mimeType => [(.encode, ⟨0, [], [.str mimeType]⟩)]
  | next stage rest => (stage.name, ⟨0, [], stage.args⟩) :: rest.commands

/-- The nested calls of the procedures. -/
def call (input : Scm P.Double) : Chain P.Double → Checked (Scm P.Double)
  | last stage => stage.call P input
  | encode mimeType => scmEncode b input (.string mimeType)
  | next stage rest => do rest.call (← stage.call P input)

/-- What the procedures of a chain compute. -/
def onCall (samples : List Int32) (chain : Chain P.Double) : Option (Option (Scm P.Double)) :=
  outcome (chain.call b (.s32vector samples))

/-- A run replies with what `racs_scm_pack` gives for a value, or with an error instead of a
value. -/
def RepliesTo (reply : Option (Store × Reply P.Double)) : Option (Option (Scm P.Double)) → Prop
  | none => False
  | some none => ∃ s' r, reply = some (s', r) ∧ r.1 = .error
  | some (some x) => ∃ s' r, reply = some (s', r) ∧ r.1 = .ok ∧
      scmPack b.nullElements [] x true = some r

/-- A run replies in this way, or is undefined where there is neither a value nor an error. -/
def RunsTo (reply : Option (Store × Reply P.Double)) : Option (Option (Scm P.Double)) → Prop
  | none => reply = none
  | some result => RepliesTo b reply (some result)

/-- The pipeline, on a buffer with the samples, replies with the value of the nested calls, or with
an error when they raise an exception. -/
def RepliesAlike (s : Store) (out : Buffer P.Double) (samples : List Int32)
    (chain : Chain P.Double) : Prop :=
  RepliesTo b (planRun b s (.ok, out) chain.commands) (chain.onCall b samples)

/-- The initial parts of a chain. -/
inductive Part {δ : Type} : Chain δ → Chain δ → Prop
  | refl (chain : Chain δ) : Part chain chain
  | last (stage : Stage δ) (rest : Chain δ) : Part (last stage) (next stage rest)
  | next (stage : Stage δ) {part rest : Chain δ} (h : Part part rest) :
      Part (next stage part) (next stage rest)

/-- The checks of command and procedure decide alike at every stage that is reached, and what is
behind them is defined. -/
def Agrees (samples : List Int32) : Chain P.Double → Prop
  | last stage => ∀ audio, Audio.ofWords samples = some audio → stage.Alike P audio
  | encode mimeType => EncodeAgrees b samples mimeType
  | next stage rest => (∀ audio, Audio.ofWords samples = some audio → stage.Alike P audio) ∧
      ∀ out, stage.onCommand P samples = some (some out) → rest.Agrees out.words

/-- Every vector that is handed on has fewer than 2^30 words. -/
def Fits (samples : List Int32) : Chain P.Double → Prop
  | next stage rest => ∀ out, stage.onCommand P samples = some (some out) →
      out.words.length < 2 ^ 30 ∧ rest.Fits out.words
  | _ => True

/-- What the commands of a chain compute, as a value of the interpreter. -/
def onCommand (samples : List Int32) : Chain P.Double → Option (Option (Scm P.Double))
  | last stage => (stage.onCommand P samples).map (Option.map fun out => .s32vector out.words)
  | encode mimeType => (encodeOnCommand b samples mimeType).map (Option.map encodedVector)
  | next stage rest => andThen (stage.onCommand P samples) fun out => rest.onCommand out.words

variable {b}

theorem Fits.of_part {part chain : Chain P.Double} (h : part.Part chain) {samples : List Int32}
    (hfits : chain.Fits samples) : part.Fits samples := by
  induction h generalizing samples with
  | refl => exact hfits
  | last => trivial
  | next stage _ ih => exact fun out hout => ⟨(hfits out hout).1, ih (hfits out hout).2⟩

theorem commands_ne_nil {δ : Type} (chain : Chain δ) : chain.commands ≠ [] := by
  cases chain <;> exact List.cons_ne_nil _ _

/-! ### The run of the commands -/

/-- The call of a command does what an outcome says. -/
def CallsTo {α : Type} (call : Option (Reply P.Double × Store)) (s : Store)
    (reply : α → Reply P.Double) : Option (Option α) → Prop
  | none => call = none
  | some none => ∃ r, call = some (r, s) ∧ r.1 = .error
  | some (some a) => call = some (reply a, s)

/-- The call of a stage. -/
theorem run_stage {out : Buffer P.Double} {samples : List Int32}
    (hout : bufferSamples out = some samples) (stage : Stage P.Double) (s : Store)
    (isFinal : Bool) :
    CallsTo ((command b stage.name).run (serializeArgs ⟨0, [], stage.args⟩) out s isFinal) s
      (fun result => packS32v [] (if isFinal then result.samples else result.words))
      (stage.onCommand P samples) := by
  by_cases haccept : stage.Accepted
  · rcases haudio : Audio.ofWords samples with - | audio
    · obtain ⟨message, hrun⟩ := @Stage.run_short P b stage haccept ⟨0, [], stage.args⟩ rfl out
        samples hout haudio s isFinal
      rw [hrun, Stage.onCommand_short haudio]
      exact ⟨_, rfl, rfl⟩
    · obtain rfl := Audio.eq_words_of_ofWords haudio
      rw [Stage.run_accepted haccept rfl hout, Stage.onCommand_words, if_pos haccept]
      rcases stage.reply_cases (b := b) audio isFinal with
        ⟨htransform, hreply⟩ | ⟨message, htransform, hreply⟩ | ⟨result, htransform, hreply⟩
      · rw [htransform, hreply]
        rfl
      · rw [htransform, hreply]
        exact ⟨_, rfl, rfl⟩
      · rw [htransform, hreply]
        rfl
  · obtain ⟨message, hrun⟩ := @Stage.run_not_accepted P b stage haccept ⟨0, [], stage.args⟩ rfl
      out s isFinal
    rw [hrun, Stage.onCommand, if_neg haccept]
    exact ⟨_, rfl, rfl⟩

/-- The call of ENCODE. -/
theorem run_encode {out : Buffer P.Double} {samples : List Int32}
    (hout : bufferSamples out = some samples) (mimeType : List UInt8) (s : Store)
    (isFinal : Bool) :
    CallsTo ((command b .encode).run (serializeArgs ⟨0, [], [.str mimeType]⟩) out s isFinal) s
      (packU8v []) (encodeOnCommand b samples mimeType) := by
  have hrun := @Racs.run_encode P b ⟨0, [], [.str mimeType]⟩ out samples mimeType rfl hout s isFinal
  rw [hrun]
  rcases haudio : Audio.ofWords samples with - | audio
  · rw [encodeOnCommand, haudio]
    rfl
  · obtain rfl := Audio.eq_words_of_ofWords haudio
    rw [encodeOnCommand_words]
    dsimp only
    by_cases hsamples : audio.samples = []
    · rw [encodeAudio, if_pos hsamples, if_pos hsamples]
      exact ⟨_, rfl, rfl⟩
    · by_cases hchannels : audio.channels = 0
      · rw [encodeAudio, if_neg hsamples, if_neg hsamples, if_pos hchannels, if_pos hchannels]
        rfl
      · rw [encodeAudio_eq b _ hsamples hchannels, if_neg hsamples, if_neg hchannels, encoded]
        rcases encodeFrames b audio (audio.samples.length / audio.channels.toNat)
          (cString mimeType) with - | - | ⟨byte, data⟩
        · rfl
        · exact ⟨_, rfl, rfl⟩
        · rfl

/-- What a pipeline does behind the call of its first command. -/
theorem planRun_cons {name : CommandName} {cmd : Command P.Double} {s : Store}
    {out : Buffer P.Double} (rest : List (CommandName × Command P.Double)) {α : Type}
    {x : Option (Option α)} {reply : α → Reply P.Double}
    {f : α → Option (Option (Scm P.Double))}
    (h : CallsTo ((command b name).run (serializeArgs cmd) out s rest.isEmpty) s reply x)
    (hf : ∀ a, x = some (some a) →
      (reply a).1 = .ok ∧ RunsTo b (planRun b s (reply a) rest) (f a)) :
    RunsTo b (planRun b s (.ok, out) ((name, cmd) :: rest)) (andThen x f) := by
  rw [planRun]
  dsimp only
  rcases x with - | - | a
  · rw [show (command b name).run (serializeArgs cmd) out s rest.isEmpty = none from h]
    rfl
  · obtain ⟨r, hrun, herr⟩ := h
    rw [hrun, Option.bind_some]
    dsimp only
    rw [if_pos (by rw [herr]; exact Status.noConfusion)]
    exact ⟨s, r, rfl, herr⟩
  · obtain ⟨hok, hrest⟩ := hf a rfl
    rw [show (command b name).run (serializeArgs cmd) out s rest.isEmpty = some (reply a, s)
      from h, Option.bind_some]
    dsimp only
    rw [if_neg (not_not.mpr hok), andThen_value]
    exact hrest

/-- A vector with a header is packed without it. -/
theorem scmPack_words (nullElements : Bool) (audio : Audio) :
    scmPack nullElements [] (.s32vector audio.words : Scm P.Double) true =
      some (packS32v [] audio.samples) := by
  simp [scmPack, scmPackS32Vector, Audio.words]

/-- The pipeline of a chain does what its commands compute. -/
theorem planRun_chain (chain : Chain P.Double) (s : Store) {out : Buffer P.Double}
    {samples : List Int32} (hout : bufferSamples out = some samples) (hfits : chain.Fits samples) :
    RunsTo b (planRun b s (.ok, out) chain.commands) (chain.onCommand b samples) := by
  induction chain generalizing samples out with
  | last stage =>
    rw [onCommand, map_eq_andThen]
    refine planRun_cons [] (run_stage hout stage s true) fun result _ => ⟨rfl, ?_⟩
    exact ⟨s, _, rfl, rfl, scmPack_words b.nullElements result⟩
  | encode mimeType =>
    rw [onCommand, map_eq_andThen]
    exact planRun_cons [] (run_encode hout mimeType s true) fun data _ =>
      ⟨rfl, s, _, rfl, rfl, rfl⟩
  | next stage rest ih =>
    have hfinal : rest.commands.isEmpty = false := by
      rw [List.isEmpty_eq_false_iff]
      exact rest.commands_ne_nil
    have hrun : CallsTo ((command b stage.name).run (serializeArgs ⟨0, [], stage.args⟩) out s
        rest.commands.isEmpty) s (fun result => packS32v [] result.words)
        (stage.onCommand P samples) := by
      rw [hfinal]
      exact run_stage hout stage s false
    refine planRun_cons rest.commands hrun fun result hresult => ⟨rfl, ?_⟩
    obtain ⟨hlt, hrest⟩ := hfits result hresult
    exact ih (bufferSamples_packS32v hlt) hrest

/-! ### Replies alike -/

theorem onCall_next (stage : Stage P.Double) (rest : Chain P.Double) (samples : List Int32) :
    (next stage rest).onCall b samples =
      andThen (stage.onCall P samples) fun x => outcome (rest.call b x) :=
  outcome_bind _ _

theorem repliesTo_iff {reply : Option (Store × Reply P.Double)}
    {x : Option (Option (Scm P.Double))} :
    RepliesTo b reply x ↔ x ≠ none ∧ RunsTo b reply x := by
  rcases x with - | result
  · exact iff_of_false id fun h => h.1 rfl
  · exact (and_iff_right (Option.some_ne_none result)).symm

/-- Two outcomes of one run are of one kind. -/
theorem RunsTo.sameKind {reply : Option (Store × Reply P.Double)}
    {x y : Option (Option (Scm P.Double))} (hx : RunsTo b reply x) (hy : RunsTo b reply y) :
    SameKind x y := by
  rcases x with - | - | x <;> rcases y with - | - | y
  · rfl
  · obtain ⟨s', r, hreply, -⟩ := hy
    cases hx.symm.trans hreply
  · obtain ⟨s', r, hreply, -⟩ := hy
    cases hx.symm.trans hreply
  · obtain ⟨s', r, hreply, -⟩ := hx
    cases hy.symm.trans hreply
  · rfl
  · obtain ⟨s', r, hreply, herr⟩ := hx
    obtain ⟨s'', r', hreply', hok, -⟩ := hy
    obtain ⟨-, rfl⟩ := Prod.mk.inj (Option.some.inj (hreply.symm.trans hreply'))
    cases herr.symm.trans hok
  · obtain ⟨s', r, hreply, -⟩ := hx
    cases hy.symm.trans hreply
  · obtain ⟨s', r, hreply, hok, -⟩ := hx
    obtain ⟨s'', r', hreply', herr⟩ := hy
    obtain ⟨-, rfl⟩ := Prod.mk.inj (Option.some.inj (hreply.symm.trans hreply'))
    cases herr.symm.trans hok
  · rfl

/-- Behind a stage with the same result in both forms the rest of the chain decides. -/
theorem repliesAlike_next_iff {stage : Stage P.Double} {rest : Chain P.Double} {s : Store}
    {out : Buffer P.Double} {samples : List Int32} (hout : bufferSamples out = some samples)
    {result : Audio} (hcommand : stage.onCommand P samples = some (some result))
    (hcall : stage.onCall P samples = some (some (.s32vector result.words))) :
    (next stage rest).RepliesAlike b s out samples ↔
      rest.RepliesAlike b s (packS32v [] result.words).2 result.words := by
  have hfinal : rest.commands.isEmpty = false := by
    rw [List.isEmpty_eq_false_iff]
    exact rest.commands_ne_nil
  have hrun := run_stage (b := b) hout stage s false
  rw [hcommand] at hrun
  have hplan : planRun b s (.ok, out) (next stage rest).commands =
      planRun b s (.ok, (packS32v [] result.words).2) rest.commands := by
    rw [commands, planRun, hfinal, hrun, Option.bind_some]
    rfl
  rw [RepliesAlike, hplan, onCall_next, hcall, andThen_value]
  rfl

/-! ### Chains whose checks decide alike -/

/-- Where a stage is alike in both forms, they compute the same, and it is defined. -/
theorem stage_onCall_eq {stage : Stage P.Double} {samples : List Int32}
    (hlen : samples.length < 2 ^ 64)
    (h : ∀ audio, Audio.ofWords samples = some audio → stage.Alike P audio) :
    stage.onCommand P samples ≠ none ∧ stage.onCall P samples =
      (stage.onCommand P samples).map (Option.map fun out => .s32vector out.words) := by
  rcases haudio : Audio.ofWords samples with - | audio
  · rw [Stage.onCall_short haudio, Stage.onCommand_short haudio]
    exact ⟨Option.some_ne_none _, rfl⟩
  · obtain rfl := Audio.eq_words_of_ofWords haudio
    obtain ⟨hagrees, hfits⟩ := h audio haudio
    exact ⟨(Stage.onCommand_ne_none_iff hlen stage).mpr hfits, Stage.onCall_of_agrees hagrees⟩

theorem length_lt_of_fits {samples : List Int32} (h : samples.length < 2 ^ 30) :
    samples.length < 2 ^ 64 := h.trans (by decide)

theorem onCall_of_agrees {chain : Chain P.Double} {samples : List Int32}
    (hlen : samples.length < 2 ^ 64) (hfits : chain.Fits samples) (h : chain.Agrees b samples) :
    chain.onCommand b samples ≠ none ∧ chain.onCall b samples = chain.onCommand b samples := by
  induction chain generalizing samples with
  | last stage =>
    obtain ⟨hdefined, hcall⟩ := stage_onCall_eq hlen h
    refine ⟨fun hnone => hdefined (Option.map_eq_none_iff.mp hnone), hcall⟩
  | encode mimeType =>
    obtain ⟨hdefined, hcall⟩ := encodeOnCall_of_agrees b h
    refine ⟨fun hnone => hdefined (Option.map_eq_none_iff.mp hnone), hcall⟩
  | next stage rest ih =>
    obtain ⟨hdefined, hcall⟩ := stage_onCall_eq hlen h.1
    rw [onCall_next, onCommand, hcall]
    rcases hcommand : stage.onCommand P samples with - | - | result
    · exact absurd hcommand hdefined
    · exact ⟨Option.some_ne_none _, rfl⟩
    · obtain ⟨hlt, hrest⟩ := hfits result hcommand
      exact ih (length_lt_of_fits hlt) hrest (h.2 result hcommand)

theorem Agrees.of_part {part chain : Chain P.Double} (h : part.Part chain) {samples : List Int32}
    (hagrees : chain.Agrees b samples) : part.Agrees b samples := by
  induction h generalizing samples with
  | refl => exact hagrees
  | last => exact hagrees.1
  | next stage _ ih => exact ⟨hagrees.1, fun out hout => ih (hagrees.2 out hout)⟩

/-- A stage that is answered alike as the end of a chain. -/
theorem alike_of_last {stage : Stage P.Double} {s : Store} {out : Buffer P.Double}
    {samples : List Int32} (hout : bufferSamples out = some samples)
    (hlen : samples.length < 2 ^ 64) (h : (last stage).RepliesAlike b s out samples) :
    ∀ audio, Audio.ofWords samples = some audio → stage.Alike P audio := by
  intro audio haudio
  obtain rfl := Audio.eq_words_of_ofWords haudio
  obtain ⟨hdefined, hruns⟩ := repliesTo_iff.mp h
  have hkind := (sameKind_map_map _ _).symm.trans
    ((planRun_chain (last stage) s hout trivial).sameKind hruns)
  have hagrees : stage.Agrees P audio := by
    by_contra hnot
    exact Stage.not_sameKind hnot hkind
  refine ⟨hagrees, (Stage.onCommand_ne_none_iff hlen stage).mp fun hnone => ?_⟩
  have hcall : stage.onCall P audio.words = none := by
    rw [Stage.onCall_of_agrees hagrees, hnone, Option.map_none]
  exact hdefined hcall

/-- **When pipelines and Scheme expressions agree.** For a vector in memory and a chain none of
whose stages hands on a vector of 2^30 words, all its initial parts are answered alike as pipelines
and as expressions exactly when the checks of command and procedure decide alike at every stage that
is reached, and what is behind them is defined. -/
theorem repliesAlike_iff (chain : Chain P.Double) (s : Store) {out : Buffer P.Double}
    {samples : List Int32} (hout : bufferSamples out = some samples)
    (hlen : samples.length < 2 ^ 64) (hfits : chain.Fits samples) :
    (∀ part : Chain P.Double, part.Part chain → part.RepliesAlike b s out samples) ↔
      chain.Agrees b samples := by
  constructor
  · intro h
    induction chain generalizing samples out with
    | last stage => exact alike_of_last hout hlen (h _ (.refl _))
    | encode mimeType =>
      obtain ⟨hdefined, hruns⟩ := repliesTo_iff.mp (h _ (.refl _))
      have hkind := (planRun_chain (encode mimeType) s hout trivial).sameKind hruns
      exact encodeAgrees_of_sameKind b ((sameKind_map_map _ _).symm.trans hkind) hdefined
    | next stage rest ih =>
      have hstage := alike_of_last hout hlen (h _ (.last stage rest))
      refine ⟨hstage, fun result hcommand => ?_⟩
      have hcall : stage.onCall P samples = some (some (.s32vector result.words)) := by
        rw [(stage_onCall_eq hlen hstage).2, hcommand]
        rfl
      obtain ⟨hlt, hrest⟩ := hfits result hcommand
      exact ih (bufferSamples_packS32v hlt) (length_lt_of_fits hlt) hrest fun part hpart =>
        (repliesAlike_next_iff hout hcommand hcall).mp (h _ (.next stage hpart))
  · intro h part hpart
    obtain ⟨hdefined, hcall⟩ := onCall_of_agrees hlen (hfits.of_part hpart) (h.of_part hpart)
    rw [RepliesAlike, hcall, repliesTo_iff]
    exact ⟨hdefined, planRun_chain part s hout (hfits.of_part hpart)⟩

end Chain

/-! ### PAN of a mono vector -/

/-- One sample of a mono vector at 48000 Hz. -/
def monoSample : Audio := ⟨48000, 0x00010010, [5]⟩

/-- `PAN 0.0` -/
def panCenter : Chain Platform.rational.Double := .last (.pan (some 0))

theorem position_in_range : ¬ (Platform.rational.lt (some 0) (Platform.rational.ofInt (-1)) ∨
    Platform.rational.lt (Platform.rational.ofInt 1) (some 0)) := by
  simp [Platform.rational]

theorem monoSample_channels : monoSample.channels < 2 := by
  decide

/-- **PAN of a mono vector** raises an exception as an expression, and as a command packs the null
pointer. -/
theorem not_repliesAlike_panCenter :
    bufferSamples (packS32v ([] : Buffer Platform.rational.Double) monoSample.words).2 =
        some monoSample.words ∧ panCenter.Fits monoSample.words ∧
      panCenter.onCall Backend.idle monoSample.words = some none ∧
      ¬ panCenter.RepliesAlike Backend.idle (Store.init (Config.small 1 (by decide)))
        (packS32v [] monoSample.words).2 monoSample.words := by
  have hout := @bufferSamples_packS32v Platform.rational.Double monoSample.words
    (by simp [monoSample, Audio.words])
  refine ⟨hout, trivial, ?_, fun h => ?_⟩
  · have hcall := Stage.onCall_pan (P := Platform.rational) monoSample (some 0)
    rw [if_neg position_in_range, if_pos monoSample_channels] at hcall
    exact hcall
  · have hlen : monoSample.words.length < 2 ^ 64 := by simp [monoSample, Audio.words]
    rcases (Chain.alike_of_last hout hlen h monoSample rfl).1 with hrange | hchannels
    · exact position_in_range hrange
    · exact hchannels monoSample_channels

/-- One frame of a stereo vector at 48000 Hz. -/
def stereoFrame : Audio := ⟨48000, 0x00020010, [10, 2]⟩

/-- `CLIP -5 5 |> PAN 0.0` -/
def clipPan : Chain Platform.rational.Double := .next (.clip (-5) 5) (.last (.pan (some 0)))

theorem onCommand_clip : (Stage.clip (-5) 5).onCommand Platform.rational stereoFrame.words =
    some (some ⟨48000, 0x00020010, [5, 2]⟩) := by
  decide +kernel

/-- CLIP and PAN of a stereo vector are answered alike. -/
theorem repliesAlike_clipPan :
    clipPan.RepliesAlike Backend.idle (Store.init (Config.small 1 (by decide)))
      (packS32v [] stereoFrame.words).2 stereoFrame.words := by
  have hout := @bufferSamples_packS32v Platform.rational.Double stereoFrame.words
    (by simp [stereoFrame, Audio.words])
  have hfits : clipPan.Fits stereoFrame.words := by
    intro out h
    obtain rfl := Option.some.inj (Option.some.inj (onCommand_clip.symm.trans h))
    exact ⟨by simp [Audio.words], trivial⟩
  have hclip : InInt32 (-5) ∧ InInt32 5 := by decide
  refine (Chain.repliesAlike_iff clipPan _ hout (by simp [stereoFrame, Audio.words]) hfits).mpr
    ⟨fun audio haudio => ⟨iff_of_true (by decide) hclip, fun _ => ?_⟩, fun out h audio haudio => ?_⟩
    _ (.refl _)
  · obtain rfl := Option.some.inj haudio
    exact ⟨by decide, by decide +kernel⟩
  · obtain rfl := Option.some.inj (Option.some.inj (onCommand_clip.symm.trans h))
    obtain rfl := Option.some.inj haudio
    refine ⟨.inr (by decide), fun _ => .inr (.inr ⟨by decide, by decide +kernel, by decide, ?_⟩)⟩
    decide +kernel

end Racs
