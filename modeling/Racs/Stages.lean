import Racs.Pipeline

/-!
# Stages that transform audio

The commands GAIN, TRIM, FADE, PAN, PAD, CLIP and SPLIT read a vector from the buffer and reply with
a vector. A stage is one of them with its arguments. Between two stages the vector stands in the
buffer as a MessagePack binary, whose header counts its bytes in 32 bits.

## Main definitions

* `Racs.Stage`, `Racs.Stage.name`, `Racs.Stage.args` — a stage and its command.
* `Racs.Stage.transform` — what the command does to a vector.

## Main results

* `Racs.Stage.run_accepted`, `Racs.Stage.run_not_accepted`, `Racs.Stage.run_short` — the call of the
  command on a vector in the buffer.
-/

namespace Racs

open MessagePack

variable {δ : Type}

/-- A command that transforms audio, with its arguments. -/
inductive Stage (δ : Type)
  | gain (factor : δ)
  | trim (leftSeconds rightSeconds : δ)
  | fade (fadeInSeconds fadeOutSeconds : δ)
  | pan (position : δ)
  | pad (leftSeconds rightSeconds : δ)
  | clip (min max : Int64)
  | split (channel : Int64)
  deriving DecidableEq

namespace Stage

/-- The command of a stage. -/
def name : Stage δ → CommandName
  | .gain _ => .gain
  | .trim _ _ => .trim
  | .fade _ _ => .fade
  | .pan _ => .pan
  | .pad _ _ => .pad
  | .clip _ _ => .clip
  | .split _ => .split

/-- The arguments of a stage. -/
def args : Stage δ → List (CommandArg δ)
  | .gain factor => [.float factor]
  | .trim left right => [.float left, .float right]
  | .fade fadeIn fadeOut => [.float fadeIn, .float fadeOut]
  | .pan position => [.float position]
  | .pad left right => [.float left, .float right]
  | .clip min max => [.int min, .int max]
  | .split channel => [.int channel]

/-- The integers have the signs that the command asks for. -/
def Accepted : Stage δ → Prop
  | .clip min max => min < 0 ∧ 0 ≤ max
  | .split channel => 0 ≤ channel
  | _ => True

instance (stage : Stage δ) : Decidable stage.Accepted := by
  cases stage <;> unfold Accepted <;> infer_instance

end Stage

/-- The result of an operation, undefined when it is the null pointer. -/
def opResult (out : Option (Option Audio)) : Checked Audio :=
  match out with
  | some (some audio) => pure audio
  | _ => undefined

variable {P : Platform}

/-- What the command of a stage does to a vector behind the check of its arguments. -/
def Stage.transform (P : Platform) (audio : Audio) : Stage P.Double → Checked Audio
  | .gain factor => opResult (opsGain P audio factor)
  | .trim left right => opResult (opsTrim P audio left right)
  | .fade fadeIn fadeOut => opResult (opsFade P audio fadeIn fadeOut)
  | .pan position =>
    if P.lt position (P.ofInt (-1)) ∨ P.lt (P.ofInt 1) position then
      throw "Pan must be between -1.0 and +1.0."
    else opResult (opsPan P audio position)
  | .pad left right => opResult (opsPad P audio left right)
  | .clip min max => opResult (opsClip P audio min.toInt32 max.toInt32)
  | .split channel =>
    let channel := channel.toUInt64.toUInt16
    if audio.channels ≠ 2 then throw "Invalid number of channels."
    else if 1 < channel then throw "Invalid channel number."
    else opResult (opsSplit P audio channel)

variable (b : Backend P)

/-- The reply of a stage to a vector. -/
def Stage.reply (audio : Audio) (stage : Stage P.Double) (isFinal : Bool) :
    Option (Reply P.Double) :=
  finish (command b stage.name).name do
    let out ← stage.transform P audio
    pure (packS32v [] (if isFinal then out.samples else out.words))

theorem Audio.eq_words_of_ofWords {samples : List Int32} {audio : Audio}
    (h : Audio.ofWords samples = some audio) : samples = audio.words := by
  unfold Audio.ofWords at h
  split at h
  · rw [← Option.some.inj h]
    rfl
  · cases h

/-! ### A vector in the buffer -/

theorem unpackNext_packS32v {samples : List Int32} (h : samples.length < 2 ^ 30) :
    unpackNext (packS32v ([] : Buffer δ) samples).2 =
      .array [packType .s32vec, .bin (s32Bytes samples)] := by
  have hlen : (s32Bytes samples).length < 2 ^ 32 := by
    rw [length_s32Bytes]
    omega
  rw [packS32v, packVec, binItems_of_lt hlen]
  rfl

/-- Samples that are found in the buffer pass the checks. -/
theorem validateS32v_of_bufferSamples {out : Buffer δ} {samples : List Int32}
    (h : bufferSamples out = some samples) : validateS32v (unpackNext out) = pure samples := by
  unfold bufferSamples at h
  split at h
  · rename_i type data rest heq
    split_ifs at h with htype
    rw [heq, validateS32v, if_neg (not_not.mpr htype), ← Option.some.inj h]
  · cases h

theorem bufferSamples_packS32v {samples : List Int32} (h : samples.length < 2 ^ 30) :
    bufferSamples (packS32v ([] : Buffer δ) samples).2 = some samples := by
  rw [bufferSamples, unpackNext_packS32v h, packType]
  dsimp only
  rw [if_pos rfl, s32Words_s32Bytes]

/-! ### The call of the command -/

theorem opResult_bind_pack (out : Option (Option Audio)) (isFinal : Bool) :
    packAudio (P := P) out isFinal = opResult out >>= fun audio =>
      pure (packS32v [] (if isFinal then audio.samples else audio.words)) := by
  rcases out with - | - | audio
  · rfl
  · rfl
  · rw [opResult, pure_bind]
    rfl

/-- The call of a command that reads a vector, with arguments and a buffer that pass the checks. -/
theorem run_of_valid {c : CommandDef δ} {f} (hbody : c.body = .vector f) {cmd : Command δ}
    (hvalid : ArgsValid c.args (cmd.args.map CommandArg.item)) {out : Buffer δ}
    {samples : List Int32} (hout : validateS32v (unpackNext out) = pure samples) (s : Store)
    (isFinal : Bool) :
    c.run (serializeArgs cmd) out s isFinal =
      (finish c.name (f (cmd.args.map CommandArg.item) samples isFinal)).map (·, s) := by
  simp only [CommandDef.run, unpackNext_serializeArgs, hbody]
  rcases validateArgs_cases out c.name c.args (cmd.args.map CommandArg.item) with
    ⟨hlen, -⟩ | ⟨-, hne, -⟩ | ⟨-, -, heq⟩
  · exact absurd ((argsValid_iff _ _).mp hvalid).1 hlen
  · exact absurd hvalid hne
  · rw [heq, hout]
    dsimp only
    rw [pure_bind]

namespace Stage

variable {b}

theorem argsValid_iff_accepted (stage : Stage P.Double) :
    ArgsValid (command b stage.name).args (stage.args.map CommandArg.item) ↔ stage.Accepted := by
  cases stage
  case clip min max =>
    simp [name, args, command, commandClip, ArgsValid, CommandArg.item, Item.type, Accepted]
  case split channel =>
    simp [name, args, command, commandSplit, ArgsValid, CommandArg.item, Item.type, Accepted]
  all_goals exact iff_of_true rfl trivial

/-- The body of the command of a stage, on a vector and on too few words for one. -/
theorem exists_body (stage : Stage P.Double) (isFinal : Bool) :
    ∃ f, (command b stage.name).body = .vector f ∧
      (∀ audio : Audio,
        finish (command b stage.name).name
          (f (stage.args.map CommandArg.item) audio.words isFinal) = stage.reply b audio isFinal) ∧
      ∀ samples, Audio.ofWords samples = none → ∃ message,
        f (stage.args.map CommandArg.item) samples isFinal = throw message := by
  cases stage
  case pan position =>
    refine ⟨_, rfl, fun audio => ?_, fun samples hnone => ?_⟩
    · rw [reply, transform]
      by_cases h : P.lt position (P.ofInt (-1)) ∨ P.lt (P.ofInt 1) position
      · simp only [args, List.map_cons, List.map_nil, CommandArg.item, h, if_true]
        rfl
      · simp only [args, List.map_cons, List.map_nil, CommandArg.item, h, if_false]
        rw [← opResult_bind_pack]
        rfl
    · by_cases h : P.lt position (P.ofInt (-1)) ∨ P.lt (P.ofInt 1) position
      · refine ⟨"Pan must be between -1.0 and +1.0.", ?_⟩
        simp only [args, List.map_cons, List.map_nil, CommandArg.item, h, if_true]
        rfl
      · refine ⟨"Missing input data.", ?_⟩
        simp only [args, List.map_cons, List.map_nil, CommandArg.item, h, if_false, audioInput,
          hnone]
        rfl
  case split channel =>
    refine ⟨_, rfl, fun audio => ?_, fun samples hnone => ⟨"Missing input data.", ?_⟩⟩
    · rw [reply, transform]
      by_cases hchannels : audio.channels ≠ 2
      · simp only [args, List.map_cons, List.map_nil, CommandArg.item, audioInput,
          Audio.ofWords_words, pure_bind, if_pos hchannels]
        rfl
      · by_cases hchannel : 1 < channel.toUInt64.toUInt16
        · simp only [args, List.map_cons, List.map_nil, CommandArg.item, audioInput,
            Audio.ofWords_words, pure_bind, hchannels, hchannel, if_true, if_false]
          rfl
        · simp only [args, List.map_cons, List.map_nil, CommandArg.item, audioInput,
            Audio.ofWords_words, pure_bind, hchannels, hchannel, if_false]
          rw [← opResult_bind_pack]
    · simp only [args, List.map_cons, List.map_nil, CommandArg.item, audioInput, hnone]
      rfl
  all_goals
    refine ⟨_, rfl, fun audio => ?_, fun samples hnone => ⟨"Missing input data.", ?_⟩⟩
    · rw [reply, transform, ← opResult_bind_pack]
      rfl
    · simp only [args, List.map_cons, List.map_nil, CommandArg.item, audioInput, hnone]
      rfl

/-- **The call of the command of a stage** on a vector in the buffer. -/
theorem run_accepted {stage : Stage P.Double} (haccept : stage.Accepted) {cmd : Command P.Double}
    (hcmd : cmd.args = stage.args) {out : Buffer P.Double} {audio : Audio}
    (hout : bufferSamples out = some audio.words) (s : Store) (isFinal : Bool) :
    (command b stage.name).run (serializeArgs cmd) out s isFinal =
      (stage.reply b audio isFinal).map (·, s) := by
  obtain ⟨f, hbody, hf, -⟩ := @exists_body P b stage isFinal
  rw [run_of_valid hbody (hcmd ▸ stage.argsValid_iff_accepted.mpr haccept)
    (validateS32v_of_bufferSamples hout), hcmd, hf]

/-- The call with integers of other signs. -/
theorem run_not_accepted {stage : Stage P.Double} (haccept : ¬ stage.Accepted)
    {cmd : Command P.Double} (hcmd : cmd.args = stage.args) (out : Buffer P.Double) (s : Store)
    (isFinal : Bool) :
    ∃ message, (command b stage.name).run (serializeArgs cmd) out s isFinal =
      some (packError [] (ascii (command b stage.name).name) message, s) := by
  obtain ⟨f, hbody, -⟩ := @exists_body P b stage isFinal
  have hlen : (stage.args.map CommandArg.item).length = (command b stage.name).args.length := by
    cases stage <;> rfl
  rcases validateArgs_cases out (command b stage.name).name (command b stage.name).args
    (stage.args.map CommandArg.item) with ⟨hne, -⟩ | ⟨-, -, message, heq⟩ | ⟨-, hvalid, -⟩
  · exact absurd hlen hne
  · refine ⟨message, ?_⟩
    simp only [CommandDef.run, unpackNext_serializeArgs, hbody, hcmd, heq]
  · exact absurd (stage.argsValid_iff_accepted.mp hvalid) haccept

/-- The call on too few words for a vector. -/
theorem run_short {stage : Stage P.Double} (haccept : stage.Accepted) {cmd : Command P.Double}
    (hcmd : cmd.args = stage.args) {out : Buffer P.Double} {samples : List Int32}
    (hout : bufferSamples out = some samples) (hshort : Audio.ofWords samples = none) (s : Store)
    (isFinal : Bool) :
    ∃ message, (command b stage.name).run (serializeArgs cmd) out s isFinal =
      some (packError [] (ascii (command b stage.name).name) message, s) := by
  obtain ⟨f, hbody, -, hf⟩ := @exists_body P b stage isFinal
  obtain ⟨message, hthrow⟩ := hf samples hshort
  refine ⟨ascii message, ?_⟩
  rw [run_of_valid hbody (hcmd ▸ stage.argsValid_iff_accepted.mpr haccept)
    (validateS32v_of_bufferSamples hout), hcmd, hthrow]
  rfl

/-- All that a stage can do to a vector. -/
theorem reply_cases (stage : Stage P.Double) (audio : Audio) (isFinal : Bool) :
    stage.transform P audio = undefined ∧ stage.reply b audio isFinal = none ∨
      (∃ message, stage.transform P audio = throw message ∧ stage.reply b audio isFinal =
        some (packError [] (ascii (command b stage.name).name) (ascii message))) ∨
      ∃ out, stage.transform P audio = pure out ∧ stage.reply b audio isFinal =
        some (packS32v [] (if isFinal then out.samples else out.words)) := by
  rw [reply]
  rcases stage.transform P audio with - | message | out
  · exact .inl ⟨rfl, rfl⟩
  · exact .inr (.inl ⟨message, rfl, rfl⟩)
  · exact .inr (.inr ⟨out, rfl, rfl⟩)

end Stage

end Racs
