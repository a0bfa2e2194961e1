import Racs.CopyRegions
import Racs.Foundation.PartialRun
import Racs.Stages

/-!
# Results of the stages

The operations of `ops.c` reject arguments with the null pointer, and the commands do not look for
it: a stage packs whatever its operation returned. TRIM cuts off as much as it is told, PAN asks for
two channels only in the operation, and CLIP compares its bounds after they were cut to 32 bits.

## Main definitions

* `Racs.Returned` — an operation returned a buffer.
* `Racs.Stage.op`, `Racs.Stage.refusal` — the operation of a stage, and the error in front of it.
* `Racs.Stage.PacksResult`, `Racs.Stage.Fits` — a stage packs a result, and when it does.

## Main results

* `Racs.opsGain_returned_iff` to `Racs.opsSplit_returned_iff` — when an operation returns a buffer.
* `Racs.Stage.packsResult_iff` — which stages pack a result.
-/

namespace Racs

open MessagePack PartialRun

variable {P : Platform}

/-! ### What the operations return -/

/-- An operation returned a buffer. -/
def Returned (out : Option (Option Audio)) : Prop := ∃ audio, out = some (some audio)

variable {audio : Audio}

theorem returned_some (out : Audio) : Returned (some (some out)) := ⟨out, rfl⟩

theorem not_returned_null : ¬ Returned (some none) := by
  rintro ⟨out, h⟩
  cases h

theorem not_returned_undefined : ¬ Returned none := by
  rintro ⟨out, h⟩
  cases h

/-- An operation that returns the null pointer when there is no memory. -/
theorem returned_alloc_iff {n : ℕ} {out : Option (Option Audio)} :
    Returned (if P.alloc n then out else some none) ↔ P.alloc n = true ∧ Returned out := by
  by_cases halloc : P.alloc n = true
  · rw [if_pos halloc, and_iff_right halloc]
  · rw [if_neg halloc]
    exact iff_of_false not_returned_null fun h => halloc h.1

/-- An operation that computes one sample for every element of a list. -/
theorem returned_mapM_iff {α : Type} {f : α → Option Int32} {as : List α}
    (g : List Int32 → Audio) :
    Returned ((as.mapM f).map fun samples => some (g samples)) ↔
      ∀ a ∈ as, (f a).isSome = true := by
  rw [← isSome_mapM]
  cases as.mapM f with
  | none => exact iff_of_false not_returned_undefined Bool.false_ne_true
  | some samples => exact iff_of_true (returned_some _) rfl

theorem opsGain_returned_iff {gain : P.Double} :
    Returned (opsGain P audio gain) ↔
      P.alloc (audioBytes audio.samples.length) = true ∧
        ∀ x ∈ audio.samples, (P.toInt32 (P.mul gain (P.ofInt x.toInt))).isSome = true := by
  rw [opsGain, returned_alloc_iff, returned_mapM_iff]

/-- TRIM returns a buffer if it cuts off less than the whole payload. -/
theorem opsTrim_returned_iff {leftSeconds rightSeconds : P.Double}
    (hlen : audio.words.length < 2 ^ 64) :
    Returned (opsTrim P audio leftSeconds rightSeconds) ↔
      ∃ left right, sampleCount P audio leftSeconds = some left ∧
        sampleCount P audio rightSeconds = some right ∧
        left.toNat + right.toNat < audio.samples.length ∧
        P.alloc (audioBytes (audio.samples.length - (left.toNat + right.toNat))) = true := by
  have hn := toNat_samples hlen
  rw [Audio.words, List.length_cons, List.length_cons] at hlen
  constructor
  · rintro ⟨out, h⟩
    have hcounts := h
    simp only [opsTrim, Option.bind_eq_some_iff] at hcounts
    obtain ⟨left, hleft, right, hright, -⟩ := hcounts
    rw [opsTrim_eq P hleft hright] at h
    rcases hsome : trimLength P (UInt64.ofNat audio.samples.length) left right with - | copyLen
    · rw [hsome] at h
      cases h
    · rw [hsome] at h
      obtain ⟨samples, hload, -⟩ := Option.map_eq_some_iff.mp h
      have hinside : ¬ audio.samples.length < left.toNat + copyLen.toNat := by
        rw [← loadSamples_eq_none_iff, hload]
        exact Option.some_ne_none _
      obtain ⟨hlt, hcopy, halloc⟩ := (trimLength_eq_some_iff P).mp hsome
      have hl := left.toNat_lt
      have hr := right.toNat_lt
      rw [hn] at hlt hcopy
      have hsum : (left.toNat + right.toNat) % 2 ^ 64 = left.toNat + right.toNat := by omega
      rw [hsum] at hlt hcopy
      rw [hcopy] at halloc
      exact ⟨left, right, hleft, hright, hlt, halloc⟩
  · rintro ⟨left, right, hleft, hright, hlt, halloc⟩
    have hsum : (left.toNat + right.toNat) % 2 ^ 64 = left.toNat + right.toNat := by omega
    obtain ⟨copyLen, hcopy⟩ : ∃ copyLen : UInt64, copyLen.toNat =
        audio.samples.length - (left.toNat + right.toNat) :=
      ⟨UInt64.ofNat (audio.samples.length - (left.toNat + right.toNat)),
        by rw [UInt64.toNat_ofNat', Nat.mod_eq_of_lt (by omega)]⟩
    have hsome : trimLength P (UInt64.ofNat audio.samples.length) left right = some copyLen := by
      rw [trimLength_eq_some_iff, hsum, hn]
      exact ⟨hlt, hcopy, hcopy ▸ halloc⟩
    rw [opsTrim_eq P hleft hright, hsome]
    dsimp only
    rw [loadSamples, if_pos (by omega)]
    exact ⟨_, rfl⟩

/-- FADE returns a buffer if the machine converts every sample with its gain. -/
theorem opsFade_returned_iff {fadeInSeconds fadeOutSeconds : P.Double} :
    Returned (opsFade P audio fadeInSeconds fadeOutSeconds) ↔
      P.alloc (audioBytes audio.samples.length) = true ∧
        ∃ fadeIn fadeOut, sampleCount P audio fadeInSeconds = some fadeIn ∧
          sampleCount P audio fadeOutSeconds = some fadeOut ∧
          ∀ p ∈ audio.samples.zipIdx, (P.toInt32 (P.mul (P.ofInt p.1.toInt)
            (fadeGain P audio.samples.length (min fadeIn.toNat audio.samples.length)
              (min fadeOut.toNat audio.samples.length) p.2))).isSome = true := by
  simp only [opsFade]
  rw [returned_alloc_iff]
  refine and_congr_right fun _ => ?_
  cases sampleCount P audio fadeInSeconds with
  | none => exact iff_of_false not_returned_undefined fun ⟨_, _, h, _⟩ => by cases h
  | some fadeIn =>
    cases sampleCount P audio fadeOutSeconds with
    | none => exact iff_of_false not_returned_undefined fun ⟨_, _, _, h, _⟩ => by cases h
    | some fadeOut =>
      simp only [Option.bind_some, Option.some.injEq, exists_and_left, exists_eq_left']
      exact returned_mapM_iff _

/-- PAN returns a buffer for whole frames of at least two channels. -/
theorem opsPan_returned_iff {pan : P.Double} :
    Returned (opsPan P audio pan) ↔
      2 ≤ audio.channels.toNat ∧ P.alloc (audioBytes audio.samples.length) = true ∧
        audio.samples.length % audio.channels.toNat ≠ 1 ∧
        ∀ p ∈ audio.samples.zipIdx,
          (p.2 % audio.channels.toNat = 0 →
            (P.toInt32 (P.mul (P.ofInt p.1.toInt) (panLeftGain P pan))).isSome = true) ∧
          (p.2 % audio.channels.toNat = 1 →
            (P.toInt32 (P.mul (P.ofInt p.1.toInt) (panRightGain P pan))).isSome = true) := by
  simp only [opsPan]
  by_cases hchannels : audio.channels.toNat < 2
  · rw [if_pos hchannels]
    exact iff_of_false not_returned_null fun h => absurd h.1 (not_le.mpr hchannels)
  · rw [if_neg hchannels, returned_alloc_iff, and_iff_right (not_lt.mp hchannels)]
    refine and_congr_right fun _ => ?_
    by_cases hrest : audio.samples.length % audio.channels.toNat = 1
    · rw [if_pos hrest]
      exact iff_of_false not_returned_undefined fun h => h.1 hrest
    · rw [if_neg hrest, returned_mapM_iff, and_iff_right hrest]
      refine forall₂_congr fun p _ => ?_
      split_ifs with hleft hright
      · exact ⟨fun h => ⟨fun _ => h, fun hone => absurd (hleft.symm.trans hone) zero_ne_one⟩,
          fun h => h.1 hleft⟩
      · exact ⟨fun h => ⟨fun hzero => absurd hzero hleft, fun _ => h⟩, fun h => h.2 hright⟩
      · exact iff_of_true rfl ⟨fun h => absurd h hleft, fun h => absurd h hright⟩

/-- PAD returns a buffer if the sum of the sizes is less than 2^64. -/
theorem opsPad_returned_iff {leftSeconds rightSeconds : P.Double}
    (hlen : audio.words.length < 2 ^ 64) :
    Returned (opsPad P audio leftSeconds rightSeconds) ↔
      ∃ left right, sampleCount P audio leftSeconds = some left ∧
        sampleCount P audio rightSeconds = some right ∧
        2 + left.toNat + audio.samples.length + right.toNat < 2 ^ 64 ∧
        P.alloc (4 * (2 + left.toNat + audio.samples.length + right.toNat)) = true := by
  have hn := toNat_samples hlen
  constructor
  · rintro ⟨out, h⟩
    have hcounts := h
    simp only [opsPad, Option.bind_eq_some_iff] at hcounts
    obtain ⟨left, hleft, right, hright, -⟩ := hcounts
    rw [opsPad_eq P hleft hright] at h
    rcases hsome : padLength P (UInt64.ofNat audio.samples.length) left right with - | outLen
    · rw [hsome] at h
      cases h
    · rw [hsome] at h
      dsimp only at h
      split_ifs at h with hroom
      obtain ⟨hout, halloc⟩ := (padLength_eq_some_iff P).mp hsome
      have hr := right.toNat_lt
      rw [hn] at hout
      have hsum : 2 + left.toNat + audio.samples.length + right.toNat < 2 ^ 64 := by omega
      rw [Nat.mod_eq_of_lt hsum] at hout
      rw [hout] at halloc
      exact ⟨left, right, hleft, hright, hsum, halloc⟩
  · rintro ⟨left, right, hleft, hright, hsum, halloc⟩
    obtain ⟨outLen, hout⟩ : ∃ outLen : UInt64, outLen.toNat =
        2 + left.toNat + audio.samples.length + right.toNat :=
      ⟨UInt64.ofNat (2 + left.toNat + audio.samples.length + right.toNat),
        by rw [UInt64.toNat_ofNat', Nat.mod_eq_of_lt hsum]⟩
    have hsome : padLength P (UInt64.ofNat audio.samples.length) left right = some outLen := by
      rw [padLength_eq_some_iff, hn, Nat.mod_eq_of_lt hsum]
      exact ⟨hout, hout ▸ halloc⟩
    rw [opsPad_eq P hleft hright, hsome]
    dsimp only
    rw [if_pos (by omega)]
    exact ⟨_, rfl⟩

/-- CLIP returns a buffer if its bounds are in order. -/
theorem opsClip_returned_iff {minVal maxVal : Int32} :
    Returned (opsClip P audio minVal maxVal) ↔
      minVal ≤ maxVal ∧ P.alloc (audioBytes audio.samples.length) = true := by
  rw [opsClip]
  by_cases hlt : maxVal < minVal
  · rw [if_pos hlt]
    exact iff_of_false not_returned_null fun h => absurd h.1 (Int32.not_le.mpr hlt)
  · rw [if_neg hlt, returned_alloc_iff, and_iff_right (Int32.not_lt.mp hlt),
      and_iff_left (returned_some _)]

/-- SPLIT of two channels returns a buffer. -/
theorem opsSplit_returned_iff {channel : UInt16} (hchannels : audio.channels = 2)
    (hchannel : channel ≤ 1) :
    Returned (opsSplit P audio channel) ↔
      P.alloc (audioBytes (audio.samples.length / 2)) = true := by
  have hsome : ∀ f ∈ List.range (audio.samples.length / 2),
      (audio.samples[f * 2 + channel.toNat]?).isSome = true := by
    intro f hf
    have hlt := List.mem_range.mp hf
    have hle : channel.toNat ≤ 1 := UInt16.le_iff_toNat_le.mp hchannel
    rw [Option.isSome_iff_ne_none, Ne, List.getElem?_eq_none_iff]
    omega
  simp only [opsSplit, ne_eq, hchannels, not_true_eq_false, if_false]
  rw [returned_alloc_iff, returned_mapM_iff, and_iff_left hsome]

/-! ### What the stages pack -/

namespace Stage

/-- The operation that the command of a stage calls. -/
def op (P : Platform) (audio : Audio) : Stage P.Double → Option (Option Audio)
  | .gain factor => opsGain P audio factor
  | .trim left right => opsTrim P audio left right
  | .fade fadeIn fadeOut => opsFade P audio fadeIn fadeOut
  | .pan position => opsPan P audio position
  | .pad left right => opsPad P audio left right
  | .clip min max => opsClip P audio min.toInt32 max.toInt32
  | .split channel => opsSplit P audio channel.toUInt64.toUInt16

/-- The error of the command of a stage in front of the operation. -/
def refusal (P : Platform) (audio : Audio) : Stage P.Double → Option String
  | .pan position =>
    if P.lt position (P.ofInt (-1)) ∨ P.lt (P.ofInt 1) position then
      some "Pan must be between -1.0 and +1.0."
    else none
  | .split channel =>
    if audio.channels ≠ 2 then some "Invalid number of channels."
    else if 1 < channel.toUInt64.toUInt16 then some "Invalid channel number."
    else none
  | _ => none

theorem transform_eq (stage : Stage P.Double) :
    stage.transform P audio =
      match stage.refusal P audio with
      | some message => throw message
      | none => opResult (stage.op P audio) := by
  cases stage
  case pan position =>
    rw [transform, refusal, op]
    split_ifs <;> rfl
  case split channel =>
    simp only [transform, refusal, op]
    split_ifs <;> rfl
  all_goals rfl

/-- The arguments of a stage fit the audio: the command replies with an error, or its operation can
carry them out. -/
def Fits (P : Platform) (audio : Audio) : Stage P.Double → Prop
  | .gain factor => P.alloc (audioBytes audio.samples.length) = true ∧
      ∀ x ∈ audio.samples, (P.toInt32 (P.mul factor (P.ofInt x.toInt))).isSome = true
  | .trim leftSeconds rightSeconds => ∃ left right,
      sampleCount P audio leftSeconds = some left ∧
      sampleCount P audio rightSeconds = some right ∧
      left.toNat + right.toNat < audio.samples.length ∧
      P.alloc (audioBytes (audio.samples.length - (left.toNat + right.toNat))) = true
  | .fade fadeInSeconds fadeOutSeconds => P.alloc (audioBytes audio.samples.length) = true ∧
      ∃ fadeIn fadeOut, sampleCount P audio fadeInSeconds = some fadeIn ∧
        sampleCount P audio fadeOutSeconds = some fadeOut ∧
        ∀ p ∈ audio.samples.zipIdx, (P.toInt32 (P.mul (P.ofInt p.1.toInt)
          (fadeGain P audio.samples.length (min fadeIn.toNat audio.samples.length)
            (min fadeOut.toNat audio.samples.length) p.2))).isSome = true
  | .pan position => P.lt position (P.ofInt (-1)) = true ∨ P.lt (P.ofInt 1) position = true ∨
      2 ≤ audio.channels.toNat ∧ P.alloc (audioBytes audio.samples.length) = true ∧
        audio.samples.length % audio.channels.toNat ≠ 1 ∧
        ∀ p ∈ audio.samples.zipIdx,
          (p.2 % audio.channels.toNat = 0 →
            (P.toInt32 (P.mul (P.ofInt p.1.toInt) (panLeftGain P position))).isSome = true) ∧
          (p.2 % audio.channels.toNat = 1 →
            (P.toInt32 (P.mul (P.ofInt p.1.toInt) (panRightGain P position))).isSome = true)
  | .pad leftSeconds rightSeconds => ∃ left right,
      sampleCount P audio leftSeconds = some left ∧
      sampleCount P audio rightSeconds = some right ∧
      2 + left.toNat + audio.samples.length + right.toNat < 2 ^ 64 ∧
      P.alloc (4 * (2 + left.toNat + audio.samples.length + right.toNat)) = true
  | .clip min max => min.toInt32 ≤ max.toInt32 ∧
      P.alloc (audioBytes audio.samples.length) = true
  | .split channel => audio.channels ≠ 2 ∨ 1 < channel.toUInt64.toUInt16 ∨
      P.alloc (audioBytes (audio.samples.length / 2)) = true

/-- The arguments fit if and only if the command refuses them or the operation returns a buffer. -/
theorem fits_iff (stage : Stage P.Double) (hlen : audio.words.length < 2 ^ 64) :
    stage.Fits P audio ↔
      stage.refusal P audio ≠ none ∨
        stage.refusal P audio = none ∧ Returned (stage.op P audio) := by
  cases stage
  case gain factor => simp [Fits, refusal, op, opsGain_returned_iff]
  case trim left right => simp [Fits, refusal, op, opsTrim_returned_iff hlen]
  case fade fadeIn fadeOut => simp [Fits, refusal, op, opsFade_returned_iff]
  case pan position =>
    rw [Fits, refusal, op, ← or_assoc, opsPan_returned_iff]
    by_cases h : P.lt position (P.ofInt (-1)) = true ∨ P.lt (P.ofInt 1) position = true
    · simp [h]
    · simp [h]
  case pad left right => simp [Fits, refusal, op, opsPad_returned_iff hlen]
  case clip min max => simp [Fits, refusal, op, opsClip_returned_iff]
  case split channel =>
    rw [Fits, refusal, op]
    by_cases hchannels : audio.channels = 2
    · by_cases hchannel : 1 < channel.toUInt64.toUInt16
      · simp [hchannels, hchannel]
      · simp [hchannels, hchannel, opsSplit_returned_iff hchannels (UInt16.not_lt.mp hchannel)]
    · simp [hchannels]

variable (b : Backend P)

/-- The command of a stage replies with an error, or the operation returned a buffer with at least
the two header words, and this is what it packs. -/
def PacksResult (stage : Stage P.Double) (cmd : Command P.Double) (out : Buffer P.Double)
    (audio : Audio) (s : Store) (isFinal : Bool) : Prop :=
  (∃ message, (command b stage.name).run (serializeArgs cmd) out s isFinal =
      some (packError [] (ascii (command b stage.name).name) message, s)) ∨
    ∃ result, stage.op P audio = some (some result) ∧ 2 ≤ result.words.length ∧
      (command b stage.name).run (serializeArgs cmd) out s isFinal =
        some (packS32v [] (if isFinal then result.words.drop 2 else result.words), s)

variable {b} {stage : Stage P.Double} {cmd : Command P.Double} {out : Buffer P.Double}

theorem packsResult_iff_returned (haccept : stage.Accepted) (hcmd : cmd.args = stage.args)
    (hout : bufferSamples out = some audio.words) (s : Store) (isFinal : Bool) :
    stage.PacksResult b cmd out audio s isFinal ↔
      stage.refusal P audio ≠ none ∨
        stage.refusal P audio = none ∧ Returned (stage.op P audio) := by
  have hrun := @run_accepted P b stage haccept cmd hcmd out audio hout s isFinal
  rw [reply, transform_eq] at hrun
  rcases hrefusal : stage.refusal P audio with - | message
  · simp only [hrefusal] at hrun
    rw [PacksResult, hrun]
    rcases hop : stage.op P audio with - | - | result
    · refine iff_of_false ?_ fun h => ?_
      · rintro (⟨message, h⟩ | ⟨result, h, -⟩)
        · cases h
        · cases h
      · exact h.elim (fun h => h rfl) fun h => not_returned_undefined h.2
    · refine iff_of_false ?_ fun h => ?_
      · rintro (⟨message, h⟩ | ⟨result, h, -⟩)
        · cases h
        · cases h
      · exact h.elim (fun h => h rfl) fun h => not_returned_null h.2
    · exact iff_of_true (.inr ⟨result, rfl, Nat.le_add_left 2 _, rfl⟩)
        (.inr ⟨rfl, returned_some result⟩)
  · simp only [hrefusal] at hrun
    exact iff_of_true (.inl ⟨ascii message, hrun⟩) (.inl (Option.some_ne_none _))

/-- **Which stages pack a result**: those whose arguments fit the audio. -/
theorem packsResult_iff (haccept : stage.Accepted) (hcmd : cmd.args = stage.args)
    (hout : bufferSamples out = some audio.words) (hlen : audio.words.length < 2 ^ 64) (s : Store)
    (isFinal : Bool) :
    stage.PacksResult b cmd out audio s isFinal ↔ stage.Fits P audio := by
  rw [packsResult_iff_returned haccept hcmd hout, fits_iff stage hlen]

/-- TRIM by one of three seconds at both ends. -/
theorem packsResult_trim :
    (Stage.trim (some 1) (some 1) : Stage Platform.rational.Double).PacksResult .idle
      ⟨0, ascii "TRIM", [.float (some 1), .float (some 1)]⟩
      (packS32v [] (Audio.words ⟨1, 0x00010010, [7, 8, 9]⟩)).2 ⟨1, 0x00010010, [7, 8, 9]⟩
      (Store.init (.small 1 (by decide))) true := by
  refine (packsResult_iff (by decide) rfl (bufferSamples_packS32v (by decide)) (by decide) _
    true).mpr ?_
  exact ⟨1, 1, by decide +kernel, by decide +kernel, by decide, by decide⟩

/-- TRIM of the whole vector, PAN of one channel, and CLIP at 2^31: the operation returns the null
pointer, and the command packs it. -/
theorem not_packsResult_null :
    (¬ (Stage.trim (some 1) (some 0) : Stage Platform.rational.Double).PacksResult .idle
      ⟨0, ascii "TRIM", [.float (some 1), .float (some 0)]⟩
      (packS32v [] (Audio.words ⟨1, 0x00010010, [7]⟩)).2 ⟨1, 0x00010010, [7]⟩
      (Store.init (.small 1 (by decide))) true) ∧
    (¬ (Stage.pan (some 0) : Stage Platform.rational.Double).PacksResult .idle
      ⟨0, ascii "PAN", [.float (some 0)]⟩
      (packS32v [] (Audio.words ⟨1, 0x00010010, [7]⟩)).2 ⟨1, 0x00010010, [7]⟩
      (Store.init (.small 1 (by decide))) true) ∧
    ¬ (Stage.clip (-1) (2 ^ 31) : Stage Platform.rational.Double).PacksResult .idle
      ⟨0, ascii "CLIP", [.int (-1), .int (2 ^ 31)]⟩
      (packS32v [] (Audio.words ⟨1, 0x00010010, [7]⟩)).2 ⟨1, 0x00010010, [7]⟩
      (Store.init (.small 1 (by decide))) true := by
  have hout := @bufferSamples_packS32v Platform.rational.Double
    (Audio.words ⟨1, 0x00010010, [7]⟩) (by decide)
  refine ⟨fun h => ?_, fun h => ?_, fun h => ?_⟩
  · rcases (packsResult_iff_returned (by decide) rfl hout _ true).mp h with h | ⟨-, out, h⟩
    · exact h rfl
    · have hnull : op .rational ⟨1, 0x00010010, [7]⟩ (.trim (some 1) (some 0)) = some none := by
        decide +kernel
      cases hnull.symm.trans h
  · rcases (packsResult_iff_returned (by decide) rfl hout _ true).mp h with h | ⟨-, out, h⟩
    · exact h (by decide +kernel)
    · have hnull : op .rational ⟨1, 0x00010010, [7]⟩ (.pan (some 0)) = some none := by
        decide +kernel
      cases hnull.symm.trans h
  · rcases (packsResult_iff_returned (by decide) rfl hout _ true).mp h with h | ⟨-, out, h⟩
    · exact h rfl
    · have hnull : op .rational ⟨1, 0x00010010, [7]⟩ (.clip (-1) (2 ^ 31)) = some none := by
        decide +kernel
      cases hnull.symm.trans h

end Stage

end Racs
