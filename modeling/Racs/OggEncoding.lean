import Racs.Encoders

/-!
# Ogg files

The samples are handed to the encoder as they should be when they are whole frames of 20 ms and the
encoder takes all of them. The size that is returned counts what the encoder stores with the frames,
but not what it stores when it is drained.

## Main definitions

* `Racs.EncodesOgg` — the frames are the samples, and all bytes are counted.
* `Racs.OpusEncoder.stores` — all bytes that an encoder stores.

## Main results

* `Racs.samplesPerChannel_eq` — a frame has a fiftieth of the rate.
* `Racs.encodesOgg_iff` — what is encoded in this way.
* `Racs.isSome_encodeOggBytes_iff` — what is encoded without fault.
-/

namespace Racs

open ByteBuffer

variable {E : OpusEncoder}

/-! ### The length of a frame -/

/-- A frame has the fiftieth part of the samples of a second. -/
theorem samplesPerChannel_eq (R : DoubleRounding) (sampleRate : UInt32) :
    samplesPerChannel R sampleRate = sampleRate.toNat / 50 := by
  have hrate := sampleRate.toNat_lt
  obtain ⟨k, hk⟩ : ∃ k, k = sampleRate.toNat / 50 := ⟨_, rfl⟩
  obtain ⟨r, hr⟩ : ∃ r, r = sampleRate.toNat % 50 := ⟨_, rfl⟩
  have hsum : (sampleRate.toNat : ℚ) = 50 * k + r := by
    exact_mod_cast (by omega : sampleRate.toNat = 50 * k + r)
  have hk0 : (0 : ℚ) ≤ k := Nat.cast_nonneg k
  have hr0 : (0 : ℚ) ≤ r := Nat.cast_nonneg r
  have hk1 : (k : ℚ) ≤ 2 ^ 32 := by exact_mod_cast (by omega : k ≤ 2 ^ 32)
  have hr1 : (r : ℚ) ≤ 49 := by exact_mod_cast (by omega : r ≤ 49)
  -- the product is between two multiples of 1 / 64, and so is its rounding
  have hlow : ((64 * k : ℕ) : ℚ) / 64 ≤ oggFramesize20ms * sampleRate.toNat := by
    rw [hsum, oggFramesize20ms]
    push_cast
    linarith
  have hhigh : oggFramesize20ms * sampleRate.toNat ≤ ((64 * k + 63 : ℕ) : ℚ) / 64 := by
    rw [hsum, oggFramesize20ms]
    push_cast
    linarith
  have hlow' := R.monotone hlow
  have hhigh' := R.monotone hhigh
  rw [R.exact _ (by omega)] at hlow' hhigh'
  have hfloor : ⌊R.round (oggFramesize20ms * sampleRate.toNat)⌋ = (k : ℤ) := by
    rw [Int.floor_eq_iff]
    push_cast at hlow' hhigh' ⊢
    constructor <;> linarith
  rw [samplesPerChannel, hfloor, Int.toNat_natCast, hk]

/-! ### The encoder -/

/-- The encoder behind some frames, none if it has failed. -/
def OpusEncoder.writes (E : OpusEncoder) (enc : E.State) (frames : List (List UInt8)) :
    Option E.State := frames.foldlM (fun enc frame => (E.write enc frame).map Prod.fst) enc

/-- The bytes that the encoder stores with some frames that it takes, and when it is drained. -/
def OpusEncoder.stores (E : OpusEncoder) (enc : E.State) : List (List UInt8) → List UInt8
  | [] => E.drain enc
  | frame :: frames =>
    match E.write enc frame with
    | none => []
    | some (enc, bytes) => bytes ++ E.stores enc frames

/-! ### What is encoded -/

/-- Audio in a format that the encoder accepts. -/
structure OggInput (E : OpusEncoder) where
  encode : Encode
  input : List Int32
  samples : ℕ
  accepted : (E.create encode.sampleRate encode.channels).isSome
  bitDepth_eq : encode.bitDepth = 16 ∨ encode.bitDepth = 24
  le_length : samples * encode.channels.toNat ≤ input.length

/-- The samples in 16 bits. -/
def OggInput.pcm (x : OggInput E) : List UInt8 :=
  (x.input.take (x.samples * x.encode.channels.toNat)).flatMap
    (if x.encode.bitDepth = 16 then convertS32S16 else convertS32S16D8)

/-- The encoder is handed the samples, and perhaps silence behind them, nothing is read past them,
and the size counts all bytes that are stored. -/
def EncodesOgg (R : DoubleRounding) (x : OggInput E) : Prop :=
  ∃ passes result, encodeOgg E R x.encode x.input x.samples passes = some (some result) ∧
    (∃ silence, result.handed.flatten = x.pcm ++ List.replicate silence 0) ∧
    result.size = result.stored.length

/-- The first frames of some samples. -/
def oggFrames (frameSize : ℕ) : ℕ → List UInt8 → List (List UInt8)
  | 0, _ => []
  | n + 1, pcm => pcm.take frameSize :: oggFrames frameSize n (pcm.drop frameSize)

/-- The samples in frames of 20 ms. -/
def OggInput.frames (x : OggInput E) : List (List UInt8) :=
  let frame := x.encode.sampleRate.toNat / 50
  oggFrames (frame * x.encode.channels.toNat * 2) (x.samples / frame) x.pcm

theorem flatten_oggFrames {frameSize n : ℕ} {pcm : List UInt8} (h : pcm.length = n * frameSize) :
    (oggFrames frameSize n pcm).flatten = pcm := by
  induction n generalizing pcm with
  | zero => exact (List.eq_nil_of_length_eq_zero (by omega)).symm
  | succ n ih =>
    rw [Nat.succ_mul] at h
    rw [oggFrames, List.flatten_cons, ih (by rw [List.length_drop]; omega), List.take_append_drop]

theorem length_of_mem_oggFrames {frameSize n : ℕ} {pcm : List UInt8}
    (h : pcm.length = n * frameSize) :
    ∀ frame ∈ oggFrames frameSize n pcm, frame.length = frameSize := by
  induction n generalizing pcm with
  | zero => exact fun _ hframe => absurd hframe List.not_mem_nil
  | succ n ih =>
    rw [Nat.succ_mul] at h
    rw [oggFrames, List.forall_mem_cons, List.length_take]
    exact ⟨by omega, ih (by rw [List.length_drop]; omega)⟩

theorem length_oggFrames (frameSize n : ℕ) (pcm : List UInt8) :
    (oggFrames frameSize n pcm).length = n := by
  induction n generalizing pcm with
  | zero => rfl
  | succ n ih => rw [oggFrames, List.length_cons, ih]

/-- Frames of one size are the frames of what they hold. -/
theorem oggFrames_flatten {frameSize : ℕ} {frames : List (List UInt8)}
    (h : ∀ frame ∈ frames, frame.length = frameSize) :
    oggFrames frameSize frames.length frames.flatten = frames := by
  induction frames with
  | nil => rfl
  | cons frame frames ih =>
    obtain ⟨hframe, hframes⟩ := List.forall_mem_cons.mp h
    rw [List.length_cons, oggFrames, List.flatten_cons, List.take_left' hframe,
      List.drop_left' hframe, ih hframes]

/-! ### The loop -/

variable {pcm : List UInt8} {frameSize : ℕ} {ogg ogg' : Ogg E}

/-- What `racs_ogg` is behind a frame. -/
def Ogg.behind (ogg : Ogg E) (enc : E.State) (frame bytes : List UInt8) : Ogg E :=
  ⟨enc, ogg.rPos + frame.length, ogg.wPos + bytes.length, ogg.handed ++ [frame],
    ogg.stored ++ bytes⟩

theorem oggPass_of_slice {frame : List UInt8} (hlt : ogg.rPos < pcm.length)
    (hslice : slice pcm ogg.rPos frameSize = some frame) :
    oggPass pcm pcm.length frameSize ogg = some (match E.write ogg.enc frame with
      | none => .destroyed (oggDestroy { ogg with handed := ogg.handed ++ [frame] })
      | some (enc, bytes) => .running (ogg.behind enc frame bytes)) := by
  have hframe : frame.length = frameSize := by
    obtain ⟨hinside, rfl⟩ := slice_eq_some.mp hslice
    rw [List.length_take, List.length_drop]
    omega
  rw [oggPass, if_pos hlt, hslice, Option.map_some]
  rcases E.write ogg.enc frame with - | ⟨enc, bytes⟩
  · rfl
  · dsimp only
    rw [Ogg.behind, hframe]
    rfl

theorem oggLoop_of_le {n : ℕ} (h : pcm.length ≤ ogg.rPos) :
    oggLoop pcm pcm.length frameSize (n + 1) ogg = some (.ended ogg) := by
  rw [oggLoop, oggPass, if_neg (Nat.not_lt.mpr h), Option.bind_some]

theorem writes_cons {enc enc' : E.State} {frame : List UInt8} {frames : List (List UInt8)} :
    E.writes enc (frame :: frames) = some enc' ↔
      ∃ enc₁ bytes, E.write enc frame = some (enc₁, bytes) ∧ E.writes enc₁ frames = some enc' := by
  rw [OpusEncoder.writes, List.foldlM_cons, Option.bind_eq_bind, Option.bind_eq_some_iff]
  constructor
  · rintro ⟨enc₁, hstep, hrest⟩
    obtain ⟨⟨_, bytes⟩, hwrite, rfl⟩ := Option.map_eq_some_iff.mp hstep
    exact ⟨_, bytes, hwrite, hrest⟩
  · rintro ⟨enc₁, bytes, hwrite, hrest⟩
    exact ⟨enc₁, Option.map_eq_some_iff.mpr ⟨_, hwrite, rfl⟩, hrest⟩

/-- The loop over frames that the encoder takes. -/
theorem oggLoop_frames {frames : List (List UInt8)} {enc' : E.State}
    (hframes : ∀ frame ∈ frames, frame.length = frameSize) (hpos : frames ≠ [] → 0 < frameSize)
    (hrest : pcm.drop ogg.rPos = frames.flatten) (hcount : ogg.wPos = ogg.stored.length)
    (hwrites : E.writes ogg.enc frames = some enc') :
    ∃ ogg', oggLoop pcm pcm.length frameSize (frames.length + 1) ogg = some (.ended ogg') ∧
      ogg'.enc = enc' ∧ ogg'.handed = ogg.handed ++ frames ∧ ogg'.wPos = ogg'.stored.length ∧
      (oggDestroy ogg').stored = ogg.stored ++ E.stores ogg.enc frames := by
  induction frames generalizing ogg with
  | nil =>
    have hend : pcm.length ≤ ogg.rPos := List.drop_eq_nil_iff.mp hrest
    exact ⟨ogg, oggLoop_of_le hend, Option.some.inj hwrites, (List.append_nil _).symm, hcount, rfl⟩
  | cons frame frames ih =>
    obtain ⟨hframe, hframes⟩ := List.forall_mem_cons.mp hframes
    obtain ⟨enc₁, bytes, hwrite, hwrites⟩ := writes_cons.mp hwrites
    have hpos := hpos (List.cons_ne_nil frame frames)
    rw [List.flatten_cons] at hrest
    have hlength := congrArg List.length hrest
    rw [List.length_drop, List.length_append, hframe] at hlength
    have hslice : slice pcm ogg.rPos frameSize = some frame := by
      rw [slice_eq_some, hrest, List.take_left' hframe]
      exact ⟨by omega, rfl⟩
    have hnext : pcm.drop (ogg.behind enc₁ frame bytes).rPos = frames.flatten := by
      rw [Ogg.behind, ← List.drop_drop, hrest, List.drop_left]
    obtain ⟨ogg', hloop, henc, hhanded, hcount', hstored⟩ := @ih (ogg.behind enc₁ frame bytes)
      hframes (fun _ => hpos) hnext (by rw [Ogg.behind, hcount, List.length_append]) hwrites
    refine ⟨ogg', ?_, henc, ?_, hcount', ?_⟩
    · rw [List.length_cons, oggLoop, oggPass_of_slice (by omega) hslice, hwrite]
      exact hloop
    · rw [hhanded, Ogg.behind, List.append_assoc, List.singleton_append]
    · rw [hstored, OpusEncoder.stores, hwrite, Ogg.behind, List.append_assoc]

/-- A loop that has come to its end has handed over whole frames. -/
theorem of_oggLoop {n : ℕ} (h : oggLoop pcm pcm.length frameSize n ogg = some (.ended ogg'))
    (hcount : ogg.wPos = ogg.stored.length) :
    ∃ frames, (∀ frame ∈ frames, frame.length = frameSize) ∧ (frameSize = 0 → frames = []) ∧
      pcm.drop ogg.rPos = frames.flatten ∧ E.writes ogg.enc frames = some ogg'.enc ∧
      ogg'.handed = ogg.handed ++ frames ∧ ogg'.wPos = ogg'.stored.length ∧
      (oggDestroy ogg').stored = ogg.stored ++ E.stores ogg.enc frames := by
  induction n generalizing ogg with
  | zero => cases h
  | succ n ih =>
    by_cases hlt : ogg.rPos < pcm.length
    · rw [oggLoop] at h
      obtain ⟨l, hpass, hloop⟩ := Option.bind_eq_some_iff.mp h
      rcases hslice : slice pcm ogg.rPos frameSize with - | frame
      · rw [oggPass, if_pos hlt, hslice] at hpass
        cases hpass
      · obtain rfl := Option.some.inj ((oggPass_of_slice hlt hslice).symm.trans hpass)
        rcases hwrite : E.write ogg.enc frame with - | ⟨enc, bytes⟩
        · rw [hwrite] at hloop
          cases hloop
        · rw [hwrite] at hloop
          obtain ⟨hinside, hframe⟩ := slice_eq_some.mp hslice
          have hlength : frame.length = frameSize := by
            rw [← hframe, List.length_take, List.length_drop]
            omega
          obtain ⟨frames, hframes, hzero, hrest, hwrites, hhanded, hcount', hstored⟩ :=
            @ih (ogg.behind enc frame bytes) hloop (by rw [Ogg.behind, hcount, List.length_append])
          have hsplit : pcm.drop ogg.rPos = frame ++ frames.flatten := by
            rw [← hrest, Ogg.behind, ← List.drop_drop, hlength, ← hframe, List.take_append_drop]
          refine ⟨frame :: frames, List.forall_mem_cons.mpr ⟨hlength, hframes⟩, fun hframe => ?_,
            hsplit, writes_cons.mpr ⟨enc, bytes, hwrite, hwrites⟩, ?_, hcount', ?_⟩
          · -- frames without samples do not get the loop on
            rw [hzero hframe, List.eq_nil_of_length_eq_zero (hlength.trans hframe)] at hsplit
            exact absurd (List.drop_eq_nil_iff.mp hsplit) (Nat.not_le.mpr hlt)
          · rw [hhanded, Ogg.behind, List.append_assoc, List.singleton_append]
          · rw [hstored, OpusEncoder.stores, hwrite, Ogg.behind, List.append_assoc]
    · have hend := Nat.not_lt.mp hlt
      rw [oggLoop_of_le hend] at h
      cases h
      refine ⟨[], fun _ hframe => absurd hframe List.not_mem_nil, fun _ => rfl, ?_, rfl, ?_, hcount,
        rfl⟩
      · exact List.drop_eq_nil_iff.mpr hend
      · exact (List.append_nil _).symm

/-- A loop that comes to its end is not changed by more passes. -/
theorem oggLoop_of_ended {n m : ℕ} (h : oggLoop pcm pcm.length frameSize n ogg = some (.ended ogg'))
    (hle : n ≤ m) : oggLoop pcm pcm.length frameSize m ogg = some (.ended ogg') := by
  induction n generalizing ogg m with
  | zero => cases h
  | succ n ih =>
    obtain ⟨m, rfl⟩ := Nat.exists_eq_add_of_lt hle
    rw [oggLoop] at h ⊢
    obtain ⟨l, hpass, hloop⟩ := Option.bind_eq_some_iff.mp h
    rw [hpass, Option.bind_some]
    cases l with
    | running ogg => exact ih hloop (Nat.le_add_right n m)
    | ended ogg => exact hloop
    | destroyed ogg => exact hloop

/-! ### The size that is returned -/

variable {R : DoubleRounding} {x : OggInput E}

theorem length_flatMap_convert {convert : Int32 → List UInt8} {width : ℕ}
    (h : ∀ z, (convert z).length = width) (samples : List Int32) :
    (samples.flatMap convert).length = samples.length * width := by
  induction samples with
  | nil => exact (Nat.zero_mul width).symm
  | cons z samples ih =>
    rw [List.flatMap_cons, List.length_append, h, ih, List.length_cons, Nat.succ_mul, Nat.add_comm]

theorem OggInput.length_pcm (x : OggInput E) :
    x.pcm.length = x.samples * x.encode.channels.toNat * 2 := by
  rw [pcm, length_flatMap_convert, List.length_take, min_eq_left x.le_length]
  intro z
  split_ifs
  · exact length_writeUint16 _
  · exact length_writeUint16 _

theorem OggInput.channels_pos (x : OggInput E) : 0 < x.encode.channels.toNat := by
  rcases E.channels_of_create _ _ x.accepted with h | h <;> rw [h] <;> decide

/-- The samples are narrowed as long as the index does not overflow. -/
theorem encodeOgg_eq (R : DoubleRounding) (x : OggInput E) (passes : ℕ) :
    encodeOgg E R x.encode x.input x.samples passes =
      if x.samples * x.encode.channels.toNat < 2 ^ 31 then
        (oggWrite E R x.encode x.pcm x.samples passes).bind fun
          | .running _ => some none
          | .destroyed _ => none
          | .ended ogg => some (some ⟨ogg.wPos, (oggDestroy ogg).handed, (oggDestroy ogg).stored⟩)
      else none := by
  have hnarrow (convert : Int32 → List UInt8) :
      narrow convert x.input (x.samples * x.encode.channels.toNat) =
        if x.samples * x.encode.channels.toNat < 2 ^ 31 then
          some ((x.input.take (x.samples * x.encode.channels.toNat)).flatMap convert)
        else none := by
    rw [narrow]
    simp only [x.le_length, and_true]
  rw [encodeOgg, s32S16, s32S16D8, Nat.mul_comm x.encode.channels.toNat, hnarrow, hnarrow,
    OggInput.pcm]
  rcases x.bitDepth_eq with hdepth | hdepth
  · simp only [hdepth, if_true]
    split_ifs <;> rfl
  · have hne : ¬ (24 : UInt16) = 16 := by decide
    simp only [hdepth, hne, if_false, if_true]
    split_ifs <;> rfl

/-- The samples are whole frames, and these are the frames. -/
theorem OggInput.length_pcm_eq (x : OggInput E)
    (hframes : x.samples = 0 ∨ 0 < x.encode.sampleRate.toNat / 50 ∧
      x.encode.sampleRate.toNat / 50 ∣ x.samples) :
    x.pcm.length = x.samples / (x.encode.sampleRate.toNat / 50) *
      (x.encode.sampleRate.toNat / 50 * x.encode.channels.toNat * 2) := by
  rw [x.length_pcm]
  rcases hframes with hnone | ⟨-, hdvd⟩
  · rw [hnone, Nat.zero_div, Nat.zero_mul, Nat.zero_mul, Nat.zero_mul]
  · rw [← Nat.mul_assoc, ← Nat.mul_assoc, Nat.div_mul_cancel hdvd]

theorem OggInput.frameSize_pos (x : OggInput E)
    (hwhole : x.samples = 0 ∨ 0 < x.encode.sampleRate.toNat / 50 ∧
      x.encode.sampleRate.toNat / 50 ∣ x.samples) (hne : x.frames ≠ []) :
    0 < x.encode.sampleRate.toNat / 50 * x.encode.channels.toNat * 2 := by
  rcases hwhole with hnone | ⟨hpos, -⟩
  · refine absurd ?_ hne
    rw [OggInput.frames, hnone, Nat.zero_div, oggFrames]
  · exact Nat.mul_pos (Nat.mul_pos hpos x.channels_pos) Nat.two_pos

theorem length_flatten_frames {size : ℕ} {frames : List (List UInt8)}
    (h : ∀ frame ∈ frames, frame.length = size) : frames.flatten.length = frames.length * size := by
  induction frames with
  | nil => exact (Nat.zero_mul size).symm
  | cons frame frames ih =>
    obtain ⟨hframe, hframes⟩ := List.forall_mem_cons.mp h
    rw [List.flatten_cons, List.length_append, hframe, ih hframes, List.length_cons, Nat.succ_mul,
      Nat.add_comm]

/-- Frames of 20 ms that hold the samples. -/
theorem OggInput.frames_eq (x : OggInput E) {frames : List (List UInt8)}
    (hlength : ∀ frame ∈ frames, frame.length =
      x.encode.sampleRate.toNat / 50 * x.encode.channels.toNat * 2)
    (hzero : x.encode.sampleRate.toNat / 50 = 0 → frames = []) (hpcm : frames.flatten = x.pcm) :
    x.frames = frames ∧ (x.samples = 0 ∨ 0 < x.encode.sampleRate.toNat / 50 ∧
      x.encode.sampleRate.toNat / 50 ∣ x.samples) := by
  have htotal := length_flatten_frames hlength
  rw [hpcm, x.length_pcm, Nat.mul_assoc, Nat.mul_assoc, ← Nat.mul_assoc frames.length] at htotal
  have hsamples := Nat.eq_of_mul_eq_mul_right (Nat.mul_pos x.channels_pos Nat.two_pos) htotal
  have hcount : x.samples / (x.encode.sampleRate.toNat / 50) = frames.length := by
    rcases Nat.eq_zero_or_pos (x.encode.sampleRate.toNat / 50) with hs | hs
    · rw [hs, Nat.div_zero, hzero hs, List.length_nil]
    · rw [hsamples, Nat.mul_div_cancel _ hs]
  refine ⟨?_, ?_⟩
  · rw [OggInput.frames, hcount, ← hpcm]
    exact oggFrames_flatten hlength
  · rcases Nat.eq_zero_or_pos (x.encode.sampleRate.toNat / 50) with hs | hs
    · rw [hs, Nat.mul_zero] at hsamples
      exact .inl hsamples
    · exact .inr ⟨hs, hsamples ▸ Nat.dvd_mul_left _ _⟩

/-- What is encoded: whole frames that the encoder takes. The size counts what is stored before the
encoder is drained. -/
theorem of_encodeOgg {passes : ℕ} {result : OggResult}
    (h : encodeOgg E R x.encode x.input x.samples passes = some (some result)) :
    x.samples * x.encode.channels.toNat < 2 ^ 31 ∧
      (x.samples = 0 ∨ 0 < x.encode.sampleRate.toNat / 50 ∧
        x.encode.sampleRate.toNat / 50 ∣ x.samples) ∧
      ∃ enc enc', E.create x.encode.sampleRate x.encode.channels = some enc ∧
        E.writes enc x.frames = some enc' ∧ result.stored = E.stores enc x.frames ∧
        result.size + (E.drain enc').length = result.stored.length := by
  simp only [encodeOgg_eq, oggWrite, oggInit, samplesPerChannel_eq, ← x.length_pcm] at h
  split_ifs at h with hlt
  obtain ⟨l, hwrite, hresult⟩ := Option.bind_eq_some_iff.mp h
  obtain ⟨ogg, hinit, hloop⟩ := Option.bind_eq_some_iff.mp hwrite
  obtain ⟨enc, hcreate, rfl⟩ := Option.map_eq_some_iff.mp hinit
  cases l with
  | running ogg => cases hresult
  | destroyed ogg => cases hresult
  | ended ogg =>
    obtain rfl := Option.some.inj (Option.some.inj hresult)
    obtain ⟨frames, hlength, hzero, hpcm, hwrites, -, hcount, hstored⟩ := of_oggLoop hloop rfl
    obtain ⟨hframes, hwhole⟩ := x.frames_eq hlength
      (fun hs => hzero (by rw [hs, Nat.zero_mul, Nat.zero_mul])) hpcm.symm
    refine ⟨hlt, hwhole, enc, ogg.enc, hcreate, hframes ▸ hwrites, hframes ▸ hstored, ?_⟩
    have hdrained : (oggDestroy ogg).stored = ogg.stored ++ E.drain ogg.enc := rfl
    rw [hdrained, List.length_append, hcount]

/-- Whole frames that the encoder takes are encoded, in no more passes than they have bytes. -/
theorem encodeOgg_frames (hlt : x.samples * x.encode.channels.toNat < 2 ^ 31)
    (hwhole : x.samples = 0 ∨ 0 < x.encode.sampleRate.toNat / 50 ∧
      x.encode.sampleRate.toNat / 50 ∣ x.samples)
    {enc enc' : E.State} (hcreate : E.create x.encode.sampleRate x.encode.channels = some enc)
    (hwrites : E.writes enc x.frames = some enc') :
    ∃ result, encodeOgg E R x.encode x.input x.samples
        (x.samples * x.encode.channels.toNat * 2 + 1) = some (some result) ∧
      result.handed = x.frames ∧ result.stored = E.stores enc x.frames ∧
      result.size + (E.drain enc').length = result.stored.length := by
  have hpcm := x.length_pcm_eq hwhole
  obtain ⟨ogg, hloop, rfl, hhanded, hcount, hstored⟩ := @oggLoop_frames E x.pcm
    (x.encode.sampleRate.toNat / 50 * x.encode.channels.toNat * 2) ⟨enc, 0, 0, [], []⟩ x.frames
    enc' (length_of_mem_oggFrames hpcm) (x.frameSize_pos hwhole) (flatten_oggFrames hpcm).symm rfl
    hwrites
  have hpasses : x.frames.length ≤ x.samples * x.encode.channels.toNat * 2 := by
    have hframes := Nat.div_le_self x.samples (x.encode.sampleRate.toNat / 50)
    have hchannels := Nat.le_mul_of_pos_right x.samples x.channels_pos
    rw [OggInput.frames, length_oggFrames]
    omega
  refine ⟨⟨ogg.wPos, (oggDestroy ogg).handed, (oggDestroy ogg).stored⟩, ?_, hhanded, hstored, ?_⟩
  · rw [encodeOgg_eq, if_pos hlt, oggWrite, oggInit, hcreate, samplesPerChannel_eq, ← x.length_pcm,
      Option.map_some, Option.bind_some, oggLoop_of_ended hloop (by rw [x.length_pcm]; omega),
      Option.bind_some]
  · have hdrained : (oggDestroy ogg).stored = ogg.stored ++ E.drain ogg.enc := rfl
    rw [hdrained, List.length_append, hcount]

/-- **What is encoded as it should be**: whole frames that the encoder takes, and with which it has
stored everything before it is drained. -/
theorem encodesOgg_iff (R : DoubleRounding) (x : OggInput E) :
    EncodesOgg R x ↔
      x.samples * x.encode.channels.toNat < 2 ^ 31 ∧
      (x.samples = 0 ∨ 0 < x.encode.sampleRate.toNat / 50 ∧
        x.encode.sampleRate.toNat / 50 ∣ x.samples) ∧
      ∃ enc enc', E.create x.encode.sampleRate x.encode.channels = some enc ∧
        E.writes enc x.frames = some enc' ∧ E.drain enc' = [] := by
  constructor
  · rintro ⟨passes, result, hencode, -, hsize⟩
    obtain ⟨hlt, hwhole, enc, enc', hcreate, hwrites, -, hcount⟩ := of_encodeOgg hencode
    exact ⟨hlt, hwhole, enc, enc', hcreate, hwrites, List.eq_nil_of_length_eq_zero (by omega)⟩
  · rintro ⟨hlt, hwhole, enc, enc', hcreate, hwrites, hdrain⟩
    obtain ⟨result, hencode, hhanded, -, hcount⟩ :=
      @encodeOgg_frames E R x hlt hwhole enc enc' hcreate hwrites
    refine ⟨_, result, hencode, ⟨0, ?_⟩, ?_⟩
    · rw [hhanded, List.replicate_zero, List.append_nil]
      exact flatten_oggFrames (x.length_pcm_eq hwhole)
    · rwa [hdrain] at hcount

/-- One sample is less than a frame. -/
theorem not_encodesOgg :
    ¬ ∀ (E : OpusEncoder) (R : DoubleRounding) (x : OggInput E), EncodesOgg R x := by
  intro h
  let R : DoubleRounding := ⟨id, monotone_id, fun _ _ => rfl⟩
  let x : OggInput silentEncoder := ⟨⟨1, 48000, 16⟩, [7], 1, by decide, .inl rfl, by decide⟩
  obtain ⟨passes, result, hencode, -⟩ := h silentEncoder R x
  have hframe : samplesPerChannel R x.encode.sampleRate = 960 :=
    (samplesPerChannel_eq R 48000).trans (by decide)
  rw [encodeOgg_eq, oggWrite, hframe] at hencode
  cases passes with
  | zero => cases hencode
  | succ n => cases hencode

/-! ### What is encoded without fault -/

/-- The samples are whole frames that the encoder takes, and of which it stores no more than there
is room for. -/
def OggInput.Fits (x : OggInput E) (size : ℕ) : Prop :=
  x.samples * x.encode.channels.toNat < 2 ^ 31 ∧
    (x.samples = 0 ∨ 0 < x.encode.sampleRate.toNat / 50 ∧
      x.encode.sampleRate.toNat / 50 ∣ x.samples) ∧
    ∃ enc enc', E.create x.encode.sampleRate x.encode.channels = some enc ∧
      E.writes enc x.frames = some enc' ∧ (E.stores enc x.frames).length ≤ size

/-- **What is encoded without fault.** -/
theorem isSome_encodeOggBytes_iff (R : DoubleRounding) (x : OggInput E) (size : ℕ) :
    (encodeOggBytes E R x.encode x.input x.samples size).isSome ↔ x.Fits size := by
  rw [encodeOggBytes]
  constructor
  · intro h
    split at h
    · rename_i result hencode
      obtain ⟨hlt, hwhole, enc, enc', hcreate, hwrites, hstored, -⟩ := of_encodeOgg hencode
      split_ifs at h with hroom
      · exact ⟨hlt, hwhole, enc, enc', hcreate, hwrites, hstored ▸ hroom⟩
      · cases h
    · cases h
  · rintro ⟨hlt, hwhole, enc, enc', hcreate, hwrites, hroom⟩
    obtain ⟨result, hencode, -, hstored, -⟩ :=
      @encodeOgg_frames E R x hlt hwhole enc enc' hcreate hwrites
    rw [hencode]
    dsimp only
    rw [if_pos (hstored ▸ hroom)]
    rfl

/-- The encoder stores nothing before it is drained. -/
def OggInput.Silent (x : OggInput E) : Prop :=
  ∃ enc enc', E.create x.encode.sampleRate x.encode.channels = some enc ∧
    E.writes enc x.frames = some enc' ∧
    (E.stores enc x.frames).length = (E.drain enc').length

/-- When no bytes are encoded. -/
theorem encodeOggBytes_eq_nil_iff (R : DoubleRounding) {size : ℕ} (h : x.Fits size) :
    encodeOggBytes E R x.encode x.input x.samples size = some [] ↔ x.Silent := by
  obtain ⟨hlt, hwhole, enc, enc', hcreate, hwrites, hroom⟩ := h
  obtain ⟨result, hencode, -, hstored, hcount⟩ :=
    @encodeOgg_frames E R x hlt hwhole enc enc' hcreate hwrites
  rw [encodeOggBytes, hencode]
  dsimp only
  rw [if_pos (hstored ▸ hroom), Option.some.injEq, List.take_eq_nil_iff]
  have hsize : result.size = 0 ∨ result.stored = [] ↔ result.size = 0 :=
    or_iff_left_of_imp fun hnil => by
      rw [hnil, List.length_nil] at hcount
      omega
  rw [hsize]
  constructor
  · intro hzero
    exact ⟨enc, enc', hcreate, hwrites, by rw [← hstored]; omega⟩
  · rintro ⟨enc₁, enc₁', hcreate', hwrites', hlength⟩
    obtain rfl := Option.some.inj (hcreate.symm.trans hcreate')
    obtain rfl := Option.some.inj (hwrites.symm.trans hwrites')
    rw [← hstored] at hlength
    omega

/-- Nothing is encoded without an encoder, or of other bit depths. -/
theorem of_isSome_encodeOggBytes {R : DoubleRounding} {encode : Encode} {input : List Int32}
    {samples size : ℕ} (h : (encodeOggBytes E R encode input samples size).isSome) :
    (E.create encode.sampleRate encode.channels).isSome ∧
      (encode.bitDepth = 16 ∨ encode.bitDepth = 24) := by
  rw [encodeOggBytes] at h
  split at h
  · rename_i result hencode
    obtain ⟨pcm, hpcm, hwrite⟩ := Option.bind_eq_some_iff.mp hencode
    refine ⟨?_, ?_⟩
    · obtain ⟨l, hwrite, -⟩ := Option.bind_eq_some_iff.mp hwrite
      obtain ⟨ogg, hinit, -⟩ := Option.bind_eq_some_iff.mp hwrite
      obtain ⟨enc, hcreate, -⟩ := Option.map_eq_some_iff.mp hinit
      exact Option.isSome_of_eq_some hcreate
    · by_contra hdepth
      obtain ⟨hsixteen, htwentyfour⟩ := not_or.mp hdepth
      rw [if_neg hsixteen, if_neg htwentyfour] at hpcm
      cases hpcm
  · cases h

end Racs
