import Racs.Exec
import Racs.Run

/-!
# Answers to pipelines

The commands of a pipeline share one buffer, the reply of one stage and the input of the next. A
pipeline answers well when `racs_exec_exec` returns, the buffer then holds exactly one object, and
this is the error object exactly when the last stage that was executed has failed.

The check of the number of arguments does not clear the buffer. When it fails in a command that
reads a vector, behind a stage that replied something, the error stands behind that reply.

## Main definitions

* `Racs.AnswersWell` — a command line is answered by one object that tells the truth.
* `Racs.StageOk`, `Racs.StagesOk` — the condition on the stages that are executed.

## Main results

* `Racs.stage_spec` — when a stage answers.
* `Racs.answersWell_iff` — when a pipeline does.
-/

namespace Racs

open MessagePack

/-! ### When a stage answers -/

variable {δ : Type}

/-- The arguments have the types that are asked for. -/
def ArgsValid (types : List (ObjectType × String)) (args : List (Item δ)) : Prop :=
  args.map Item.type = types.map Prod.fst

/-- The samples that a stage finds in the buffer. -/
def bufferSamples (out : Buffer δ) : Option (List Int32) :=
  match unpackNext out with
  | .array (.str type :: .bin data :: _) =>
    if type = RacsType.s32vec.string then some (s32Words data) else none
  | _ => none

/-- The command reads its input from the buffer. -/
def CommandDef.Transforms (c : CommandDef δ) : Prop :=
  match c.body with
  | .plain _ => False
  | .vector _ => True

/-- An operation has a result for the audio, and in the last stage the result is shorter than 2^32
bytes. -/
def OpSafe (isFinal : Bool) (out : Option (Option Audio)) : Prop :=
  ∃ audio, out = some (some audio) ∧ (isFinal = true → 4 * audio.samples.length < 2 ^ 32)

variable {P : Platform} (b : Backend P)

/-- There are channels to divide the samples by, the encoder returns, and in the last stage its
output is shorter than 2^32 bytes. Nothing is encoded of no samples. -/
def EncodeSafe (isFinal : Bool) (audio : Audio) (mimeType : List UInt8) : Prop :=
  audio.samples ≠ [] → audio.channels ≠ 0 ∧
    ∃ data, b.encodePcm audio.encode audio.samples
        (audio.samples.length / audio.channels.toNat) audio.encodeSize mimeType = some data ∧
      (isFinal = true → data.length < 2 ^ 32)

/-- What a command with valid arguments does behind its checks is defined, and in the last stage its
reply is shorter than 2^32 bytes. -/
def BodySafe (s : Store) (out : Buffer P.Double) (isFinal : Bool) (name : CommandName)
    (args : List (Item P.Double)) : Prop :=
  let OnAudio (p : Audio → Prop) : Prop :=
    ∀ samples audio, bufferSamples out = some samples → Audio.ofWords samples = some audio →
      p audio
  match name, args with
  | .range, [.str streamId, .float start, .float duration] =>
    ∃ found, b.range s (cString streamId) start duration = some found ∧
      ∀ pcm, found = some pcm → ∃ r, rangeReply b pcm isFinal = some r ∧
        ∀ samples, r = .s32v samples → isFinal = true → 4 * samples.length < 2 ^ 32
  | .eval, [.str expr] =>
    cString expr ≠ [] ∧ ∃ x error, b.eval s (unescapeQuotes (cString expr)) = some (x, error) ∧
      (x = .bool false → 0 ∉ error) ∧ x.Packable b.nullElements isFinal
  | .encode, [.str mimeType] =>
    (∀ samples, bufferSamples out = some samples → 2 ≤ samples.length) ∧
      OnAudio fun audio => EncodeSafe b isFinal audio (cString mimeType)
  | .gain, [.float gain] => OnAudio fun audio => OpSafe isFinal (opsGain P audio gain)
  | .trim, [.float left, .float right] =>
    OnAudio fun audio => OpSafe isFinal (opsTrim P audio left right)
  | .fade, [.float fadeIn, .float fadeOut] =>
    OnAudio fun audio => OpSafe isFinal (opsFade P audio fadeIn fadeOut)
  | .pan, [.float pan] =>
    ¬ (P.lt pan (P.ofInt (-1)) ∨ P.lt (P.ofInt 1) pan) →
      OnAudio fun audio => OpSafe isFinal (opsPan P audio pan)
  | .pad, [.float left, .float right] =>
    OnAudio fun audio => OpSafe isFinal (opsPad P audio left right)
  | .clip, [.int min, .int max] =>
    OnAudio fun audio => OpSafe isFinal (opsClip P audio min.toInt32 max.toInt32)
  | .split, [.int channel] => OnAudio fun audio =>
    audio.channels = 2 → channel.toUInt64.toUInt16 ≤ 1 →
      OpSafe isFinal (opsSplit P audio channel.toUInt64.toUInt16)
  | _, _ => True

/-- A stage is good: a command that reads the buffer has the right number of arguments, unless the
buffer is empty, and what it does with valid arguments is defined. -/
def StageOk (s : Store) (out : Buffer P.Double) (isFinal : Bool) (name : CommandName)
    (cmd : Command P.Double) : Prop :=
  let args := cmd.args.map CommandArg.item
  ((command b name).Transforms → out ≠ [] → args.length = (command b name).args.length) ∧
    (ArgsValid (command b name).args args → BodySafe b s out isFinal name args)

theorem unpackNext_serializeArgs (cmd : Command δ) :
    unpackNext (serializeArgs cmd) = .array (cmd.args.map CommandArg.item) := by
  have h := unpackNext_array (cmd.args.map CommandArg.item) []
  rwa [List.length_map, List.append_nil] at h

theorem argsValid_iff (types : List (ObjectType × String)) (args : List (Item δ)) :
    ArgsValid types args ↔
      args.length = types.length ∧ ∀ p ∈ args.zip types, p.1.type = p.2.1 := by
  induction args generalizing types with
  | nil => cases types <;> simp [ArgsValid]
  | cons a args ih =>
    cases types with
    | nil => simp [ArgsValid]
    | cons t types =>
      have h := ih types
      simp only [ArgsValid] at h ⊢
      simp only [List.map_cons, List.cons.injEq, h, List.length_cons, List.zip_cons_cons,
        List.forall_mem_cons, Nat.add_right_cancel_iff]
      exact and_left_comm

/-- All that checking the arguments can do. -/
theorem validateArgs_cases (out : Buffer δ) (name : String) (types : List (ObjectType × String))
    (args : List (Item δ)) :
    args.length ≠ types.length ∧ validateArgs out name types args =
        some (packInvalidNumArgs out (ascii name) types.length args.length) ∨
      args.length = types.length ∧ ¬ ArgsValid types args ∧
        (∃ message, validateArgs out name types args =
          some (packError [] (ascii name) message)) ∨
      args.length = types.length ∧ ArgsValid types args ∧
        validateArgs out name types args = none := by
  unfold validateArgs
  by_cases hlen : args.length = types.length
  · rw [if_neg (not_not.mpr hlen)]
    refine .inr ?_
    rcases hfind : (args.zip types).find? fun p => p.1.type ≠ p.2.1 with - | p
    · refine .inr ⟨hlen, (argsValid_iff _ _).mpr ⟨hlen, fun p hp => ?_⟩, by rw [hfind]; rfl⟩
      have h := List.find?_eq_none.mp hfind p hp
      simpa using h
    · refine .inl ⟨hlen, fun hvalid => ?_, ascii p.2.2, by rw [hfind]; rfl⟩
      have hne := List.find?_some hfind
      have heq := ((argsValid_iff _ _).mp hvalid).2 p (List.mem_of_find?_eq_some hfind)
      simp [heq] at hne
  · exact .inl ⟨hlen, if_pos hlen⟩

/-- A command that clears the buffer first. -/
theorem run_plain_spec {c : CommandDef δ} {f} (hbody : c.body = .plain f) (cmd : Command δ)
    (out : Buffer δ) (s : Store) (isFinal : Bool) {C : Prop}
    (hf : ArgsValid c.args (cmd.args.map CommandArg.item) →
      Specified isFinal ((f (cmd.args.map CommandArg.item) s isFinal).map Prod.fst) C) :
    Specified isFinal ((c.run (serializeArgs cmd) out s isFinal).map Prod.fst)
      (ArgsValid c.args (cmd.args.map CommandArg.item) → C) := by
  simp only [CommandDef.run, unpackNext_serializeArgs, hbody]
  rcases validateArgs_cases [] c.name c.args (cmd.args.map CommandArg.item) with
    ⟨hlen, heq⟩ | ⟨hlen, hvalid, message, heq⟩ | ⟨hlen, hvalid, heq⟩
  · rw [heq]
    exact .error _ _ fun h => absurd ((argsValid_iff _ _).mp h).1 hlen
  · rw [heq]
    exact .error _ _ fun h => absurd h hvalid
  · rw [heq]
    exact (hf hvalid).congr ⟨fun h _ => h, fun h => h hvalid⟩

/-- The checks of the buffer find samples or fail. -/
theorem validateS32v_cases {out : Buffer δ} (hout : out = [] ∨ Tagged out) :
    (∃ message, validateS32v (unpackNext out) = throw message ∧ bufferSamples out = none) ∨
      ∃ samples, validateS32v (unpackNext out) = pure samples ∧
        bufferSamples out = some samples := by
  rcases hout with rfl | htag
  · exact .inl ⟨_, rfl, rfl⟩
  · obtain ⟨type, items, hunpack, hvec⟩ := htag.unpackNext
    by_cases htype : type = .s32vec
    · obtain ⟨data, rfl⟩ := hvec htype
      subst htype
      refine .inr ⟨s32Words data, ?_, ?_⟩
      · simp [hunpack, validateS32v, packType]
      · simp [bufferSamples, hunpack, packType]
    · have hstring : type.string ≠ RacsType.s32vec.string := by
        revert htype
        cases type <;> decide
      refine .inl ⟨"Invalid input type. Expected: int32 array", ?_, ?_⟩
      · simp [hunpack, validateS32v, packType, hstring]
      · rw [bufferSamples, hunpack]
        rcases items with - | ⟨i, items⟩
        · rfl
        · cases i <;> simp [packType, hstring]

/-- A command that reads samples from the buffer. -/
theorem run_vector_spec {c : CommandDef δ} {f} (hbody : c.body = .vector f) (cmd : Command δ)
    {out : Buffer δ} (hout : out = [] ∨ Tagged out) (s : Store) (isFinal : Bool)
    {C : List Int32 → Prop}
    (hf : ArgsValid c.args (cmd.args.map CommandArg.item) → ∀ samples,
      Specified isFinal (finish c.name (f (cmd.args.map CommandArg.item) samples isFinal))
        (C samples)) :
    Specified isFinal ((c.run (serializeArgs cmd) out s isFinal).map Prod.fst)
      ((out ≠ [] → (cmd.args.map CommandArg.item).length = c.args.length) ∧
        (ArgsValid c.args (cmd.args.map CommandArg.item) →
          ∀ samples, bufferSamples out = some samples → C samples)) := by
  simp only [CommandDef.run, unpackNext_serializeArgs, hbody]
  rcases validateArgs_cases out c.name c.args (cmd.args.map CommandArg.item) with
    ⟨hlen, heq⟩ | ⟨hlen, hvalid, message, heq⟩ | ⟨hlen, hvalid, heq⟩
  · rw [heq]
    by_cases hnil : out = []
    · subst hnil
      exact .error _ _ ⟨fun h => absurd rfl h, fun h => absurd ((argsValid_iff _ _).mp h).1 hlen⟩
    · exact .error_behind hnil _ _ fun h => hlen (h.1 hnil)
  · rw [heq]
    exact .error _ _ ⟨fun _ => hlen, fun h => absurd h hvalid⟩
  · rw [heq]
    rcases validateS32v_cases hout with ⟨message, hval, hnone⟩ | ⟨samples, hval, hsome⟩
    · rw [hval]
      refine .error _ _ ⟨fun _ => hlen, fun _ samples h => ?_⟩
      rw [hnone] at h
      cases h
    · rw [hval]
      have hrun : (finish c.name do
          f (cmd.args.map CommandArg.item) (← (pure samples : Checked _)) isFinal) =
          finish c.name (f (cmd.args.map CommandArg.item) samples isFinal) :=
        congrArg _ (pure_bind ..)
      rw [hrun, Option.map_map, Function.comp_def, Option.map_id']
      refine (hf hvalid samples).congr ⟨fun h => ⟨fun _ => hlen, fun _ samples' hs => ?_⟩, ?_⟩
      · obtain rfl := Option.some.inj (hsome.symm.trans hs)
        exact h
      · exact fun h => h.2 hvalid samples hsome

/-- Packing the result of an operation. -/
theorem packAudio_spec (name : String) (out : Option (Option Audio)) (isFinal : Bool) :
    Specified isFinal (finish name (packAudio (P := P) out isFinal)) (OpSafe isFinal out) := by
  rcases out with - | - | audio
  · refine .undefined ?_
    rintro ⟨audio, heq, -⟩
    cases heq
  · refine .undefined ?_
    rintro ⟨audio, heq, -⟩
    cases heq
  · have h := @Specified.vec P.Double isFinal .s32vec (by decide)
      (s32Bytes (if isFinal then audio.samples else audio.words))
    rw [length_s32Bytes] at h
    refine h.congr ⟨fun h => ⟨audio, rfl, fun hfinal => ?_⟩, ?_⟩
    · have := h hfinal
      rwa [if_pos hfinal] at this
    · rintro ⟨audio', heq, h⟩ hfinal
      obtain rfl := Option.some.inj (Option.some.inj heq)
      rw [if_pos hfinal]
      exact h hfinal

/-- A body that asks for the header of the samples. -/
theorem audioInput_spec (name : String) (samples : List Int32) (isFinal : Bool)
    {op : Audio → Checked (Reply δ)} {C : Audio → Prop}
    (h : ∀ audio, Specified isFinal (finish name (op audio)) (C audio)) :
    Specified isFinal (finish name (audioInput samples >>= op))
      (∀ audio, Audio.ofWords samples = some audio → C audio) := by
  unfold audioInput
  rcases Audio.ofWords samples with - | audio
  · exact .error _ _ fun audio h => by cases h
  · refine (h audio).congr ⟨fun h audio' heq => ?_, fun h => h audio rfl⟩
    obtain rfl := Option.some.inj heq
    exact h

theorem argsValid_one {t : ObjectType} {e : String} {args : List (Item δ)}
    (h : ArgsValid [(t, e)] args) : ∃ a, args = [a] ∧ a.type = t := by
  simpa [ArgsValid, List.map_eq_cons_iff] using h

theorem argsValid_two {t t' : ObjectType} {e e' : String} {args : List (Item δ)}
    (h : ArgsValid [(t, e), (t', e')] args) :
    ∃ a a', args = [a, a'] ∧ a.type = t ∧ a'.type = t' := by
  obtain ⟨a, args', rfl, hta, h⟩ := List.map_eq_cons_iff.mp h
  obtain ⟨a', rfl, hta'⟩ := @argsValid_one _ t' e' _ h
  exact ⟨a, a', rfl, hta, hta'⟩

section Stage

variable {b} {name : CommandName} {s : Store} {out : Buffer P.Double} {isFinal : Bool}

theorem plain_stage_spec {f} (hbody : (command b name).body = .plain f)
    (h : ∀ args, ArgsValid (command b name).args args →
      Specified isFinal ((f args s isFinal).map Prod.fst) (BodySafe b s out isFinal name args))
    (cmd : Command P.Double) :
    Specified isFinal (((command b name).run (serializeArgs cmd) out s isFinal).map Prod.fst)
      (StageOk b s out isFinal name cmd) := by
  refine (run_plain_spec hbody cmd out s isFinal (h _)).congr ?_
  have htrans : ¬ (command b name).Transforms := by
    rw [CommandDef.Transforms, hbody]
    exact id
  exact ⟨fun h => ⟨fun h => absurd h htrans, h⟩, fun h => h.2⟩

theorem vector_stage_spec {f} (hbody : (command b name).body = .vector f)
    (hout : out = [] ∨ Tagged out)
    (h : ∀ args, ArgsValid (command b name).args args → ∃ C : List Int32 → Prop,
      (BodySafe b s out isFinal name args ↔
        ∀ samples, bufferSamples out = some samples → C samples) ∧
      ∀ samples, Specified isFinal (finish (command b name).name (f args samples isFinal))
        (C samples))
    (cmd : Command P.Double) :
    Specified isFinal (((command b name).run (serializeArgs cmd) out s isFinal).map Prod.fst)
      (StageOk b s out isFinal name cmd) := by
  have htrans : (command b name).Transforms := by
    rw [CommandDef.Transforms, hbody]
    trivial
  by_cases hvalid : ArgsValid (command b name).args (cmd.args.map CommandArg.item)
  · obtain ⟨C, hsafe, hspec⟩ := h _ hvalid
    refine (run_vector_spec hbody cmd hout s isFinal fun _ => hspec).congr ?_
    rw [StageOk, hsafe]
    exact ⟨fun h => ⟨fun _ => h.1, h.2⟩, fun h => ⟨h.1 htrans, h.2⟩⟩
  · refine (@run_vector_spec _ _ _ hbody cmd _ hout s isFinal (fun _ => True)
      fun h => absurd h hvalid).congr ?_
    exact ⟨fun h => ⟨fun _ => h.1, fun h => absurd h hvalid⟩,
      fun h => ⟨h.1 htrans, fun h => absurd h hvalid⟩⟩

/-- The commands that apply an operation to audio. -/
theorem audio_stage_spec {f} (hbody : (command b name).body = .vector f)
    (hout : out = [] ∨ Tagged out)
    (h : ∀ args, ArgsValid (command b name).args args → ∃ op : Audio → Option (Option Audio),
      (BodySafe b s out isFinal name args ↔ ∀ samples audio, bufferSamples out = some samples →
        Audio.ofWords samples = some audio → OpSafe isFinal (op audio)) ∧
      ∀ samples, f args samples isFinal =
        audioInput samples >>= fun audio => packAudio (op audio) isFinal)
    (cmd : Command P.Double) :
    Specified isFinal (((command b name).run (serializeArgs cmd) out s isFinal).map Prod.fst)
      (StageOk b s out isFinal name cmd) := by
  refine vector_stage_spec hbody hout (fun args hvalid => ?_) cmd
  obtain ⟨op, hsafe, hf⟩ := h args hvalid
  refine ⟨_, hsafe.trans ⟨fun h samples hs audio ha => h samples audio hs ha,
    fun h samples audio hs ha => h samples hs audio ha⟩, fun samples => ?_⟩
  rw [hf samples]
  exact audioInput_spec _ samples isFinal fun audio => packAudio_spec _ (op audio) isFinal

theorem create_spec (cmd : Command P.Double) :
    Specified isFinal (((command b .create).run (serializeArgs cmd) out s isFinal).map Prod.fst)
      (StageOk b s out isFinal .create cmd) := by
  refine plain_stage_spec rfl (fun args hvalid => ?_) cmd
  obtain ⟨a, args', rfl, ha, hvalid⟩ := List.map_eq_cons_iff.mp hvalid
  obtain ⟨a₁, args', rfl, ha₁, hvalid⟩ := List.map_eq_cons_iff.mp hvalid
  obtain ⟨a₂, a₃, rfl, ha₂, ha₃⟩ := @argsValid_two _ _ _
    "Invalid type at arg 3. Expected: positive int"
    "Invalid type at arg 4. Expected: positive int" _ hvalid
  obtain ⟨streamId, rfl⟩ := Item.exists_str ha
  obtain ⟨sampleRate, rfl⟩ := Item.exists_int (.inl ha₁)
  obtain ⟨channels, rfl⟩ := Item.exists_int (.inl ha₂)
  obtain ⟨bitDepth, rfl⟩ := Item.exists_int (.inl ha₃)
  simp only
  split_ifs
  · exact .error _ _ trivial
  · exact .error _ _ trivial
  · exact .null trivial
  · exact .error _ _ trivial

theorem metadata_spec (cmd : Command P.Double) :
    Specified isFinal (((command b .metadata).run (serializeArgs cmd) out s isFinal).map Prod.fst)
      (StageOk b s out isFinal .metadata cmd) := by
  refine plain_stage_spec rfl (fun args hvalid => ?_) cmd
  obtain ⟨a, a', rfl, ha, ha'⟩ := argsValid_two hvalid
  obtain ⟨streamId, rfl⟩ := Item.exists_str ha
  obtain ⟨attr, rfl⟩ := Item.exists_str ha'
  simp only
  split
  · exact .error _ _ trivial
  · split_ifs
    · exact .error _ _ trivial
    · exact .scalar .int (by decide) (by decide) (.int _) rfl trivial
    · exact .error _ _ trivial
    · exact .scalar .int (by decide) (by decide) (.int _) rfl trivial

/-- OPEN and CLOSE: a change of the session table that succeeds or fails. -/
theorem session_spec {f} (hbody : (command b name).body = .plain f)
    (hsafe : ∀ args, BodySafe b s out isFinal name args)
    (h : ∀ args, ArgsValid (command b name).args args → ∃ s' error, ∃ changed : Bool,
      f args s isFinal = if changed then some (packNullWithStatusOk [], s')
        else some (packError [] (ascii (command b name).name) error, s))
    (cmd : Command P.Double) :
    Specified isFinal (((command b name).run (serializeArgs cmd) out s isFinal).map Prod.fst)
      (StageOk b s out isFinal name cmd) := by
  refine plain_stage_spec hbody (fun args hvalid => ?_) cmd
  obtain ⟨s', error, changed, heq⟩ := h args hvalid
  rw [heq]
  split_ifs
  · exact .null (hsafe args)
  · exact .error _ _ (hsafe args)

theorem eval_spec (cmd : Command P.Double) :
    Specified isFinal (((command b .eval).run (serializeArgs cmd) out s isFinal).map Prod.fst)
      (StageOk b s out isFinal .eval cmd) := by
  refine plain_stage_spec rfl (fun args hvalid => ?_) cmd
  obtain ⟨a, rfl, ha⟩ := argsValid_one hvalid
  obtain ⟨expr, rfl⟩ := Item.exists_str ha
  simp only [Option.map_map, Function.comp_def, Option.map_id']
  rw [evalReply, unescapeSingleQuotes]
  by_cases hexpr : cString expr = []
  · rw [if_pos hexpr]
    exact .undefined fun h => h.1 hexpr
  · rw [if_neg hexpr, Option.bind_some]
    rcases heval : b.eval s (unescapeQuotes (cString expr)) with - | ⟨x, error⟩
    · refine .undefined ?_
      rintro ⟨-, x, error, h, -⟩
      rw [heval] at h
      cases h
    · have hsafe : BodySafe b s out isFinal .eval [.str expr] ↔
          (x = .bool false → 0 ∉ error) ∧ x.Packable b.nullElements isFinal := by
        refine ⟨?_, fun h => ⟨hexpr, x, error, heval, h⟩⟩
        rintro ⟨-, x', error', h, hpack⟩
        obtain ⟨rfl, rfl⟩ := Prod.mk.inj (Option.some.inj (heval.symm.trans h))
        exact hpack
      rw [Option.bind_some]
      split
      · rename_i error' h
        obtain ⟨rfl, rfl⟩ := Prod.mk.inj h
        by_cases hzero : 0 ∈ error
        · rw [scmToLocaleString, if_pos hzero]
          exact .undefined fun h => (hsafe.mp h).1 rfl hzero
        · rw [scmToLocaleString, if_neg hzero]
          exact .error _ _ (hsafe.mpr ⟨fun _ => hzero, trivial⟩)
      · rename_i hne h
        obtain ⟨rfl, rfl⟩ := Prod.mk.inj h
        refine (scmPack_spec b.nullElements _ isFinal).congr (hsafe.trans ?_).symm
        exact and_iff_right fun hfalse => (hne hfalse).elim

theorem range_spec (cmd : Command P.Double) :
    Specified isFinal (((command b .range).run (serializeArgs cmd) out s isFinal).map Prod.fst)
      (StageOk b s out isFinal .range cmd) := by
  refine plain_stage_spec rfl (fun args hvalid => ?_) cmd
  obtain ⟨a, args', rfl, ha, hvalid⟩ := List.map_eq_cons_iff.mp hvalid
  obtain ⟨a₁, a₂, rfl, ha₁, ha₂⟩ := @argsValid_two _ _ _
    "Invalid type at arg 2. Expected: float" "Invalid type at arg 3. Expected: float" _ hvalid
  obtain ⟨streamId, rfl⟩ := Item.exists_str ha
  obtain ⟨start, rfl⟩ := Item.exists_float ha₁
  obtain ⟨duration, rfl⟩ := Item.exists_float ha₂
  simp only [BodySafe]
  rcases hrange : b.range s (cString streamId) start duration with - | - | pcm
  · refine .undefined ?_
    rintro ⟨found, h, -⟩
    cases h
  · exact .error _ _ ⟨none, rfl, fun pcm h => by cases h⟩
  · rw [Option.bind_some]
    simp only
    rcases hreply : rangeReply b pcm isFinal with - | message | samples
    · refine .undefined ?_
      rintro ⟨found, h, hfound⟩
      obtain ⟨r, hr, -⟩ := hfound pcm (Option.some.inj h).symm
      rw [hreply] at hr
      cases hr
    · refine .error _ _ ⟨some pcm, rfl, fun pcm' h => ?_⟩
      obtain rfl := Option.some.inj h
      exact ⟨_, hreply, fun samples h => by cases h⟩
    · have h := @Specified.vec P.Double isFinal .s32vec (by decide) (s32Bytes samples)
      rw [length_s32Bytes] at h
      refine h.congr ⟨fun h => ⟨some pcm, rfl, fun pcm' hpcm => ?_⟩, ?_⟩
      · obtain rfl := Option.some.inj hpcm
        refine ⟨_, hreply, fun samples' hs => ?_⟩
        obtain rfl := RangeReply.s32v.inj hs
        exact h
      · rintro ⟨found, h, hfound⟩
        obtain ⟨r, hr, hr'⟩ := hfound pcm (Option.some.inj h).symm
        exact hr' samples (Option.some.inj (hr.symm.trans hreply))

theorem encodeAudio_spec (command : String) (audio : Audio) (mimeType : List UInt8) :
    Specified isFinal (finish command (encodeAudio b audio mimeType))
      (EncodeSafe b isFinal audio mimeType) := by
  unfold encodeAudio
  split_ifs with hsamples hchannels
  · exact .error _ _ fun h => absurd hsamples h
  · exact .undefined fun h => (h hsamples).1 hchannels
  · split
    · rename_i hencode
      refine .undefined fun h => ?_
      obtain ⟨-, data, hdata, -⟩ := h hsamples
      rw [hencode] at hdata
      cases hdata
    · rename_i hencode
      exact .error _ _ fun _ => ⟨hchannels, [], hencode, fun _ => by decide⟩
    · rename_i data hdata hencode
      have h := @Specified.vec P.Double isFinal .u8vec (by decide) data
      refine h.congr ⟨fun h _ => ⟨hchannels, data, hencode, h⟩, fun h => ?_⟩
      obtain ⟨-, data', hencode', h⟩ := h hsamples
      obtain rfl := Option.some.inj (hencode.symm.trans hencode')
      exact h

theorem encode_spec (hout : out = [] ∨ Tagged out) (cmd : Command P.Double) :
    Specified isFinal (((command b .encode).run (serializeArgs cmd) out s isFinal).map Prod.fst)
      (StageOk b s out isFinal .encode cmd) := by
  refine vector_stage_spec rfl hout (fun args hvalid => ?_) cmd
  obtain ⟨a, rfl, ha⟩ := argsValid_one hvalid
  obtain ⟨mimeType, rfl⟩ := Item.exists_str ha
  refine ⟨fun samples => 2 ≤ samples.length ∧ ∀ audio, Audio.ofWords samples = some audio →
    EncodeSafe b isFinal audio (cString mimeType), ?_, ?_⟩
  · exact ⟨fun h samples hs => ⟨h.1 samples hs, fun audio => h.2 samples audio hs⟩,
      fun h => ⟨fun samples hs => (h samples hs).1, fun samples audio hs => (h samples hs).2 audio⟩⟩
  · intro samples
    rcases samples with - | ⟨sampleRate, - | ⟨format, samples⟩⟩
    · exact .undefined fun h => absurd h.1 (by simp)
    · exact .undefined fun h => absurd h.1 (by simp)
    · refine (encodeAudio_spec _ ⟨sampleRate, format, samples⟩ _).congr ⟨fun h => ?_, fun h => ?_⟩
      · refine ⟨by simp, fun audio heq => ?_⟩
        obtain rfl := Option.some.inj heq
        exact h
      · exact h.2 _ rfl

theorem pan_spec (hout : out = [] ∨ Tagged out) (cmd : Command P.Double) :
    Specified isFinal (((command b .pan).run (serializeArgs cmd) out s isFinal).map Prod.fst)
      (StageOk b s out isFinal .pan cmd) := by
  refine vector_stage_spec rfl hout (fun args hvalid => ?_) cmd
  obtain ⟨a, rfl, ha⟩ := argsValid_one hvalid
  obtain ⟨pan, rfl⟩ := Item.exists_float ha
  by_cases hrange : P.lt pan (P.ofInt (-1)) ∨ P.lt (P.ofInt 1) pan
  · refine ⟨fun _ => True, iff_of_true (fun h => absurd hrange h) fun _ _ => trivial, ?_⟩
    intro samples
    simp only [hrange, if_true]
    exact .error _ _ trivial
  · refine ⟨fun samples => ∀ audio, Audio.ofWords samples = some audio →
      OpSafe isFinal (opsPan P audio pan), ?_, fun samples => ?_⟩
    · exact ⟨fun h samples hs audio => h hrange samples audio hs,
        fun h _ samples audio hs => h samples hs audio⟩
    · simp only [hrange, if_false]
      exact audioInput_spec _ samples isFinal fun audio => packAudio_spec _ _ isFinal

theorem split_spec (hout : out = [] ∨ Tagged out) (cmd : Command P.Double) :
    Specified isFinal (((command b .split).run (serializeArgs cmd) out s isFinal).map Prod.fst)
      (StageOk b s out isFinal .split cmd) := by
  refine vector_stage_spec rfl hout (fun args hvalid => ?_) cmd
  obtain ⟨a, rfl, ha⟩ := argsValid_one hvalid
  obtain ⟨channel, rfl⟩ := Item.exists_int (.inl ha)
  refine ⟨fun samples => ∀ audio, Audio.ofWords samples = some audio → audio.channels = 2 →
    channel.toUInt64.toUInt16 ≤ 1 → OpSafe isFinal (opsSplit P audio channel.toUInt64.toUInt16),
    ?_, fun samples => ?_⟩
  · exact ⟨fun h samples hs audio => h samples audio hs,
      fun h samples audio hs => h samples hs audio⟩
  · refine audioInput_spec _ samples isFinal fun audio => ?_
    by_cases hchannels : audio.channels = 2
    · by_cases hchannel : 1 < channel.toUInt64.toUInt16
      · simp only [hchannels, hchannel, if_true]
        exact .error _ _ fun _ h => absurd hchannel (UInt16.not_lt.mpr h)
      · simp only [hchannels, hchannel, if_false]
        exact (packAudio_spec _ _ isFinal).congr
          ⟨fun h _ _ => h, fun h => h trivial (UInt16.not_lt.mp hchannel)⟩
    · simp only [ne_eq, hchannels, not_false_eq_true, if_true]
      exact .error _ _ False.elim

/-- **When a stage answers**, for every command but SHUTDOWN and every reply of an earlier stage. -/
theorem stage_spec (hname : name ≠ .shutdown) (hout : out = [] ∨ Tagged out)
    (cmd : Command P.Double) :
    Specified isFinal (((command b name).run (serializeArgs cmd) out s isFinal).map Prod.fst)
      (StageOk b s out isFinal name cmd) := by
  cases name
  case ping =>
    exact plain_stage_spec rfl (fun args _ =>
      .scalar .str (by decide) (by decide) (.str _) rfl (by simp only [BodySafe])) cmd
  case create => exact create_spec cmd
  case metadata => exact metadata_spec cmd
  case openStream =>
    refine session_spec rfl (fun args => by simp only [BodySafe]) (fun args hvalid => ?_) cmd
    obtain ⟨a, rfl, ha⟩ := argsValid_one hvalid
    obtain ⟨streamId, rfl⟩ := Item.exists_str ha
    exact ⟨_, _, _, rfl⟩
  case closeStream =>
    refine session_spec rfl (fun args => by simp only [BodySafe]) (fun args hvalid => ?_) cmd
    obtain ⟨a, rfl, ha⟩ := argsValid_one hvalid
    obtain ⟨streamId, rfl⟩ := Item.exists_str ha
    exact ⟨_, _, _, rfl⟩
  case list =>
    refine plain_stage_spec rfl (fun args hvalid => ?_) cmd
    obtain ⟨a, rfl, ha⟩ := argsValid_one hvalid
    obtain ⟨pattern, rfl⟩ := Item.exists_str ha
    have h := @Specified.value P.Double isFinal _ .list (by decide) (by decide)
      ((b.streamsList s (cString pattern)).map .str) (by simp [Item.isScalar]) trivial
    rwa [List.length_map] at h
  case range => exact range_spec cmd
  case eval => exact eval_spec cmd
  case encode => exact encode_spec hout cmd
  case shutdown => exact absurd rfl hname
  case gain =>
    refine audio_stage_spec rfl hout (fun args hvalid => ?_) cmd
    obtain ⟨a, rfl, ha⟩ := argsValid_one hvalid
    obtain ⟨gain, rfl⟩ := Item.exists_float ha
    exact ⟨_, Iff.rfl, fun _ => rfl⟩
  case pan => exact pan_spec hout cmd
  case clip =>
    refine audio_stage_spec rfl hout (fun args hvalid => ?_) cmd
    obtain ⟨a, a', rfl, ha, ha'⟩ := argsValid_two hvalid
    obtain ⟨min, rfl⟩ := Item.exists_int (.inr ha)
    obtain ⟨max, rfl⟩ := Item.exists_int (.inl ha')
    exact ⟨_, Iff.rfl, fun _ => rfl⟩
  case split => exact split_spec hout cmd
  all_goals
    refine audio_stage_spec rfl hout (fun args hvalid => ?_) cmd
    obtain ⟨a, a', rfl, ha, ha'⟩ := argsValid_two hvalid
    obtain ⟨x, rfl⟩ := Item.exists_float ha
    obtain ⟨y, rfl⟩ := Item.exists_float ha'
    exact ⟨_, Iff.rfl, fun _ => rfl⟩

end Stage

/-! ### Runs of stages -/

/-- All stages that are executed are good. -/
def StagesOk (s : Store) (out : Buffer P.Double) : List (CommandName × Command P.Double) → Prop
  | [] => True
  | (name, cmd) :: rest => StageOk b s out rest.isEmpty name cmd ∧
      ∀ out' s', (command b name).run (serializeArgs cmd) out s rest.isEmpty =
        some ((.ok, out'), s') → StagesOk s' out' rest

/-- The last stage that is executed answers exactly if its reply is truthful. -/
theorem answers_last {isFinal : Bool} {r : Reply P.Double} (hlast : r.1 ≠ .ok ∨ isFinal = true) :
    Answers isFinal (some r) ↔ Truthful r := by
  refine ⟨?_, fun h => ⟨r, rfl, fun _ => h⟩⟩
  rintro ⟨r', hr', h⟩
  obtain rfl := Option.some.inj hr'
  exact h hlast

/-- Behind the last stage that is executed, its reply is that of the run. -/
theorem planRun_last {rest : List (CommandName × Command P.Double)} {s : Store}
    {r : Reply P.Double} (hlast : r.1 ≠ .ok ∨ rest.isEmpty = true) :
    (if r.1 ≠ .ok then some (s, r) else planRun b s r rest) = some (s, r) := by
  rcases hlast with herr | hnil
  · exact if_pos herr
  · rw [List.isEmpty_iff.mp hnil]
    exact ite_self _

/-- A run of stages returns with a truthful reply exactly when all stages that it executes are good.
The induction is on the stages; what an earlier stage left in the buffer is tagged. -/
theorem planRun_truthful_iff {stages : List (CommandName × Command P.Double)} (hne : stages ≠ [])
    (hname : ∀ p ∈ stages, p.1 ≠ .shutdown) (s : Store) {reply : Reply P.Double}
    (hout : reply.2 = [] ∨ Tagged reply.2) :
    (∃ s' r, planRun b s reply stages = some (s', r) ∧ Truthful r) ↔
      StagesOk b s reply.2 stages := by
  induction stages generalizing s reply with
  | nil => exact absurd rfl hne
  | cons p rest ih =>
    obtain ⟨name, cmd⟩ := p
    have hspec := @stage_spec P b name s reply.2 rest.isEmpty (hname _ List.mem_cons_self) hout cmd
    rw [planRun, StagesOk]
    rcases hrun : (command b name).run (serializeArgs cmd) reply.2 s rest.isEmpty with - | ⟨r, s'⟩
    · refine iff_of_false (by simp) fun h => ?_
      obtain ⟨r, hr, -⟩ := hspec.answers_iff.mpr h.1
      rw [hrun] at hr
      cases hr
    · rw [hrun] at hspec
      rw [Option.bind_some]
      dsimp only
      by_cases hlast : r.1 ≠ .ok ∨ rest.isEmpty = true
      · -- No other stage follows, so this reply is the last one.
        have hrest : ∀ out' t, some (r, s') = some ((Status.ok, out'), t) →
            StagesOk b t out' rest := by
          rintro out' t heq
          obtain ⟨rfl, rfl⟩ := Prod.mk.inj (Option.some.inj heq)
          rcases hlast with herr | hnil
          · exact absurd rfl herr
          · rw [List.isEmpty_iff.mp hnil]
            trivial
        rw [planRun_last b hlast, ← hspec.answers_iff, and_iff_left hrest, Option.map_some,
          answers_last hlast]
        refine ⟨?_, fun h => ⟨s', r, rfl, h⟩⟩
        rintro ⟨t, r', heq, h⟩
        obtain ⟨-, rfl⟩ := Prod.mk.inj (Option.some.inj heq)
        exact h
      · obtain ⟨hok, hmore⟩ := not_or.mp hlast
        have hok : r.1 = .ok := not_not.mp hok
        have hstage : StageOk b s reply.2 rest.isEmpty name cmd :=
          hspec.answers_iff.mp ⟨r, rfl, fun h => absurd h hlast⟩
        rw [if_neg (not_not.mpr hok)]
        rw [ih (fun h => hmore (List.isEmpty_iff.mpr h))
          (fun p hp => hname p (List.mem_cons_of_mem _ hp)) s' (.inr (hspec.tagged r rfl hok))]
        refine ⟨fun h => ⟨hstage, fun out' t heq => ?_⟩, fun h => ?_⟩
        · obtain ⟨rfl, rfl⟩ := Prod.mk.inj (Option.some.inj heq)
          exact h
        · exact h.2 r.2 s' (by rw [← hok])

/-! ### Command lines -/

/-- A command line is answered by a buffer that holds exactly one object, the error object exactly
when the last stage that was executed did not return OK. -/
def AnswersWell (s : Store) (tokens : List (Token P.Double)) : Prop :=
  ∃ s' status out, execExec b s tokens = some (s', some status, out) ∧ Truthful (status, out)

/-- Every known command is a stage. -/
theorem mem_planStages {plan : List (Command δ)} {p : CommandName × Command δ} :
    p ∈ planStages plan ↔ p.2 ∈ plan ∧ execGet p.2.name = some p.1 := by
  simp only [planStages, List.mem_filterMap, Option.map_eq_some_iff]
  constructor
  · rintro ⟨cmd, hcmd, name, hname, rfl⟩
    exact ⟨hcmd, hname⟩
  · rintro ⟨hcmd, hname⟩
    exact ⟨p.2, hcmd, p.1, hname, rfl⟩

/-- The run of a plan whose commands are known. -/
theorem planExec_of_known (s : Store) {plan : List (Command P.Double)} (hplan : plan ≠ [])
    (hknown : ∀ cmd ∈ plan, (execGet cmd.name).isSome) :
    planExec b s plan [] =
      (planRun b s (.ok, []) (planStages plan)).map fun (s, r) => (s, some r.1, r.2) := by
  have hfind : plan.find? (fun cmd => (execGet cmd.name).isNone) = none := by
    refine List.find?_eq_none.mpr fun cmd hcmd => ?_
    obtain ⟨name, hname⟩ := Option.isSome_iff_exists.mp (hknown cmd hcmd)
    simp [hname]
  simp only [planExec, hfind, if_neg hplan]

/-- **When a pipeline answers.** A command line with at least one command, all known and none of
them SHUTDOWN, is answered well exactly when no command is in its plan twice and all stages that are
executed are good. -/
theorem answersWell_iff (s : Store) {tokens : List (Token P.Double)} {st : PlanState P.Double}
    (hbuild : planBuild tokens = some (st, .continue)) (hplan : st.plan ≠ [])
    (hknown : ∀ cmd ∈ st.plan, ∃ name, execGet cmd.name = some name ∧ name ≠ .shutdown) :
    AnswersWell b s tokens ↔
      (st.plan.map Command.address).Nodup ∧ StagesOk b s [] (planStages st.plan) := by
  have hsome (cmd : Command P.Double) (hcmd : cmd ∈ st.plan) : (execGet cmd.name).isSome := by
    obtain ⟨name, hname, -⟩ := hknown cmd hcmd
    rw [hname]
    rfl
  have hstages : planStages st.plan ≠ [] := by
    obtain ⟨cmd, hcmd⟩ := List.exists_mem_of_ne_nil _ hplan
    obtain ⟨name, hname, -⟩ := hknown cmd hcmd
    exact List.ne_nil_of_mem (mem_planStages.mpr ⟨hcmd, hname⟩ : (name, cmd) ∈ _)
  have hnames : ∀ p ∈ planStages st.plan, p.1 ≠ .shutdown := by
    intro p hp
    obtain ⟨hcmd, hp⟩ := mem_planStages.mp hp
    obtain ⟨name, hname, hne⟩ := hknown p.2 hcmd
    rwa [Option.some.inj (hp.symm.trans hname)]
  have hexec : execExec b s tokens =
      ((planRun b s (.ok, []) (planStages st.plan)).map fun (s, r) => (s, some r.1, r.2)).bind
        fun r => (planDestroy st.plan).map fun _ => r := by
    rw [execExec, hbuild, Option.bind_some]
    dsimp only
    rw [planBuild_out hbuild, planExec_of_known b s hplan hsome]
  rw [← @planRun_truthful_iff P b _ hstages hnames s (.ok, []) (.inl rfl), AnswersWell, hexec,
    planDestroy]
  by_cases hnodup : (st.plan.map Command.address).Nodup
  · rw [if_pos hnodup, and_iff_right hnodup]
    rcases planRun b s (.ok, []) (planStages st.plan) with - | ⟨t, status, out⟩
    · simp
    · simp
  · rw [if_neg hnodup]
    refine iff_of_false ?_ fun h => hnodup h.1
    rcases planRun b s (.ok, []) (planStages st.plan) <;> simp

/-! ### A pipeline with a wrong number of arguments -/

/-- A server whose cache is empty, whose interpreter never returns, and whose encoders for MP3 and
Ogg files store nothing. -/
def Backend.idle : Backend Platform.rational where
  timeNow _ := 0
  fnmatch _ _ := true
  scache _ := scacheCreate 1 Nat.one_pos
  allocEmpty := true
  overread _ _ := none
  eval _ _ := none
  nullElements := true
  codecs := .silent

/-- `PING |> GAIN` -/
def pingGain : List (Token Platform.rational.Double) :=
  [.id (ascii "PING"), .pipe, .id (ascii "GAIN")]

/-- The plan of `PING |> GAIN` has two known commands. -/
theorem planBuild_pingGain :
    (planBuild pingGain).map (fun r => (r.2, r.1.plan.map fun cmd => execGet cmd.name)) =
      some (.continue, [some .ping, some .gain]) := by
  decide +kernel

/-- Both the answer to PING and the error of GAIN are in the reply. -/
theorem execExec_pingGain :
    (execExec Backend.idle (Store.init (Config.small 1 (by decide))) pingGain).map Prod.snd =
      some (some .error, (packStr [] (ascii "PONG")).2 ++
        (packInvalidNumArgs [] (ascii "GAIN") 1 0).2) := by
  decide +kernel

/-- **`PING |> GAIN` is not answered well**, although its plan is accepted and its commands are
known. -/
theorem not_answersWell_pingGain :
    ¬ ∀ (P : Platform) (b : Backend P) (s : Store) (tokens : List (Token P.Double))
      (st : PlanState P.Double), planBuild tokens = some (st, .continue) → st.plan ≠ [] →
      (∀ cmd ∈ st.plan, ∃ name, execGet cmd.name = some name ∧ name ≠ .shutdown) →
      AnswersWell b s tokens := by
  intro h
  obtain ⟨⟨st, rc⟩, hbuild, hplan⟩ := Option.map_eq_some_iff.mp planBuild_pingGain
  obtain ⟨rfl, hnames⟩ := Prod.mk.inj hplan
  have hne : st.plan ≠ [] := by
    intro hnil
    rw [hnil] at hnames
    cases hnames
  have hknown : ∀ cmd ∈ st.plan, ∃ name, execGet cmd.name = some name ∧ name ≠ .shutdown := by
    intro cmd hcmd
    have hmem := @List.mem_map_of_mem _ _ _ _ (fun cmd => execGet cmd.name) hcmd
    rw [hnames] at hmem
    rcases List.mem_pair.mp hmem with h | h
    · exact ⟨.ping, h, by decide⟩
    · exact ⟨.gain, h, by decide⟩
  obtain ⟨t, status, out, hexec, htruth⟩ :=
    h _ Backend.idle (Store.init (Config.small 1 (by decide))) pingGain st hbuild hne hknown
  have heq := execExec_pingGain
  rw [hexec] at heq
  obtain ⟨-, rfl⟩ := Prod.mk.inj (Option.some.inj heq)
  exact not_oneObject_append_array (by decide) 2 _ htruth.1

/-- PING is answered well. -/
theorem answersWell_ping :
    AnswersWell Backend.idle (Store.init (Config.small 1 (by decide))) [.id (ascii "PING")] := by
  refine (@answersWell_iff _ Backend.idle (Store.init (Config.small 1 (by decide)))
    [.id (ascii "PING")] ⟨1, [⟨0, ascii "PING", []⟩], some ⟨0, ascii "PING", []⟩, []⟩ rfl
    (List.cons_ne_nil _ _)
    fun cmd hcmd => ?_).mpr ⟨List.nodup_singleton _, ?_⟩
  · rw [List.mem_singleton.mp hcmd]
    exact ⟨.ping, by decide +kernel, by decide⟩
  · have hstages : planStages [(⟨0, ascii "PING", []⟩ : Command Platform.rational.Double)] =
        [(.ping, ⟨0, ascii "PING", []⟩)] := by
      have hget : execGet (ascii "PING") = some .ping := by decide +kernel
      simp [planStages, hget]
    rw [hstages]
    exact ⟨⟨False.elim, fun _ => trivial⟩, fun _ _ _ => trivial⟩

end Racs
