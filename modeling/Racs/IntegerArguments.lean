import Racs.Parser
import Racs.Stages

/-!
# Integer arguments

An integer literal reaches a command as a signed number of 64 bits, and CREATE, CLIP and SPLIT cut
it to the 32 or 16 bits that they work with. They check the sign before and everything else after
the cut.

## Main definitions

* `Racs.IntLiteral.int64` — the number in the token of a literal.
* `Racs.Argument` — an argument of a command line, which may be an integer literal.
* `Racs.KeepsValues` — a command works with the numbers that the literals denote, or it replies with
  an error and changes nothing.
* `Racs.Accepts`, `Racs.Fits` — a command lets arguments pass, and the literals fit the types that
  it works with.

## Main results

* `Racs.toInt_int64` — the number of 64 bits.
* `Racs.nextToken_literal` — the token that a literal becomes.
* `Racs.keepsValues_iff` — which arguments keep their values.
-/

namespace Racs

open MessagePack Regex

variable {δ : Type}

/-! ### Literals as arguments -/

/-- The number in the token of a literal. -/
def IntLiteral.int64 (lit : IntLiteral) : Int64 :=
  (if 2 ^ 64 ≤ lit.value.natAbs then UInt64.ofNat (2 ^ 64 - 1)
    else UInt64.ofInt lit.value).toInt64

/-- The token of a literal. -/
theorem readLexeme_text (atof : List Char → δ) (lit : IntLiteral) :
    readLexeme atof lit.text .int = some (.int lit.int64) := by
  rw [readLexeme, strtoull_text, Option.map_some, IntLiteral.int64]

/-- **The number of 64 bits**: a literal of more than 64 bits becomes -1, and the others keep their
value up to multiples of 2^64. -/
theorem toInt_int64 (lit : IntLiteral) :
    lit.int64.toInt = if 2 ^ 64 ≤ lit.value.natAbs then -1 else lit.value.bmod (2 ^ 64) := by
  rw [IntLiteral.int64]
  split_ifs
  · rfl
  · have hnonneg : 0 ≤ lit.value % 2 ^ 64 := Int.emod_nonneg _ (by decide)
    have hlt : lit.value % 2 ^ 64 < 2 ^ 64 := Int.emod_lt_of_pos _ (by decide)
    rw [← Int64.toInt_toBitVec, UInt64.toBitVec_toInt64, UInt64.ofInt, UInt64.toBitVec_ofNat',
      BitVec.toInt_eq_toNat_bmod, BitVec.toNat_ofNat, Nat.mod_eq_of_lt (by omega),
      Int.toNat_of_nonneg hnonneg]
    exact Int.emod_bmod ..

theorem toInt_int64_of_mem {lit : IntLiteral} (hlow : -2 ^ 63 ≤ lit.value)
    (hhigh : lit.value < 2 ^ 63) : lit.int64.toInt = lit.value := by
  rw [toInt_int64, if_neg (by omega), Int.bmod_eq_of_le (by omega) (by omega)]

/-- A time and a number with a point have a character that no integer has. -/
theorem exists_not_mem_symbols {l : Lexeme} (hl : l = .time ∨ l = .float) {s : List Char}
    (h : s ∈ l.regex.body.matches') : ∃ c ∈ s, c ∉ symbols regexInt.body := by
  rcases hl with rfl | rfl
  · obtain ⟨lit, rfl⟩ := mem_regexTime.mp h
    exact ⟨'T', by simp [TimeLiteral.text], by decide⟩
  · refine ⟨'.', ?_, by decide⟩
    obtain ⟨a, -, b, hb, rfl⟩ := Language.mem_mul.mp h
    rcases hb with hb | hb
    all_goals
      obtain ⟨ds, -, u, hu, rfl⟩ := Language.mem_mul.mp hb
      obtain ⟨t, -, rfl⟩ := mem_char_mul.mp hu
      simp

/-- The expressions tried on the first character of a literal are those of times and numbers, and
none of them goes on behind white space or a bar. -/
theorem candidates_of_literal {c : Char} (h : c ∈ symbols regexInt.body) :
    isSpace c = false ∧ ∀ l ∈ candidates c, ((l = .time ∨ l = .float) ∨ l = .int) ∧
      ∀ d, isSpace d = true ∨ d = '|' → d ∉ symbols l.regex.body := by
  have hkinds : ∀ c ∈ symbols regexInt.body, isSpace c = false ∧
      ∀ l ∈ candidates c, (l = .time ∨ l = .float) ∨ l = .int :=
    List.all_iff_forall_prop.mp (by decide)
  have hends : ∀ l, (l = .time ∨ l = .float) ∨ l = .int →
      ∀ d ∈ symbols (Lexeme.regex l).body, ¬(isSpace d = true ∨ d = '|') := by
    rintro l ((rfl | rfl) | rfl)
    all_goals exact List.all_iff_forall_prop.mp (by decide)
  obtain ⟨hspace, hkind⟩ := hkinds c h
  exact ⟨hspace, fun l hl => ⟨hkind l hl, fun d hd hmem => hends l (hkind l hl) d hmem hd⟩⟩

/-- **The token of a literal** in front of white space, a bar or the end of the text. -/
theorem nextToken_literal (atof : List Char → δ) (lit : IntLiteral) {rest : List Char}
    (hrest : ∀ d ∈ rest.head?, isSpace d = true ∨ d = '|') (curr : ℕ) :
    nextToken atof ⟨lit.text ++ rest, curr⟩ =
      some (some (.int lit.int64), ⟨rest, curr + lit.text.length⟩) := by
  have hmem : lit.text ∈ (Lexeme.regex .int).body.matches' := mem_regexInt.mpr ⟨lit, rfl⟩
  obtain ⟨c, t, htext, hint⟩ := exists_cons_of_mem hmem
  have hsymbols := mem_symbols_of_mem hmem
  obtain ⟨hspace, hcandidates⟩ :=
    candidates_of_literal (hsymbols c (htext ▸ List.mem_cons_self))
  have hstart : skipSpace ⟨lit.text ++ rest, curr⟩ = ⟨lit.text ++ rest, curr⟩ := by
    rw [skipSpace_eq, htext, List.cons_append, List.dropWhile_cons_of_neg (by simp [hspace]),
      List.takeWhile_cons_of_neg (by simp [hspace])]
    rfl
  have hfirst : lit.text ++ rest = c :: (t ++ rest) := congrArg (· ++ rest) htext
  rcases nextToken_cases atof _ hstart hfirst with
    ⟨l, s, rest', hs, hmatch, -, hnext⟩ | ⟨l, hl, hkind, -⟩ | ⟨hnone, -⟩
  · -- the match stays inside of the literal, and is the literal if it is of an integer
    obtain ⟨hkind, hend⟩ := hcandidates l
      (mem_candidates_of_front (hfirst ▸ hmatch.isPrefix) hmatch.matched)
    have hinside := isPrefix_of_symbols hmatch.matched hmatch.isPrefix
      fun d hd => hend d (hrest d hd)
    rcases hkind with hkind | rfl
    · obtain ⟨d, hd, hnot⟩ := exists_not_mem_symbols hkind hmatch.matched
      exact absurd (hsymbols d (hinside.subset hd)) hnot
    · obtain rfl : s = lit.text :=
        hinside.eq_of_length_le (hmatch.longest _ (List.prefix_append _ _) hmem)
      obtain rfl := List.append_cancel_left hs
      rw [hnext, readLexeme_text]
      rfl
  · rcases (hcandidates l hl).1 with (rfl | rfl) | rfl <;> rcases hkind with h | h <;> cases h
  · exact absurd hmem (longest_eq_none_iff.mp (longest_of_matchToken (hnone .int hint)) _
      (List.prefix_append _ _))

/-- An argument of a command line. -/
inductive Argument (δ : Type)
  | literal (lit : IntLiteral)
  | other (arg : CommandArg δ)

namespace Argument

/-- The argument that a command gets. -/
def arg : Argument δ → CommandArg δ
  | .literal lit => .int lit.int64
  | .other arg => arg

/-- If the argument is an integer literal, it denotes the number. -/
def Denotes : Argument δ → ℤ → Prop
  | .literal lit, z => lit.value = z
  | .other _, _ => True

/-- If the argument is an integer literal, it denotes a number between two bounds. -/
def FitsIn (low high : ℤ) : Argument δ → Prop
  | .literal lit => low ≤ lit.value ∧ lit.value < high
  | .other _ => True

instance (low high : ℤ) : (a : Argument δ) → Decidable (a.FitsIn low high)
  | .literal _ => inferInstanceAs (Decidable (_ ∧ _))
  | .other _ => inferInstanceAs (Decidable True)

variable {a : Argument δ} {z : Int64} {low high f : ℤ}

/-- A literal that fits is not changed by a conversion that keeps the numbers between the bounds. -/
theorem FitsIn.denotes (h : a.FitsIn low high) (ha : a.arg.item = .int z) (hlow : -2 ^ 63 ≤ low)
    (hhigh : high ≤ 2 ^ 63) (hf : low ≤ z.toInt → z.toInt < high → f = z.toInt) : a.Denotes f := by
  cases a with
  | other arg => trivial
  | literal lit =>
    obtain ⟨hle, hlt⟩ := h
    obtain rfl := Item.int.inj ha
    have hvalue := @toInt_int64_of_mem lit (by omega) (by omega)
    exact (hvalue.symm.trans (hf (by omega) (by omega)).symm)

theorem Denotes.fitsIn (h : a.Denotes f) (hlow : low ≤ f) (hhigh : f < high) :
    a.FitsIn low high := by
  cases a with
  | other arg => trivial
  | literal lit =>
    obtain rfl : lit.value = f := h
    exact ⟨hlow, hhigh⟩

end Argument

/-! ### The commands -/

/-- The commands that work with integers. -/
inductive NumberCommand
  | create
  | clip
  | split
  deriving DecidableEq

/-- The command. -/
def NumberCommand.name : NumberCommand → CommandName
  | .create => .create
  | .clip => .clip
  | .split => .split

/-- The arguments that are to be integers. -/
def NumberCommand.numberArgs {α : Type} : NumberCommand → List α → List α
  | .create, args => args.drop 1
  | .clip, args => args
  | .split, args => args

/-- The bounds of the types that a command works with: `racs_uint32` and `racs_uint16`,
`racs_int32`, and `racs_uint16`. -/
def NumberCommand.ranges : NumberCommand → List (ℤ × ℤ)
  | .create => [(0, 2 ^ 32), (0, 2 ^ 16), (0, 2 ^ 16)]
  | .clip => [(-2 ^ 31, 2 ^ 31), (-2 ^ 31, 2 ^ 31)]
  | .split => [(0, 2 ^ 16)]

variable {P : Platform} (b : Backend P)

/-- A command replies with an error and changes nothing. -/
def Refuses (c : CommandDef δ) (cmd : Command δ) (out : Buffer δ) (s : Store) (isFinal : Bool) :
    Prop :=
  ∃ reply, c.run (serializeArgs cmd) out s isFinal = some (reply, s) ∧ reply.1 ≠ .ok

/-- The numbers that a command works with: those in the metadata of the new stream, the bounds of
the samples, or the channel. -/
def WorksWith (c : NumberCommand) (cmd : Command P.Double) (out : Buffer P.Double) (s : Store)
    (isFinal : Bool) (numbers : List ℤ) : Prop :=
  let reply := (command b c.name).run (serializeArgs cmd) out s isFinal
  match c with
  | .create => ∃ streamId s' md, cmd.args.head? = some (.str streamId) ∧
      reply = some (packNullWithStatusOk [], s') ∧
      metadataGet s'.disk.metadata (racsHash (cString streamId)) = some md ∧
      numbers = [(md.sampleRate.toNat : ℤ), md.channels.toNat, md.bitDepth.toNat]
  | .clip => ∃ audio : Audio, ∃ min max : Int32, bufferSamples out = some audio.words ∧
      reply = (finish "CLIP" (packAudio (opsClip P audio min max) isFinal)).map (·, s) ∧
      numbers = [min.toInt, max.toInt]
  | .split => ∃ audio : Audio, ∃ channel : UInt16, bufferSamples out = some audio.words ∧
      reply = (finish "SPLIT" (packAudio (opsSplit P audio channel) isFinal)).map (·, s) ∧
      numbers = [(channel.toNat : ℤ)]

/-- **The literals keep their values**: a command works with the numbers that they denote, or it
replies with an error and changes nothing. -/
def KeepsValues (c : NumberCommand) (args : List (Argument P.Double)) (cmd : Command P.Double)
    (out : Buffer P.Double) (s : Store) (isFinal : Bool) : Prop :=
  Refuses (command b c.name) cmd out s isFinal ∨
    ∃ numbers, WorksWith b c cmd out s isFinal numbers ∧
      List.Forall₂ Argument.Denotes (c.numberArgs args) numbers

/-- A command lets its arguments pass: they have the right signs, the stream is new or there is
audio, and the number of bits, the number of channels and the channel are right behind the cut to
16 bits. -/
def Accepts (c : NumberCommand) (args : List (Item δ)) (out : Buffer δ) (s : Store) : Prop :=
  match c with
  | .create => ∃ streamId, ∃ sampleRate channels bitDepth : Int64,
      args = [.str streamId, .int sampleRate, .int channels, .int bitDepth] ∧
      0 ≤ sampleRate ∧ 0 ≤ channels ∧ 0 ≤ bitDepth ∧
      (bitDepth.toUInt64.toUInt16 = 16 ∨ bitDepth.toUInt64.toUInt16 = 24) ∧
      (channels.toUInt64.toUInt16 = 1 ∨ channels.toUInt64.toUInt16 = 2) ∧
      metadataGet s.disk.metadata (racsHash (cString streamId)) = none
  | .clip => ∃ min max : Int64, args = [.int min, .int max] ∧ min < 0 ∧ 0 ≤ max ∧
      ∃ audio : Audio, bufferSamples out = some audio.words
  | .split => ∃ channel : Int64, args = [.int channel] ∧ 0 ≤ channel ∧
      channel.toUInt64.toUInt16 ≤ 1 ∧
      ∃ audio : Audio, bufferSamples out = some audio.words ∧ audio.channels = 2

/-- The literals denote numbers of the types that the command works with. -/
def Fits (c : NumberCommand) (args : List (Argument δ)) : Prop :=
  List.Forall₂ (fun a r => Argument.FitsIn r.1 r.2 a) (c.numberArgs args) c.ranges

instance (c : NumberCommand) (args : List (Argument δ)) : Decidable (Fits c args) :=
  inferInstanceAs (Decidable (List.Forall₂ _ _ _))

/-! ### What the commands do -/

section Run

variable {c : CommandDef δ} {cmd : Command δ} {out : Buffer δ} {s : Store} {isFinal : Bool}

/-- A command that does not read the buffer refuses its arguments or runs its body. -/
theorem run_plain_cases {f} (hbody : c.body = .plain f) (cmd : Command δ) (out : Buffer δ)
    (s : Store) (isFinal : Bool) :
    (¬ ArgsValid c.args (cmd.args.map CommandArg.item) ∧ Refuses c cmd out s isFinal) ∨
    (ArgsValid c.args (cmd.args.map CommandArg.item) ∧
      c.run (serializeArgs cmd) out s isFinal = f (cmd.args.map CommandArg.item) s isFinal) := by
  simp only [Refuses, CommandDef.run, unpackNext_serializeArgs, hbody]
  rcases validateArgs_cases [] c.name c.args (cmd.args.map CommandArg.item) with
    ⟨hlen, heq⟩ | ⟨-, hvalid, message, heq⟩ | ⟨-, hvalid, heq⟩
  · rw [heq]
    exact .inl ⟨fun h => hlen ((argsValid_iff _ _).mp h).1, _, rfl, Status.noConfusion⟩
  · rw [heq]
    exact .inl ⟨hvalid, _, rfl, Status.noConfusion⟩
  · rw [heq]
    exact .inr ⟨hvalid, rfl⟩

/-- A command that reads samples from the buffer refuses its arguments or the buffer, or runs its
body on the samples. -/
theorem run_vector_cases {f} (hbody : c.body = .vector f) (cmd : Command δ)
    (hout : out = [] ∨ Tagged out) (s : Store) (isFinal : Bool) :
    (¬ (ArgsValid c.args (cmd.args.map CommandArg.item) ∧
      ∃ samples, bufferSamples out = some samples) ∧ Refuses c cmd out s isFinal) ∨
    (ArgsValid c.args (cmd.args.map CommandArg.item) ∧ ∃ samples,
      bufferSamples out = some samples ∧ c.run (serializeArgs cmd) out s isFinal =
        (finish c.name (f (cmd.args.map CommandArg.item) samples isFinal)).map (·, s)) := by
  simp only [Refuses, CommandDef.run, unpackNext_serializeArgs, hbody]
  rcases validateArgs_cases out c.name c.args (cmd.args.map CommandArg.item) with
    ⟨hlen, heq⟩ | ⟨-, hvalid, message, heq⟩ | ⟨-, hvalid, heq⟩
  · rw [heq]
    exact .inl ⟨fun h => hlen ((argsValid_iff _ _).mp h.1).1, _, rfl, Status.noConfusion⟩
  · rw [heq]
    exact .inl ⟨fun h => hvalid h.1, _, rfl, Status.noConfusion⟩
  · rw [heq]
    rcases validateS32v_cases hout with ⟨message, hval, hnone⟩ | ⟨samples, hval, hsome⟩
    · rw [hval]
      refine .inl ⟨?_, _, rfl, Status.noConfusion⟩
      rintro ⟨-, samples, hsome⟩
      cases hnone.symm.trans hsome
    · rw [hval]
      refine .inr ⟨hvalid, samples, hsome, ?_⟩
      dsimp only
      rw [pure_bind]

end Run

/-- Packing the result of an operation is no error. -/
theorem packAudio_status {name : String} {out : Option (Option Audio)} {isFinal : Bool}
    {reply : Reply P.Double} (h : finish name (packAudio out isFinal) = some reply) :
    reply.1 = .ok := by
  rcases out with - | - | audio
  · cases h
  · cases h
  · obtain rfl := Option.some.inj h
    rfl

theorem not_refuses_of_packAudio {name : String} {c : CommandDef P.Double}
    {cmd : Command P.Double} {out : Buffer P.Double} {s : Store} {isFinal : Bool}
    {result : Option (Option Audio)} (h : c.run (serializeArgs cmd) out s isFinal =
      (finish name (packAudio result isFinal)).map (·, s)) : ¬ Refuses c cmd out s isFinal := by
  rintro ⟨reply, hrun, hstatus⟩
  obtain ⟨r, hr, heq⟩ := Option.map_eq_some_iff.mp (h.symm.trans hrun)
  obtain ⟨rfl, -⟩ := Prod.mk.inj heq
  exact hstatus (packAudio_status hr)

variable {b} {args : List (Argument P.Double)} {cmd : Command P.Double} {out : Buffer P.Double}
  {s : Store} {isFinal : Bool}

theorem type_int_eq_positive {z : Int64} :
    (Item.int z : Item δ).type = .positiveInteger ↔ 0 ≤ z := by
  by_cases h : 0 ≤ z <;> simp [Item.type, h]

theorem type_int_eq_negative {z : Int64} :
    (Item.int z : Item δ).type = .negativeInteger ↔ z < 0 := by
  rw [← Int64.not_le]
  by_cases h : 0 ≤ z <;> simp [Item.type, h]

/-- The input of a command on audio is audio or too short. -/
theorem audioInput_cases (samples : List Int32) :
    (∃ audio, samples = audio.words ∧ audioInput samples = pure audio) ∨
    ((∀ audio, samples ≠ Audio.words audio) ∧
      audioInput samples = throw "Missing input data.") := by
  rw [audioInput]
  rcases hwords : Audio.ofWords samples with - | audio
  · refine .inr ⟨?_, rfl⟩
    rintro audio rfl
    cases hwords
  · exact .inl ⟨audio, Audio.eq_words_of_ofWords hwords, rfl⟩

/-- Creating a stream that exists changes nothing, and a new stream gets its metadata. -/
theorem streamCreate_cases (md : MetadataDir) (streamId : { id : List UInt8 // 0 ∉ id })
    (sampleRate : UInt32) (channels bitDepth : UInt16) (now : Int64) :
    (metadataGet md (racsHash streamId) ≠ none ∧
      streamCreate md streamId sampleRate channels bitDepth now = (md, false)) ∨
    (metadataGet md (racsHash streamId) = none ∧
      (streamCreate md streamId sampleRate channels bitDepth now).2 = true ∧
      metadataGet (streamCreate md streamId sampleRate channels bitDepth now).1
          (racsHash streamId) =
        some ⟨channels, bitDepth, sampleRate, now, -1, streamId, streamId.2⟩) := by
  rcases h : metadataGet md (racsHash streamId) with - | m
  · refine .inr ⟨rfl, ?_, ?_⟩
    · simp only [streamCreate, h]
    · simp only [streamCreate, h, metadataPut]
      exact AList.lookup_insert md
  · refine .inl ⟨Option.some_ne_none m, ?_⟩
    simp only [streamCreate, h]

section Create

variable {streamId : List UInt8} {sampleRate channels bitDepth : Int64}

theorem argsValid_create_iff {items : List (Item P.Double)} :
    ArgsValid (command b .create).args items ↔
      ∃ streamId, ∃ sampleRate channels bitDepth : Int64,
        items = [.str streamId, .int sampleRate, .int channels, .int bitDepth] ∧
        0 ≤ sampleRate ∧ 0 ≤ channels ∧ 0 ≤ bitDepth := by
  constructor
  · intro h
    obtain ⟨a, items, rfl, ha, h⟩ := List.map_eq_cons_iff.mp h
    obtain ⟨a₁, items, rfl, ha₁, h⟩ := List.map_eq_cons_iff.mp h
    obtain ⟨a₂, a₃, rfl, ha₂, ha₃⟩ := @argsValid_two _ _ _
      "Invalid type at arg 3. Expected: positive int"
      "Invalid type at arg 4. Expected: positive int" _ h
    obtain ⟨streamId, rfl⟩ := Item.exists_str ha
    obtain ⟨sampleRate, rfl⟩ := Item.exists_int (.inl ha₁)
    obtain ⟨channels, rfl⟩ := Item.exists_int (.inl ha₂)
    obtain ⟨bitDepth, rfl⟩ := Item.exists_int (.inl ha₃)
    exact ⟨streamId, sampleRate, channels, bitDepth, rfl, type_int_eq_positive.mp ha₁,
      type_int_eq_positive.mp ha₂, type_int_eq_positive.mp ha₃⟩
  · rintro ⟨streamId, sampleRate, channels, bitDepth, rfl, hrate, hchannels, hdepth⟩
    exact congrArg (List.cons ObjectType.str)
      (congrArg₂ List.cons (type_int_eq_positive.mpr hrate)
        (congrArg₂ (fun t t' => [t, t']) (type_int_eq_positive.mpr hchannels)
          (type_int_eq_positive.mpr hdepth)))

/-- CREATE accepts arguments of the right types if the checks behind the cut pass. -/
theorem accepts_create_iff (hrate : 0 ≤ sampleRate) (hchannels : 0 ≤ channels)
    (hdepth : 0 ≤ bitDepth) :
    Accepts .create [Item.str streamId, .int sampleRate, .int channels,
        (.int bitDepth : Item P.Double)] out s ↔
      (bitDepth.toUInt64.toUInt16 = 16 ∨ bitDepth.toUInt64.toUInt16 = 24) ∧
        (channels.toUInt64.toUInt16 = 1 ∨ channels.toUInt64.toUInt16 = 2) ∧
        metadataGet s.disk.metadata (racsHash (cString streamId)) = none := by
  constructor
  · rintro ⟨streamId', sampleRate', channels', bitDepth', hargs, -, -, -, h⟩
    simp only [List.cons.injEq, Item.str.injEq, Item.int.injEq, and_true] at hargs
    obtain ⟨rfl, rfl, rfl, rfl⟩ := hargs
    exact h
  · exact fun h => ⟨streamId, sampleRate, channels, bitDepth, rfl, hrate, hchannels, hdepth, h⟩

theorem head_args (heq : cmd.args.map CommandArg.item =
    [.str streamId, .int sampleRate, .int channels, .int bitDepth]) :
    cmd.args.head? = some (.str streamId) := by
  obtain ⟨arg, rest, hargs, harg, -⟩ := List.map_eq_cons_iff.mp heq
  rw [hargs, List.head?_cons]
  cases arg with
  | str s => rw [Item.str.inj harg]
  | int z => cases harg
  | float x => cases harg

end Create

/-- CREATE refuses its arguments, or it works with what is left of them. -/
theorem create_cases (cmd : Command P.Double) (out : Buffer P.Double) (s : Store) (isFinal : Bool) :
    (¬ Accepts .create (cmd.args.map CommandArg.item) out s ∧
      Refuses (command b .create) cmd out s isFinal) ∨
    (¬ Refuses (command b .create) cmd out s isFinal ∧
      ∃ streamId, ∃ sampleRate channels bitDepth : Int64, cmd.args.map CommandArg.item =
          [.str streamId, .int sampleRate, .int channels, .int bitDepth] ∧
        Accepts .create (cmd.args.map CommandArg.item) out s ∧
        WorksWith b .create cmd out s isFinal [(sampleRate.toUInt64.toUInt32.toNat : ℤ),
          channels.toUInt64.toUInt16.toNat, bitDepth.toUInt64.toUInt16.toNat]) := by
  rcases @run_plain_cases _ (command b .create) _ rfl cmd out s isFinal with
    ⟨hinvalid, hrefuses⟩ | ⟨hvalid, hrun⟩
  · refine .inl ⟨?_, hrefuses⟩
    rintro ⟨streamId, sampleRate, channels, bitDepth, heq, hrate, hchannels, hdepth, -⟩
    exact hinvalid (argsValid_create_iff.mpr
      ⟨streamId, sampleRate, channels, bitDepth, heq, hrate, hchannels, hdepth⟩)
  · obtain ⟨streamId, sampleRate, channels, bitDepth, heq, hrate, hchannels, hdepth⟩ :=
      argsValid_create_iff.mp hvalid
    have haccepts := @accepts_create_iff P out s streamId _ _ _ hrate hchannels hdepth
    have hhead := head_args heq
    rw [heq] at hrun ⊢
    dsimp only at hrun
    by_cases hbits : bitDepth.toUInt64.toUInt16 ≠ 16 ∧ bitDepth.toUInt64.toUInt16 ≠ 24
    · rw [if_pos hbits] at hrun
      exact .inl ⟨fun h => (haccepts.mp h).1.elim hbits.1 hbits.2, _, hrun, Status.noConfusion⟩
    rw [if_neg hbits] at hrun
    by_cases hnumber : channels.toUInt64.toUInt16 ≠ 1 ∧ channels.toUInt64.toUInt16 ≠ 2
    · rw [if_pos hnumber] at hrun
      exact .inl ⟨fun h => (haccepts.mp h).2.1.elim hnumber.1 hnumber.2, _, hrun,
        Status.noConfusion⟩
    rw [if_neg hnumber] at hrun
    rcases streamCreate_cases s.disk.metadata (streamName streamId) sampleRate.toUInt64.toUInt32
        channels.toUInt64.toUInt16 bitDepth.toUInt64.toUInt16 (b.timeNow s) with
      ⟨hmd, hcreate⟩ | ⟨hmd, hnew, hget⟩
    · simp only [hcreate, Bool.false_eq_true, if_false] at hrun
      exact .inl ⟨fun h => hmd (haccepts.mp h).2.2, _, hrun, Status.noConfusion⟩
    · simp only [hnew, if_true] at hrun
      refine .inr ⟨?_, streamId, sampleRate, channels, bitDepth, rfl, haccepts.mpr ⟨?_, ?_, hmd⟩,
        streamId, _, _, hhead, hrun, hget, rfl⟩
      · rintro ⟨reply, hreply, hstatus⟩
        obtain ⟨rfl, -⟩ := Prod.mk.inj (Option.some.inj (hrun.symm.trans hreply))
        exact hstatus rfl
      · exact (Decidable.not_and_iff_not_or_not.mp hbits).imp not_not.mp not_not.mp
      · exact (Decidable.not_and_iff_not_or_not.mp hnumber).imp not_not.mp not_not.mp

/-- CLIP refuses its arguments, or it works with what is left of them. -/
theorem clip_cases (cmd : Command P.Double) (hout : out = [] ∨ Tagged out) (s : Store)
    (isFinal : Bool) :
    (¬ Accepts .clip (cmd.args.map CommandArg.item) out s ∧
      Refuses (command b .clip) cmd out s isFinal) ∨
    (¬ Refuses (command b .clip) cmd out s isFinal ∧
      ∃ min max : Int64, cmd.args.map CommandArg.item = [.int min, .int max] ∧
        Accepts .clip (cmd.args.map CommandArg.item) out s ∧
        WorksWith b .clip cmd out s isFinal [min.toInt32.toInt, max.toInt32.toInt]) := by
  rcases @run_vector_cases _ (command b .clip) out _ rfl cmd hout s isFinal with
    ⟨hnot, hrefuses⟩ | ⟨hvalid, samples, hsamples, hrun⟩
  · refine .inl ⟨?_, hrefuses⟩
    rintro ⟨min, max, heq, hmin, hmax, audio, hsamples⟩
    refine hnot ⟨?_, audio.words, hsamples⟩
    rw [heq]
    exact congrArg₂ (fun t t' => [t, t']) (type_int_eq_negative.mpr hmin)
      (type_int_eq_positive.mpr hmax)
  · obtain ⟨x, y, heq, hx, hy⟩ := argsValid_two hvalid
    obtain ⟨min, rfl⟩ := Item.exists_int (.inr hx)
    obtain ⟨max, rfl⟩ := Item.exists_int (.inl hy)
    rw [heq] at hrun ⊢
    rcases audioInput_cases samples with ⟨audio, rfl, haudio⟩ | ⟨hshort, hthrow⟩
    · simp only [haudio, pure_bind] at hrun
      exact .inr ⟨not_refuses_of_packAudio hrun, min, max, rfl, ⟨min, max, rfl,
        type_int_eq_negative.mp hx, type_int_eq_positive.mp hy, audio, hsamples⟩, audio,
        min.toInt32, max.toInt32, hsamples, hrun, rfl⟩
    · simp only [hthrow] at hrun
      refine .inl ⟨?_, _, hrun, Status.noConfusion⟩
      rintro ⟨-, -, -, -, -, audio, haudio⟩
      exact hshort audio (Option.some.inj (hsamples.symm.trans haudio))

/-- SPLIT refuses its argument, or it works with what is left of it. -/
theorem split_cases (cmd : Command P.Double) (hout : out = [] ∨ Tagged out) (s : Store)
    (isFinal : Bool) :
    (¬ Accepts .split (cmd.args.map CommandArg.item) out s ∧
      Refuses (command b .split) cmd out s isFinal) ∨
    (¬ Refuses (command b .split) cmd out s isFinal ∧
      ∃ channel : Int64, cmd.args.map CommandArg.item = [.int channel] ∧
        Accepts .split (cmd.args.map CommandArg.item) out s ∧
        WorksWith b .split cmd out s isFinal [(channel.toUInt64.toUInt16.toNat : ℤ)]) := by
  rcases @run_vector_cases _ (command b .split) out _ rfl cmd hout s isFinal with
    ⟨hnot, hrefuses⟩ | ⟨hvalid, samples, hsamples, hrun⟩
  · refine .inl ⟨?_, hrefuses⟩
    rintro ⟨channel, heq, hpos, -, audio, hsamples, -⟩
    refine hnot ⟨?_, audio.words, hsamples⟩
    rw [heq]
    exact congrArg (fun t => [t]) (type_int_eq_positive.mpr hpos)
  · obtain ⟨x, heq, hx⟩ := argsValid_one hvalid
    obtain ⟨channel, rfl⟩ := Item.exists_int (.inl hx)
    rw [heq] at hrun ⊢
    rcases audioInput_cases samples with ⟨audio, rfl, haudio⟩ | ⟨hshort, hthrow⟩
    · simp only [haudio, pure_bind] at hrun
      by_cases hchannels : audio.channels = 2
      · by_cases hchannel : 1 < channel.toUInt64.toUInt16
        · simp only [hchannels, hchannel, ne_eq, not_true_eq_false, if_false, if_true] at hrun
          refine .inl ⟨?_, _, hrun, Status.noConfusion⟩
          rintro ⟨channel', hargs, -, hle, -⟩
          obtain rfl := Item.int.inj (List.cons.inj hargs).1
          exact UInt16.not_lt.mpr hle hchannel
        · simp only [hchannels, hchannel, ne_eq, not_true_eq_false, if_false] at hrun
          exact .inr ⟨not_refuses_of_packAudio hrun, channel, rfl, ⟨channel, rfl,
            type_int_eq_positive.mp hx, UInt16.not_lt.mp hchannel, audio, hsamples, hchannels⟩,
            audio, _, hsamples, hrun, rfl⟩
      · simp only [hchannels, ne_eq, not_false_eq_true, if_true] at hrun
        refine .inl ⟨?_, _, hrun, Status.noConfusion⟩
        rintro ⟨-, -, -, -, audio', haudio', htwo⟩
        obtain rfl : audio = audio' := Option.some.inj
          (congrArg Audio.ofWords (Option.some.inj (hsamples.symm.trans haudio')))
        exact hchannels htwo
    · simp only [hthrow] at hrun
      refine .inl ⟨?_, _, hrun, Status.noConfusion⟩
      rintro ⟨-, -, -, -, audio, haudio, -⟩
      exact hshort audio (Option.some.inj (hsamples.symm.trans haudio))

/-! ### Which literals keep their values -/

/-- A command works with numbers of its types. -/
theorem WorksWith.ranges {c : NumberCommand} {numbers : List ℤ}
    (h : WorksWith b c cmd out s isFinal numbers) :
    List.Forall₂ (fun n r => r.1 ≤ n ∧ n < r.2) numbers c.ranges := by
  cases c
  case create =>
    obtain ⟨streamId, s', md, -, -, -, rfl⟩ := h
    have hrate := md.sampleRate.toNat_lt
    have hchannels := md.channels.toNat_lt
    have hdepth := md.bitDepth.toNat_lt
    exact .cons (by omega) (.cons (by omega) (.cons (by omega) .nil))
  case clip =>
    obtain ⟨audio, min, max, -, -, rfl⟩ := h
    exact .cons ⟨min.le_toInt, min.toInt_lt⟩ (.cons ⟨max.le_toInt, max.toInt_lt⟩ .nil)
  case split =>
    obtain ⟨audio, channel, -, -, rfl⟩ := h
    have hchannel := channel.toNat_lt
    exact .cons (by omega) .nil

/-- Literals that denote numbers of the types of a command fit them. -/
theorem forall₂_fitsIn {args : List (Argument δ)} {numbers : List ℤ} {ranges : List (ℤ × ℤ)}
    (h : List.Forall₂ Argument.Denotes args numbers)
    (hranges : List.Forall₂ (fun n r => r.1 ≤ n ∧ n < r.2) numbers ranges) :
    List.Forall₂ (fun a r => Argument.FitsIn r.1 r.2 a) args ranges := by
  induction h generalizing ranges with
  | nil =>
    cases hranges
    exact .nil
  | cons hdenotes _ ih =>
    cases hranges with
    | cons hrange hranges => exact .cons (hdenotes.fitsIn hrange.1 hrange.2) (ih hranges)

section Conversions

variable {z : Int64}

theorem toNat_toUInt64 (h : 0 ≤ z.toInt) : (z.toUInt64.toNat : ℤ) = z.toInt := by
  rw [Int64.toNat_toUInt64_of_le (Int64.le_iff_toInt_le.mpr h), Int64.toNatClampNeg,
    Int.toNat_of_nonneg h]

theorem toNat_toUInt32 (h : 0 ≤ z.toInt) (hlt : z.toInt < 2 ^ 32) :
    (z.toUInt64.toUInt32.toNat : ℤ) = z.toInt := by
  have hnat := toNat_toUInt64 h
  rw [UInt64.toNat_toUInt32]
  omega

theorem toNat_toUInt16 (h : 0 ≤ z.toInt) (hlt : z.toInt < 2 ^ 16) :
    (z.toUInt64.toUInt16.toNat : ℤ) = z.toInt := by
  have hnat := toNat_toUInt64 h
  rw [UInt64.toNat_toUInt16]
  omega

theorem toInt_toInt32 (h : -2 ^ 31 ≤ z.toInt) (hlt : z.toInt < 2 ^ 31) :
    z.toInt32.toInt = z.toInt := by
  rw [Int64.toInt_toInt32, Int.bmod_eq_of_le (by omega) (by omega)]

end Conversions

/-- A command refuses its arguments, or it works with numbers that the literals denote if they fit
its types. -/
theorem keepsValues_cases (c : NumberCommand) (hcmd : cmd.args = args.map Argument.arg)
    (hout : out = [] ∨ Tagged out) (s : Store) (isFinal : Bool) :
    (¬ Accepts c (cmd.args.map CommandArg.item) out s ∧
      Refuses (command b c.name) cmd out s isFinal) ∨
    (¬ Refuses (command b c.name) cmd out s isFinal ∧
      Accepts c (cmd.args.map CommandArg.item) out s ∧
      ∃ numbers, WorksWith b c cmd out s isFinal numbers ∧
        (Fits c args → List.Forall₂ Argument.Denotes (c.numberArgs args) numbers)) := by
  cases c
  case create =>
    refine (create_cases cmd out s isFinal).imp id fun ⟨hnot, streamId, sampleRate, channels,
      bitDepth, heq, haccepts, hworks⟩ => ⟨hnot, haccepts, _, hworks, fun hfits => ?_⟩
    rw [hcmd, List.map_map] at heq
    obtain ⟨a, args', rfl, -, heq⟩ := List.map_eq_cons_iff.mp heq
    obtain ⟨a₁, args', rfl, h₁, heq⟩ := List.map_eq_cons_iff.mp heq
    obtain ⟨a₂, args', rfl, h₂, heq⟩ := List.map_eq_cons_iff.mp heq
    obtain ⟨a₃, rfl, h₃⟩ := List.map_eq_singleton_iff.mp heq
    obtain ⟨hf₁, hfits⟩ := List.forall₂_cons.mp hfits
    obtain ⟨hf₂, hfits⟩ := List.forall₂_cons.mp hfits
    obtain ⟨hf₃, -⟩ := List.forall₂_cons.mp hfits
    exact .cons (hf₁.denotes h₁ (by decide) (by decide) toNat_toUInt32)
      (.cons (hf₂.denotes h₂ (by decide) (by decide) toNat_toUInt16)
        (.cons (hf₃.denotes h₃ (by decide) (by decide) toNat_toUInt16) .nil))
  case clip =>
    refine (clip_cases cmd hout s isFinal).imp id fun ⟨hnot, min, max, heq, haccepts, hworks⟩ =>
      ⟨hnot, haccepts, _, hworks, fun hfits => ?_⟩
    rw [hcmd, List.map_map] at heq
    obtain ⟨a₁, args', rfl, h₁, heq⟩ := List.map_eq_cons_iff.mp heq
    obtain ⟨a₂, rfl, h₂⟩ := List.map_eq_singleton_iff.mp heq
    obtain ⟨hf₁, hfits⟩ := List.forall₂_cons.mp hfits
    obtain ⟨hf₂, -⟩ := List.forall₂_cons.mp hfits
    exact .cons (hf₁.denotes h₁ (by decide) (by decide) toInt_toInt32)
      (.cons (hf₂.denotes h₂ (by decide) (by decide) toInt_toInt32) .nil)
  case split =>
    refine (split_cases cmd hout s isFinal).imp id fun ⟨hnot, channel, heq, haccepts, hworks⟩ =>
      ⟨hnot, haccepts, _, hworks, fun hfits => ?_⟩
    rw [hcmd, List.map_map] at heq
    obtain ⟨a₁, rfl, h₁⟩ := List.map_eq_singleton_iff.mp heq
    obtain ⟨hf₁, -⟩ := List.forall₂_cons.mp hfits
    exact .cons (hf₁.denotes h₁ (by decide) (by decide) toNat_toUInt16) .nil

/-- Where a command lets literals pass that do not fit its types, it works with other numbers. -/
theorem not_keepsValues {c : NumberCommand} (hcmd : cmd.args = args.map Argument.arg)
    (hout : out = [] ∨ Tagged out) (haccepts : Accepts c (cmd.args.map CommandArg.item) out s)
    (hfits : ¬ Fits c args) : ¬ KeepsValues b c args cmd out s isFinal := by
  rintro (hrefuses | ⟨numbers, hworks, hdenotes⟩)
  · rcases @keepsValues_cases _ b _ _ _ c hcmd hout s isFinal with ⟨hnot, -⟩ | ⟨hnot, -⟩
    · exact hnot haccepts
    · exact hnot hrefuses
  · exact hfits (forall₂_fitsIn hdenotes hworks.ranges)

/-- **Which arguments keep their values**: those that a command refuses, and those whose literals
denote numbers of the types that it works with. -/
theorem keepsValues_iff (c : NumberCommand) (hcmd : cmd.args = args.map Argument.arg)
    (hout : out = [] ∨ Tagged out) :
    KeepsValues b c args cmd out s isFinal ↔
      (Accepts c (cmd.args.map CommandArg.item) out s → Fits c args) := by
  constructor
  · intro hkeeps haccepts
    by_contra hfits
    exact not_keepsValues hcmd hout haccepts hfits hkeeps
  · intro h
    rcases @keepsValues_cases _ b _ _ _ c hcmd hout s isFinal with
      ⟨-, hrefuses⟩ | ⟨-, haccepts, numbers, hworks, hdenotes⟩
    · exact .inl hrefuses
    · exact .inr ⟨numbers, hworks, hdenotes (h haccepts)⟩

/-- CREATE with 44100 samples a second, two channels and 16 bits. -/
theorem keepsValues_create :
    KeepsValues .idle .create
      [.other (.str (ascii "a")), .literal ⟨none, 5, by decide, 44100⟩,
        .literal ⟨none, 1, by decide, 2⟩, .literal ⟨some false, 2, by decide, 16⟩]
      (⟨0, ascii "CREATE", [.str (ascii "a"), .int 44100, .int 2, .int 16]⟩ :
        Command Platform.rational.Double)
      [] (Store.init (.small 1 (by decide))) true := by
  exact (keepsValues_iff .create (by decide) (.inl rfl)).mpr fun _ => by decide

/-- CREATE with 65538 channels makes a stereo stream, CLIP at 2^32 + 5 clips at five, and SPLIT of
the channel 65536 returns the channel zero. -/
theorem not_keepsValues_cut :
    ¬ KeepsValues .idle .create
      [.other (.str (ascii "a")), .literal ⟨none, 5, by decide, 44100⟩,
        .literal ⟨none, 5, by decide, 65538⟩, .literal ⟨none, 2, by decide, 16⟩]
      (⟨0, ascii "CREATE", [.str (ascii "a"), .int 44100, .int 65538, .int 16]⟩ :
        Command Platform.rational.Double)
      [] (Store.init (.small 1 (by decide))) true ∧
    ¬ KeepsValues .idle .clip
      [.literal ⟨some true, 1, by decide, 5⟩, .literal ⟨none, 10, by decide, 4294967301⟩]
      (⟨0, ascii "CLIP", [.int (-5), .int 4294967301]⟩ : Command Platform.rational.Double)
      (packS32v [] (Audio.words ⟨1, 0x00010010, [7]⟩)).2 (Store.init (.small 1 (by decide))) true ∧
    ¬ KeepsValues .idle .split
      [.literal ⟨none, 5, by decide, 65536⟩]
      (⟨0, ascii "SPLIT", [.int 65536]⟩ : Command Platform.rational.Double)
      (packS32v [] (Audio.words ⟨1, 0x00020010, [7, 8]⟩)).2 (Store.init (.small 1 (by decide)))
        true := by
  refine ⟨?_, ?_, ?_⟩
  · refine not_keepsValues (by decide) (.inl rfl) ?_ (by decide)
    exact ⟨_, _, _, _, rfl, by decide, by decide, by decide, .inl rfl, .inr rfl, rfl⟩
  · refine not_keepsValues (by decide) (.inr (tagged_packVec _ _)) ?_ (by decide)
    exact ⟨_, _, rfl, by decide, by decide, _, bufferSamples_packS32v (by decide)⟩
  · refine not_keepsValues (by decide) (.inr (tagged_packVec _ _)) ?_ (by decide)
    exact ⟨_, rfl, by decide, by decide, _, bufferSamples_packS32v (by decide), by decide⟩

end Racs
