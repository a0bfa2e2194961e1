import Racs.Command
import Mathlib.Data.List.ReduceOption

/-!
# The files of the metadata

A stream is created by writing its metadata to a temporary file and renaming that file
(`racs_metadata_flush`, `metadata.c`). The name of a file is the number of the stream, and
`racs_streams_list` reads the number off every name that it finds below `.racs/md`, off those of
temporary files as well, and looks the stream up by it.

The server may stop between any two calls of the file system. What it leaves behind is a temporary
file of a stream that is not there, which the next attempt to create the stream replaces.

## Main definitions

* `Racs.MetadataFiles`, `Racs.MetadataStep` — the files, and the calls that change them.
* `Racs.metadataFileGet`, `Racs.metadataFileFlush`, `Racs.streamCreateFile`, `Racs.streamsList`.
* `Racs.Creation` — an attempt to create a stream, which may be cut short.
* `Racs.MetadataFiles.Holds` — the files of a directory of metadata.

## Main results

* `Racs.MetadataFiles.Holds.create` — what an attempt leaves behind.
* `Racs.MetadataFiles.Holds.streamsList_eq`, `Racs.MetadataFiles.Holds.streamsList_backend` — what
  is listed.
* `Racs.streamsList_creations` — what is listed after any attempts to create streams.
-/

namespace Racs

open Decimal

/-! ### The calls -/

/-- The files below `.racs/md`, by path. -/
abbrev MetadataFiles := AList fun _ : List Char => List UInt8

/-- `racs_metadata_path`. -/
def metadataFilePath (dir : List Char) (streamId : UInt64) (tmp : Bool) : List Char :=
  metadataPath dir streamId ++ if tmp then ".tmp".toList else []

/-- A call that changes the files. -/
inductive MetadataStep
  /-- `open` with `O_TRUNC | O_CREAT`. -/
  | openFile (path : List Char)
  /-- `write` of these bytes to a file that was emptied. -/
  | writeFile (path : List Char) (buf : List UInt8)
  | rename (src dst : List Char)

/-- The files after a call. -/
def MetadataStep.apply (files : MetadataFiles) : MetadataStep → MetadataFiles
  | .openFile path => files.insert path []
  | .writeFile path buf => files.insert path buf
  | .rename src dst =>
    match files.lookup src with
    | none => files
    | some data => (files.erase src).insert dst data

/-- Which calls of `racs_metadata_flush` succeed, and how much of the `write` reaches the file if
not all of it does. -/
structure MetadataOutcome where
  openFile : Bool
  flock : Bool
  writeFile : Option ℕ
  rename : Bool

/-- `racs_metadata_flush`. -/
def metadataFileFlush (dir : List Char) (o : MetadataOutcome) (data : List UInt8)
    (streamId : UInt64) : List MetadataStep :=
  let tmpPath := metadataFilePath dir streamId true
  if o.openFile = false then []
  else if o.flock = false then [.openFile tmpPath]
  else [.openFile tmpPath, .writeFile tmpPath (written o.writeFile data)] ++
    if o.rename then [.rename tmpPath (metadataFilePath dir streamId false)] else []

/-- `racs_metadata_get`: none when the file is not there. Reading a file that was cut off is
undefined. -/
def metadataFileGet (dir : List Char) (files : MetadataFiles) (streamId : UInt64) :
    Option (Option Metadata) :=
  match files.lookup (metadataFilePath dir streamId false) with
  | none => some none
  | some data => (metadataRead data).map some

/-- An attempt to create a stream: what `racs_stream_create` is called with, the time, which calls
succeed, and after how many calls the server stops if it does not get to the end. -/
structure Creation where
  streamId : { id : List UInt8 // 0 ∉ id }
  sampleRate : UInt32
  channels : UInt16
  bitDepth : UInt16
  now : Int64
  outcome : MetadataOutcome
  steps : ℕ

/-- The metadata that are written. -/
def Creation.metadata (c : Creation) : Metadata :=
  ⟨c.channels, c.bitDepth, c.sampleRate, c.now, -1, c.streamId, c.streamId.2⟩

/-- `racs_stream_create` with `racs_metadata_put`, up to the call where the server stops. -/
def streamCreateFile (dir : List Char) (files : MetadataFiles) (c : Creation) :
    Option MetadataFiles :=
  (metadataFileGet dir files (racsHash c.streamId)).map fun
    | some _ => files
    | none => ((metadataFileFlush dir c.outcome (metadataWrite c.metadata)
        (racsHash c.streamId)).take c.steps).foldl MetadataStep.apply files

/-- `racs_streams_list`, on the paths that `readdir` returns. -/
def streamsList (dir : List Char) (fnmatch : List UInt8 → List UInt8 → Bool)
    (files : MetadataFiles) (paths : List (List Char)) (pattern : List UInt8) :
    Option (List (List UInt8)) :=
  ((getSortedFilelist paths).mapM fun path => metadataFileGet dir files (pathToStreamId path)).map
    fun found => (found.reduceOption.map Metadata.id).filter (fnmatch pattern)

/-! ### The paths -/

/-- The number of the stream is read off the path of a temporary file as well. -/
theorem pathToStreamId_metadataFilePath (dir : List Char) (streamId : UInt64) (tmp : Bool) :
    pathToStreamId (metadataFilePath dir streamId tmp) = streamId := by
  cases tmp with
  | false =>
    rw [metadataFilePath, if_neg Bool.false_ne_true, List.append_nil]
    exact pathToStreamId_metadataPath dir streamId
  | true =>
    have hdigits : ∀ c ∈ printNat 1 streamId.toNat, c.isDigit = true := fun c hc =>
      isDigit_of_mem_printNat hc
    have hslash : '/' ∉ printNat 1 streamId.toNat ++ ".tmp".toList := by
      refine List.not_mem_append (fun hmem => ?_) (by decide)
      cases hdigits _ hmem
    have hne : printNat 1 streamId.toNat ≠ [] :=
      List.append_ne_nil_of_right_ne_nil _ (List.ne_nil_of_length_pos Nat.length_toDigits_pos)
    have hlt := streamId.toNat_lt
    have hdot : ∀ c ∈ ".tmp".toList.head?, c.isDigit = false :=
      fun c hc => Option.some.inj hc ▸ rfl
    rw [metadataFilePath, if_pos rfl, metadataPath, List.append_assoc, List.cons_append,
      pathToStreamId, basename_append _ hslash, scanInt_digits hdigits hne
        (by rw [List.length_append]; exact Nat.le_add_right ..) hdot, ofDigitChars_printNat]
    dsimp only
    rw [Int.natAbs_natCast, if_neg (by omega), UInt64.ofInt]
    apply UInt64.toNat_inj.mp
    rw [UInt64.toNat_ofNat']
    omega

theorem metadataFilePath_injective {dir : List Char} {streamId streamId' : UInt64}
    {tmp tmp' : Bool}
    (h : metadataFilePath dir streamId tmp = metadataFilePath dir streamId' tmp') :
    streamId = streamId' ∧ tmp = tmp' := by
  have hid := congrArg pathToStreamId h
  rw [pathToStreamId_metadataFilePath, pathToStreamId_metadataFilePath] at hid
  subst hid
  refine ⟨rfl, ?_⟩
  have hext := List.append_cancel_left h
  cases tmp <;> cases tmp' <;> first | rfl | cases hext

/-! ### What an attempt leaves behind -/

/-- The files are those of a directory of metadata, and temporary files of streams that are not in
it. -/
structure MetadataFiles.Holds (dir : List Char) (files : MetadataFiles) (md : MetadataDir) :
    Prop where
  final : ∀ streamId, files.lookup (metadataFilePath dir streamId false) =
    (md.lookup streamId).map metadataWrite
  named : ∀ path ∈ files, ∃ streamId tmp, path = metadataFilePath dir streamId tmp
  pending : ∀ streamId, metadataFilePath dir streamId true ∈ files → md.lookup streamId = none

/-- A `write` that does not put all bytes into the file is the last call before the server stops. -/
def Creation.Sound (c : Creation) : Prop := c.outcome.writeFile = none ∨ c.steps ≤ 2

/-- The attempt gets to rename the file. -/
def Creation.Completes (c : Creation) : Prop :=
  c.outcome.openFile = true ∧ c.outcome.flock = true ∧ c.outcome.rename = true ∧ 3 ≤ c.steps

instance (c : Creation) : Decidable c.Completes := inferInstanceAs (Decidable (_ ∧ _))

/-- The directory of metadata after an attempt. -/
def Creation.create (c : Creation) (md : MetadataDir) : MetadataDir :=
  if c.Completes then
    (streamCreate md c.streamId c.sampleRate c.channels c.bitDepth c.now).1
  else md

variable {dir : List Char} {files : MetadataFiles} {md : MetadataDir} {streamId : UInt64}

theorem MetadataFiles.Holds.empty (dir : List Char) : (∅ : MetadataFiles).Holds dir ∅ :=
  ⟨fun _ => rfl, fun _ h => absurd h (AList.notMem_empty _),
    fun _ h => absurd h (AList.notMem_empty _)⟩

/-- The files are read as the metadata. -/
theorem MetadataFiles.Holds.get (h : files.Holds dir md) (streamId : UInt64) :
    metadataFileGet dir files streamId = some (metadataGet md streamId) := by
  rw [metadataFileGet, h.final, metadataGet]
  rcases md.lookup streamId with - | m
  · rfl
  · exact congrArg (Option.map some) (metadataRead_write m)

/-- A temporary file of a stream that is not there. -/
theorem MetadataFiles.Holds.insert_tmp (h : files.Holds dir md) (hnone : md.lookup streamId = none)
    (buf : List UInt8) :
    MetadataFiles.Holds dir (files.insert (metadataFilePath dir streamId true) buf) md where
  final streamId' := by
    have hne : metadataFilePath dir streamId' false ≠ metadataFilePath dir streamId true :=
      fun heq => Bool.false_ne_true (metadataFilePath_injective heq).2
    rw [AList.lookup_insert_ne hne]
    exact h.final streamId'
  named path hpath := by
    rcases (AList.mem_insert _).mp hpath with rfl | hpath
    · exact ⟨streamId, true, rfl⟩
    · exact h.named path hpath
  pending streamId' hpath := by
    rcases (AList.mem_insert _).mp hpath with heq | hpath
    · rw [(metadataFilePath_injective heq).1]
      exact hnone
    · exact h.pending streamId' hpath

/-- The temporary file becomes that of the stream. -/
theorem MetadataFiles.Holds.rename (h : files.Holds dir md) (streamId : UInt64) (m : Metadata) :
    MetadataFiles.Holds dir ((files.erase (metadataFilePath dir streamId true)).insert
      (metadataFilePath dir streamId false) (metadataWrite m)) (md.insert streamId m) where
  final streamId' := by
    by_cases heq : streamId' = streamId
    · subst heq
      rw [AList.lookup_insert, AList.lookup_insert, Option.map_some]
    · have hne : metadataFilePath dir streamId' false ≠ metadataFilePath dir streamId false :=
        fun hpath => heq (metadataFilePath_injective hpath).1
      have hne' : metadataFilePath dir streamId' false ≠ metadataFilePath dir streamId true :=
        fun hpath => Bool.false_ne_true (metadataFilePath_injective hpath).2
      rw [AList.lookup_insert_ne hne, AList.lookup_erase_ne hne', AList.lookup_insert_ne heq]
      exact h.final streamId'
  named path hpath := by
    rcases (AList.mem_insert _).mp hpath with rfl | hpath
    · exact ⟨streamId, false, rfl⟩
    · exact h.named path (AList.mem_erase.mp hpath).2
  pending streamId' hpath := by
    rcases (AList.mem_insert _).mp hpath with heq | hpath
    · cases (metadataFilePath_injective heq).2
    · obtain ⟨hne, hpath⟩ := AList.mem_erase.mp hpath
      have hne' : streamId' ≠ streamId := fun heq => hne (by rw [heq])
      rw [AList.lookup_insert_ne hne']
      exact h.pending streamId' hpath

/-- An attempt makes all the calls, or not the last of them. -/
theorem Creation.flush_cases (c : Creation) (dir : List Char) (data : List UInt8)
    (streamId : UInt64) {tmpPath : List Char} (htmp : metadataFilePath dir streamId true = tmpPath)
    {calls made : List MetadataStep}
    (hcalls : [.openFile tmpPath, .writeFile tmpPath (written c.outcome.writeFile data)] = calls)
    (hmade : (metadataFileFlush dir c.outcome data streamId).take c.steps = made) :
    c.Completes ∧ made = calls ++ [.rename tmpPath (metadataFilePath dir streamId false)] ∨
      ¬ c.Completes ∧ ∃ n, made = calls.take n := by
  rw [← hmade, ← hcalls, metadataFileFlush, htmp, Creation.Completes]
  cases c.outcome.openFile with
  | false => exact .inr ⟨fun h => Bool.false_ne_true h.1, 0, List.take_nil⟩
  | true =>
    cases c.outcome.flock with
    | false =>
      refine .inr ⟨fun h => Bool.false_ne_true h.2.1, min c.steps 1, ?_⟩
      rw [← List.take_take]
      rfl
    | true =>
      cases c.outcome.rename with
      | false => exact .inr ⟨fun h => Bool.false_ne_true h.2.2.1, c.steps, rfl⟩
      | true =>
        by_cases hsteps : 3 ≤ c.steps
        · exact .inl ⟨⟨rfl, rfl, rfl, hsteps⟩, List.take_of_length_le hsteps⟩
        · exact .inr ⟨fun h => hsteps h.2.2.2, c.steps,
            List.take_append_of_le_length (Nat.le_of_lt_succ (not_le.mp hsteps))⟩

/-- The calls in front of the renaming write a temporary file of a stream that is not there. -/
theorem MetadataFiles.Holds.calls (h : files.Holds dir md) (hnone : md.lookup streamId = none)
    (buf : List UInt8) (n : ℕ) :
    MetadataFiles.Holds dir ((List.take n [.openFile (metadataFilePath dir streamId true),
      .writeFile (metadataFilePath dir streamId true) buf]).foldl MetadataStep.apply files) md := by
  match n with
  | 0 => exact h
  | 1 => exact h.insert_tmp hnone []
  | n + 2 =>
    rw [List.take_of_length_le (Nat.le_add_left 2 n)]
    exact (h.insert_tmp hnone []).insert_tmp hnone buf

/-- **What an attempt leaves behind**: the files of the metadata with the new stream, or of the same
metadata as before. -/
theorem MetadataFiles.Holds.create (h : files.Holds dir md) {c : Creation} (hsound : c.Sound) :
    ∃ files', streamCreateFile dir files c = some files' ∧ files'.Holds dir (c.create md) := by
  refine ⟨_, by rw [streamCreateFile, h.get]; rfl, ?_⟩
  rcases hget : metadataGet md (racsHash c.streamId) with - | m
  · dsimp only
    rcases c.flush_cases dir (metadataWrite c.metadata) (racsHash c.streamId) rfl rfl rfl with
      ⟨hcompletes, hmade⟩ | ⟨hno, n, hmade⟩
    · have hwrite : c.outcome.writeFile = none :=
        hsound.resolve_right (not_le.mpr hcompletes.2.2.2)
      have hcreate : c.create md = md.insert (racsHash c.streamId) c.metadata := by
        rw [Creation.create, if_pos hcompletes, streamCreate, hget]
        dsimp only
        rw [metadataPut, hget]
        rfl
      rw [hmade, hwrite, hcreate, List.foldl_append]
      have hwritten := (h.insert_tmp hget []).insert_tmp hget (metadataWrite c.metadata)
      have hrenamed := hwritten.rename (racsHash c.streamId) c.metadata
      simpa only [List.foldl_cons, List.foldl_nil, MetadataStep.apply, AList.lookup_insert, written]
        using hrenamed
    · rw [hmade, Creation.create, if_neg hno]
      exact h.calls hget _ n
  · have hsame : c.create md = md := by
      rw [Creation.create, streamCreate, hget]
      exact ite_self md
    rw [hsame]
    exact h

/-! ### What is listed -/

/-- A stream with its metadata. -/
abbrev StreamEntry := Sigma fun _ : UInt64 => Metadata

/-- The stream of a path that is found. -/
def foundEntry (md : MetadataDir) (path : List Char) : Option StreamEntry :=
  (metadataGet md (pathToStreamId path)).map fun m => ⟨pathToStreamId path, m⟩

/-- A stream is found at the path of its finished file only. -/
theorem MetadataFiles.Holds.path_of_found (h : files.Holds dir md) {path : List Char}
    (hpath : path ∈ files) {e : StreamEntry} (he : foundEntry md path = some e) :
    path = metadataPath dir e.1 := by
  obtain ⟨streamId, tmp, rfl⟩ := h.named path hpath
  obtain ⟨m, hm, rfl⟩ := Option.map_eq_some_iff.mp he
  rw [pathToStreamId_metadataFilePath] at hm ⊢
  cases tmp with
  | false => exact List.append_nil _
  | true => cases (h.pending streamId hpath).symm.trans hm

/-- Every stream is found. -/
theorem MetadataFiles.Holds.mem_found (h : files.Holds dir md) {paths : List (List Char)}
    (hpaths : paths.Perm files.keys) (e : StreamEntry) :
    e ∈ paths.filterMap (foundEntry md) ↔ e ∈ md.entries := by
  rw [List.mem_filterMap]
  constructor
  · rintro ⟨path, -, he⟩
    obtain ⟨m, hm, rfl⟩ := Option.map_eq_some_iff.mp he
    exact AList.mem_lookup_iff.mp hm
  · intro he
    have hm : metadataGet md e.1 = some e.2 := AList.mem_lookup_iff.mpr he
    have hfile : metadataFilePath dir e.1 false ∈ files := by
      rw [← AList.lookup_isSome, h.final, Option.isSome_map, Option.isSome_iff_exists]
      exact ⟨e.2, hm⟩
    refine ⟨metadataFilePath dir e.1 false, hpaths.mem_iff.mpr hfile, ?_⟩
    rw [foundEntry, pathToStreamId_metadataFilePath, hm]
    rfl

/-- **What is listed**: the streams whose names match, each once, in the order of the texts of their
numbers. -/
theorem MetadataFiles.Holds.streamsList_eq (h : files.Holds dir md) {paths : List (List Char)}
    (hpaths : paths.Perm files.keys) (fnmatch : List UInt8 → List UInt8 → Bool)
    (pattern : List UInt8) :
    ∃ entries : List StreamEntry, entries.Perm md.entries ∧
      entries.Pairwise (fun a b => metadataPath dir a.1 < metadataPath dir b.1) ∧
      streamsList dir fnmatch files paths pattern =
        some ((entries.map fun e => e.2.id).filter (fnmatch pattern)) := by
  have hsorted : (getSortedFilelist paths).Perm files.keys :=
    (perm_getSortedFilelist paths).trans hpaths
  have hlt : (getSortedFilelist paths).Pairwise (· < ·) :=
    ((pairwise_getSortedFilelist paths).and (hsorted.nodup_iff.mpr files.keys_nodup)).imp
      fun hpair => lt_of_le_of_ne hpair.1 hpair.2
  have hpairwise : ((getSortedFilelist paths).filterMap (foundEntry md)).Pairwise
      fun a b => metadataPath dir a.1 < metadataPath dir b.1 := by
    refine List.pairwise_filterMap.mpr (hlt.imp_of_mem fun hmem hmem' hpair e he e' he' => ?_)
    rw [← h.path_of_found (hsorted.mem_iff.mp hmem) he,
      ← h.path_of_found (hsorted.mem_iff.mp hmem') he']
    exact hpair
  refine ⟨_, ?_, hpairwise, ?_⟩
  · have hnodup := hpairwise.imp (S := (· ≠ ·)) fun hpair heq => by
      rw [heq] at hpair
      exact lt_irrefl _ hpair
    exact (List.perm_ext_iff_of_nodup hnodup md.nodupKeys.nodup).mpr (h.mem_found hsorted)
  · have hget : (getSortedFilelist paths).mapM (fun path =>
        metadataFileGet dir files (pathToStreamId path)) =
        some ((getSortedFilelist paths).map fun path => metadataGet md (pathToStreamId path)) := by
      simp only [h.get]
      exact List.mapM_pure
    rw [streamsList, hget, Option.map_some, List.reduceOption, List.filterMap_map,
      List.map_filterMap, List.map_filterMap]
    simp only [foundEntry, Option.map_map]
    rfl

/-- **The list that LIST replies with** is that of the files. -/
theorem MetadataFiles.Holds.streamsList_backend {P : Platform} (b : Backend P) {s : Store}
    (h : files.Holds P.dataDir s.disk.metadata) {paths : List (List Char)}
    (hpaths : paths.Perm files.keys) (pattern : List UInt8) :
    streamsList P.dataDir b.fnmatch files paths pattern = some (b.streamsList s pattern) := by
  obtain ⟨entries, hperm, hlt, heq⟩ := h.streamsList_eq hpaths b.fnmatch pattern
  have hsorted : getSortedFilelist (s.disk.metadata.keys.map (metadataPath P.dataDir)) =
      entries.map fun e => metadataPath P.dataDir e.1 := by
    refine getSortedFilelist_eq ?_ (List.pairwise_map.mpr (hlt.imp le_of_lt))
    have hmap := (hperm.map fun e => metadataPath P.dataDir e.1).symm
    rwa [AList.keys, List.keys, List.map_map]
  have hfound : (entries.map fun e => metadataPath P.dataDir e.1).filterMap
      (fun path => metadataGet s.disk.metadata (pathToStreamId path)) = entries.map Sigma.snd := by
    rw [List.filterMap_map, ← List.filterMap_eq_map]
    refine List.filterMap_congr fun e he => ?_
    rw [Function.comp_apply, pathToStreamId_metadataPath]
    exact AList.mem_lookup_iff.mpr (hperm.mem_iff.mp he)
  rw [heq, Backend.streamsList, metadataStreams, hsorted, hfound, List.map_map]
  rfl

/-! ### Any attempts -/

/-- The files after several attempts. -/
def createStreams (dir : List Char) (files : MetadataFiles) (cs : List Creation) :
    Option MetadataFiles := cs.foldlM (streamCreateFile dir) files

/-- Attempts to create streams, of which the server may stop in the middle of each. -/
theorem MetadataFiles.Holds.createStreams (h : files.Holds dir md) {cs : List Creation}
    (hsound : ∀ c ∈ cs, c.Sound) :
    ∃ files', Racs.createStreams dir files cs = some files' ∧
      files'.Holds dir (cs.foldl (fun md c => c.create md) md) := by
  induction cs generalizing files md with
  | nil => exact ⟨files, rfl, h⟩
  | cons c cs ih =>
    obtain ⟨hc, hcs⟩ := List.forall_mem_cons.mp hsound
    obtain ⟨files', hfiles', h'⟩ := h.create hc
    obtain ⟨files'', hfiles'', h''⟩ := ih h' hcs
    exact ⟨files'', by rw [Racs.createStreams, List.foldlM_cons, hfiles']; exact hfiles'', h''⟩

/-- **What is listed after any attempts to create streams**, wherever in them the server stopped:
the streams of the attempts that got to rename the file and did not find the stream there, each
once, if their names match; and each of them has the metadata that it was created with. -/
theorem streamsList_creations (dir : List Char) {cs : List Creation}
    (hsound : ∀ c ∈ cs, c.Sound) {md : MetadataDir}
    (hmd : cs.foldl (fun md c => c.create md) ∅ = md) :
    ∃ files, createStreams dir ∅ cs = some files ∧
      (∀ streamId, metadataFileGet dir files streamId = some (metadataGet md streamId)) ∧
      ∀ paths : List (List Char), paths.Perm files.keys → ∀ fnmatch pattern,
        ∃ entries : List StreamEntry, entries.Perm md.entries ∧
          entries.Pairwise (fun a b => metadataPath dir a.1 < metadataPath dir b.1) ∧
          streamsList dir fnmatch files paths pattern =
            some ((entries.map fun e => e.2.id).filter (fnmatch pattern)) := by
  obtain ⟨files, hfiles, h⟩ := (MetadataFiles.Holds.empty dir).createStreams hsound
  rw [hmd] at h
  exact ⟨files, hfiles, h.get, fun paths hpaths fnmatch pattern =>
    h.streamsList_eq hpaths fnmatch pattern⟩

/-- A stream is created, and the server stops before it renames the file of a second one. -/
def cutOffCreations : List Creation :=
  [⟨⟨ascii "a", by decide⟩, 48000, 2, 16, 0, ⟨true, true, none, true⟩, 3⟩,
    ⟨⟨ascii "b", by decide⟩, 44100, 1, 24, 7, ⟨true, true, some 5, true⟩, 2⟩]

theorem streamsList_creations_cutOff :
    ∃ files, createStreams [] ∅ cutOffCreations = some files ∧
      streamsList [] (fun _ _ => true) files files.keys [] = some [ascii "a"] := by
  have hsound : ∀ c ∈ cutOffCreations, c.Sound := by
    simp only [cutOffCreations, List.forall_mem_cons]
    exact ⟨.inl rfl, .inr le_rfl, fun c hc => by cases hc⟩
  have hnames : (cutOffCreations.foldl (fun md (c : Creation) => c.create md) ∅).entries.map
      (fun e => e.2.id) = [ascii "a"] := by decide +kernel
  obtain ⟨files, hfiles, -, hlist⟩ := streamsList_creations [] hsound rfl
  obtain ⟨entries, hperm, -, heq⟩ := hlist files.keys (.refl _) (fun _ _ => true) []
  refine ⟨files, hfiles, heq.trans ?_⟩
  have hentries : entries.map (fun e => e.2.id) = [ascii "a"] :=
    List.perm_singleton.mp (hnames ▸ hperm.map _)
  rw [hentries]
  rfl

end Racs
