import Racs.FileList
import Racs.Foundation.Decimal
import Racs.Platform
import Racs.Wal.TornWrite
import Mathlib.Data.List.AList
import Mathlib.Data.List.Induction
import Mathlib.Data.List.MinMax

/-!
# The files of the write-ahead log

The functions of `wal.c` on the directory itself: a set of files with names. The number of a
segment is read off the name of its file, and the order of the segments is that of the names. As
long as the numbers stay below `2 ^ 64`, this is the log of `Racs.WalDir`.

## Main definitions

* `Racs.WalFiles`, `Racs.WalHandle` — the directory and what the process keeps.
* `Racs.walFilename`, `Racs.segnoOfName`, `Racs.walSegnoOfNames`.
* `Racs.WalFiles.walOpen`, `Racs.WalFiles.walCreate`, `Racs.WalFiles.walRotate`,
  `Racs.WalFiles.walAppend`.
* `Racs.WalFiles.reads` — the segments as the replay reads them.
* `Racs.WalFiles.Shows`, `Racs.WalFiles.Runs` — the directory holds the segments of a log, and the
  process works on it.

## Main results

* `Racs.walFilename_lt_walFilename` — names are ordered as the numbers.
* `Racs.WalFiles.Shows.getSortedFilelist_eq` — the sorted list of files.
* `Racs.WalFiles.Shows.walSegnoOfNames_eq` — the number that `racs_wal_segno` finds.
* `Racs.WalFiles.Shows.reads_eq` — what is read from the files is what the log holds.
* `Racs.WalFiles.Shows.walCreate`, `Racs.WalFiles.Runs.walRotate`, `Racs.WalFiles.Runs.walAppend` —
  starts, rotations and appends do to the files what they do to the log.
-/

namespace Racs

open Decimal

/-! ### Names -/

/-- `racs_wal_filename`. -/
def walFilename (segno : UInt64) : List Char := printNat 20 segno.toNat ++ ".log".toList

/-- The name of the file with the checkpoint. -/
def manifestName : List Char := "manifest".toList

/-- The number that `racs_wal_segno` reads off the name of a segment. -/
def segnoOfName (name : List Char) : Option UInt64 :=
  if name.length ≠ 24 then none
  else if name.drop 20 ≠ ".log".toList then none
  else strtoull (name.take 20)

/-- The loop of `racs_wal_segno` over the names that `readdir` returns; none stands for the flag
`found` at false. -/
def maxSegno (names : List (List Char)) : Option UInt64 :=
  names.foldl (fun maxSeg name =>
    match segnoOfName name with
    | none => maxSeg
    | some seg =>
      match maxSeg with
      | none => some seg
      | some m => some (if m < seg then seg else m)) none

/-- `racs_wal_segno`. -/
def walSegnoOfNames (names : List (List Char)) : UInt64 := (maxSegno names).getD 0

/-- One turn of the loop. -/
theorem maxSegno_concat (names : List (List Char)) (name : List Char) :
    maxSegno (names ++ [name]) =
      match segnoOfName name with
      | none => maxSegno names
      | some seg =>
        match maxSegno names with
        | none => some seg
        | some m => some (if m < seg then seg else m) := by
  rw [maxSegno, List.foldl_append]
  rfl

/-- The number that the loop finds is at least the number of every name. -/
theorem le_maxSegno {names : List (List Char)} {name : List Char} {seg : UInt64}
    (hname : name ∈ names) (hseg : segnoOfName name = some seg) :
    ∃ m, maxSegno names = some m ∧ seg ≤ m := by
  induction names using List.reverseRecOn with
  | nil => cases hname
  | append_singleton names last ih =>
    rw [maxSegno_concat]
    rcases List.mem_append.mp hname with hname | hname
    · obtain ⟨m, hm, hle⟩ := ih hname
      cases hlast : segnoOfName last with
      | none => exact ⟨m, hm, hle⟩
      | some seg' =>
        refine ⟨_, by rw [hm], ?_⟩
        split_ifs with hlt
        · exact UInt64.le_trans hle (UInt64.le_of_lt hlt)
        · exact hle
    · obtain rfl := List.mem_singleton.mp hname
      rw [hseg]
      cases maxSegno names with
      | none => exact ⟨seg, rfl, UInt64.le_refl _⟩
      | some m =>
        refine ⟨_, rfl, ?_⟩
        split_ifs with hlt
        · exact UInt64.le_refl _
        · exact UInt64.not_lt.mp hlt

/-- The number that the loop finds is the number of a name. -/
theorem mem_maxSegno {names : List (List Char)} {m : UInt64} (h : maxSegno names = some m) :
    ∃ name ∈ names, segnoOfName name = some m := by
  induction names using List.reverseRecOn generalizing m with
  | nil => cases h
  | append_singleton names last ih =>
    have hold : ∀ {m'}, maxSegno names = some m' →
        ∃ name ∈ names ++ [last], segnoOfName name = some m' := by
      intro m' hm'
      obtain ⟨name, hname, hseg⟩ := ih hm'
      exact ⟨name, List.mem_append_left _ hname, hseg⟩
    rw [maxSegno_concat] at h
    cases hlast : segnoOfName last with
    | none =>
      rw [hlast] at h
      exact hold h
    | some seg =>
      have hnew : ∃ name ∈ names ++ [last], segnoOfName name = some seg :=
        ⟨last, by simp, hlast⟩
      rw [hlast] at h
      cases hmax : maxSegno names with
      | none =>
        rw [hmax] at h
        obtain rfl := Option.some.inj h
        exact hnew
      | some m' =>
        rw [hmax] at h
        obtain rfl := Option.some.inj h
        split_ifs
        · exact hnew
        · exact hold hmax

theorem toNat_lt_ten_pow (segno : UInt64) : segno.toNat < 10 ^ 20 := by
  have h := segno.toNat_lt
  omega

theorem length_walFilename (segno : UInt64) : (walFilename segno).length = 24 := by
  rw [walFilename, List.length_append, length_printNat (by decide) (toNat_lt_ten_pow segno)]
  rfl

theorem walFilename_injective : Function.Injective walFilename := by
  intro m n h
  exact UInt64.toNat_inj.mp (printNat_injective 20 (List.append_cancel_right h))

/-- The first character of a name is a digit. -/
theorem walFilename_eq_cons (segno : UInt64) :
    ∃ c cs, walFilename segno = c :: cs ∧ c.isDigit = true := by
  have hlen := length_printNat (by decide) (toNat_lt_ten_pow segno)
  rcases hprint : printNat 20 segno.toNat with - | ⟨c, cs⟩
  · rw [hprint] at hlen
    cases hlen
  · exact ⟨c, cs ++ ".log".toList, by rw [walFilename, hprint, List.cons_append],
      isDigit_of_mem_printNat (hprint ▸ List.mem_cons_self : c ∈ printNat 20 segno.toNat)⟩

theorem walFilename_ne_manifestName (segno : UInt64) : walFilename segno ≠ manifestName := by
  intro h
  have := congrArg List.length h
  rw [length_walFilename] at this
  cases this

theorem slash_not_mem_walFilename (segno : UInt64) : '/' ∉ walFilename segno := by
  rw [walFilename, List.mem_append, not_or]
  refine ⟨fun h => ?_, by decide⟩
  cases isDigit_of_mem_printNat h

/-- **Names are ordered as the numbers**, for every number of 64 bits. -/
theorem walFilename_lt_walFilename {m n : UInt64} : walFilename m < walFilename n ↔ m < n := by
  have hlen : (printNat 20 m.toNat).length = (printNat 20 n.toNat).length := by
    rw [length_printNat (by decide) (toNat_lt_ten_pow m),
      length_printNat (by decide) (toNat_lt_ten_pow n)]
  rw [walFilename, walFilename, append_lt_append_iff_of_length_eq hlen,
    printNat_lt_printNat (by decide) (toNat_lt_ten_pow m) (toNat_lt_ten_pow n),
    UInt64.lt_iff_toNat_lt]

/-- The manifest comes behind all segments. -/
theorem walFilename_lt_manifestName (segno : UInt64) : walFilename segno < manifestName := by
  obtain ⟨c, cs, hcons, hdigit⟩ := walFilename_eq_cons segno
  have hc := (Char.isDigit_iff_toNat.mp hdigit).2
  have hlt : c < 'm' := lt_of_le_of_lt hc (by decide : '9'.toNat < 'm'.toNat)
  rw [hcons]
  exact List.cons_lt_cons_iff.mpr (.inl hlt)

/-- The number is read back off the name. -/
theorem segnoOfName_walFilename (segno : UInt64) :
    segnoOfName (walFilename segno) = some segno := by
  have hlen := length_printNat (by decide) (toNat_lt_ten_pow segno)
  have hscan := scanInt_printNat (by decide) (toNat_lt_ten_pow segno) []
  have hlt := segno.toNat_lt
  rw [List.append_nil] at hscan
  rw [segnoOfName, if_neg (by rw [length_walFilename]; decide),
    if_neg (by rw [walFilename, List.drop_left' hlen]; decide), walFilename,
    List.take_left' hlen, strtoull, hlen, hscan]
  have hofInt : UInt64.ofInt (segno.toNat : ℤ) = segno := by
    apply UInt64.toNat_inj.mp
    rw [UInt64.ofInt, UInt64.toNat_ofNat']
    omega
  simp only [Int.natAbs_natCast, not_le.mpr hlt, if_false, hofInt]

theorem segnoOfName_manifestName : segnoOfName manifestName = none := by decide

/-! ### The log on files -/

/-- The files of `.racs/wal` with their content, by name. The order of the entries is not that of
`readdir`, which is arbitrary. -/
abbrev WalFiles := AList fun _ : List Char => List UInt8

/-- `racs_wal`, with the name of the segment that `fd` is open on. -/
structure WalHandle where
  fd : List Char
  lsn : UInt64
  size : ℕ

namespace WalFiles

/-- `open(path, O_RDWR | O_CREAT | O_APPEND)`. -/
def openAppend (f : WalFiles) (name : List Char) : WalFiles :=
  if name ∈ f then f else f.insert name []

/-- The content of a file. -/
def read (f : WalFiles) (name : List Char) : List UInt8 := (f.lookup name).getD []

/-- `write(fd, buf, size)` on a file opened with `O_APPEND`. -/
def write (f : WalFiles) (fd : List Char) (buf : List UInt8) : WalFiles :=
  f.insert fd (f.read fd ++ buf)

/-- `racs_wal_open`. -/
def walOpen (f : WalFiles) : WalFiles × List Char :=
  let segno := walSegnoOfNames f.keys
  let filename := walFilename segno
  let filename := if walSize64MB ≤ (f.read filename).length then walFilename (segno + 1)
    else filename
  (f.openAppend filename, filename)

/-- `racs_wal_create`, with `racs_wal_init_lsn`. -/
def walCreate (f : WalFiles) : WalFiles × WalHandle :=
  let (f, fd) := walOpen f
  (f, { fd := fd, lsn := walSegmentMaxLsn (f.read fd), size := 0 })

/-- `racs_wal_rotate`. -/
def walRotate (f : WalFiles) (w : WalHandle) : WalFiles × WalHandle :=
  let filename := walFilename (walSegnoOfNames f.keys + 1)
  (f.openAppend filename, { w with fd := filename, size := 0 })

/-- `racs_wal_append_`. -/
def walAppend (f : WalFiles) (w : WalHandle) (o : WalOp) : WalFiles × WalHandle :=
  let buf := (o.entry w.lsn).bytes
  let (f, w) := if walSize64MB ≤ w.size + buf.length then walRotate f w else (f, w)
  (f.write w.fd buf, { w with lsn := w.lsn + 1, size := w.size + buf.length })

/-- The loops of `racs_wal_replay` over the files of a sorted list and over the records of each, as
what the calls of `racs_wal_entry_read` return. -/
def reads (f : WalFiles) : List (List Char) → Option (List WalRead)
  | [] => some []
  | path :: paths =>
    if basename path = manifestName then reads f paths
    else (walScan (fun _ => true) (f.read (basename path)) 0).bind fun rs =>
      (reads f paths).map (rs ++ ·)

/-- The paths of the files with these names in the directory `dir`. -/
def paths (dir : List Char) (names : List (List Char)) : List (List Char) :=
  names.map fun name => dir ++ '/' :: name

/-! ### The directory as a log -/

/-- The files are the segments of a log, with the names of their numbers, and its manifest. -/
structure Shows (f : WalFiles) (d : WalDir) : Prop where
  ascending : d.segments.Pairwise (·.segno < ·.segno)
  bounded : ∀ s ∈ d.segments, s.segno < 2 ^ 64
  lookup_segment : ∀ segno : UInt64, f.lookup (walFilename segno) = d.lookup segno.toNat
  lookup_manifest : f.lookup manifestName = d.manifest
  names : ∀ name ∈ f, name = manifestName ∨ ∃ segno, name = walFilename segno

theorem shows_empty : Shows ∅ WalDir.empty :=
  ⟨List.Pairwise.nil, fun _ h => absurd h List.not_mem_nil, fun _ => AList.lookup_empty _,
    AList.lookup_empty _, fun _ h => absurd h (AList.notMem_empty _)⟩

namespace Shows

variable {f : WalFiles} {d : WalDir}

/-- The names of the segments in ascending order, then the manifest. -/
def sortedNames (d : WalDir) : List (List Char) :=
  d.segments.map (fun s => walFilename (UInt64.ofNat s.segno)) ++
    if d.manifest.isSome then [manifestName] else []

theorem toNat_ofNat_segno (h : Shows f d) {s : Segment} (hs : s ∈ d.segments) :
    (UInt64.ofNat s.segno).toNat = s.segno :=
  UInt64.toNat_ofNat_of_lt' (h.bounded s hs)

theorem read_segment (h : Shows f d) (segno : UInt64) :
    f.read (walFilename segno) = d.read segno.toNat := by
  rw [read, h.lookup_segment, WalDir.read, WalDir.lookup]

theorem mem_walFilename_iff (h : Shows f d) (segno : UInt64) :
    walFilename segno ∈ f ↔ ∃ s ∈ d.segments, s.segno = segno.toNat := by
  rw [← AList.lookup_isSome, h.lookup_segment, WalDir.lookup, Option.isSome_map,
    List.find?_isSome]
  simp only [decide_eq_true_eq]

theorem mem_manifestName_iff (h : Shows f d) : manifestName ∈ f ↔ d.manifest.isSome := by
  rw [← AList.lookup_isSome, h.lookup_manifest]

theorem pairwise_sortedNames (h : Shows f d) : (sortedNames d).Pairwise (· < ·) := by
  rw [sortedNames, List.pairwise_append, List.pairwise_map]
  refine ⟨h.ascending.imp_of_mem fun {s t} hs ht hlt => ?_, ?_, ?_⟩
  · rw [walFilename_lt_walFilename, UInt64.lt_iff_toNat_lt, h.toNat_ofNat_segno hs,
      h.toNat_ofNat_segno ht]
    exact hlt
  · split_ifs
    · exact List.pairwise_singleton ..
    · exact List.Pairwise.nil
  · intro name hname name' hname'
    obtain ⟨s, -, rfl⟩ := List.mem_map.mp hname
    split_ifs at hname'
    · rw [List.mem_singleton.mp hname']
      exact walFilename_lt_manifestName _
    · cases hname'

/-- The files of the directory are those of the sorted list. -/
theorem perm_sortedNames (h : Shows f d) : f.keys.Perm (sortedNames d) := by
  refine (List.perm_ext_iff_of_nodup f.nodupKeys (h.pairwise_sortedNames.imp ne_of_lt)).mpr ?_
  intro name
  show name ∈ f.keys ↔ name ∈ sortedNames d
  rw [← AList.mem_keys, sortedNames, List.mem_append, List.mem_map]
  constructor
  · intro hmem
    rcases h.names name hmem with rfl | ⟨segno, rfl⟩
    · exact .inr (by rw [if_pos (h.mem_manifestName_iff.mp hmem)]; exact List.mem_singleton_self _)
    · obtain ⟨s, hs, heq⟩ := (h.mem_walFilename_iff segno).mp hmem
      exact .inl ⟨s, hs, by rw [heq, UInt64.ofNat_toNat]⟩
  · rintro (⟨s, hs, rfl⟩ | hmanifest)
    · exact (h.mem_walFilename_iff _).mpr ⟨s, hs, (h.toNat_ofNat_segno hs).symm⟩
    · split_ifs at hmanifest with hsome
      · rw [List.mem_singleton.mp hmanifest]
        exact h.mem_manifestName_iff.mpr hsome
      · cases hmanifest

/-- **The sorted list of files** is the segments in the order of their numbers, then the manifest,
in whatever order `readdir` returns the names. -/
theorem getSortedFilelist_eq (h : Shows f d) (dir : List Char) {names : List (List Char)}
    (hnames : names.Perm f.keys) :
    getSortedFilelist (paths dir names) = paths dir (sortedNames d) := by
  refine Racs.getSortedFilelist_eq ((hnames.trans h.perm_sortedNames).map _) ?_
  rw [paths, List.pairwise_map]
  refine h.pairwise_sortedNames.imp fun {a b} hlt => ?_
  rw [List.append_cons, List.append_cons dir '/' b, append_le_append_iff]
  exact hlt.le

/-! ### The operations -/

/-- `racs_wal_segno` finds the number of the last segment. -/
theorem walSegnoOfNames_eq (h : Shows f d) {names : List (List Char)} (hnames : names.Perm f.keys) :
    (walSegnoOfNames names).toNat = walSegno d := by
  have hmem : ∀ segno, walFilename segno ∈ names ↔ ∃ s ∈ d.segments, s.segno = segno.toNat := by
    intro segno
    rw [hnames.mem_iff, ← AList.mem_keys, h.mem_walFilename_iff]
  have hnumber : ∀ name ∈ names, ∀ seg, segnoOfName name = some seg → name = walFilename seg := by
    intro name hname seg hseg
    rcases h.names name (AList.mem_keys.mpr (hnames.mem_iff.mp hname)) with rfl | ⟨segno, rfl⟩
    · rw [segnoOfName_manifestName] at hseg
      cases hseg
    · rw [segnoOfName_walFilename] at hseg
      rw [Option.some.inj hseg]
  rw [walSegnoOfNames]
  cases hmax : maxSegno names with
  | none =>
    have hnil : d.segments = [] := by
      by_contra hne
      obtain ⟨s, hs⟩ := List.exists_mem_of_ne_nil _ hne
      have hname := (hmem (UInt64.ofNat s.segno)).mpr ⟨s, hs, (h.toNat_ofNat_segno hs).symm⟩
      obtain ⟨m, hm, -⟩ := le_maxSegno hname (segnoOfName_walFilename _)
      rw [hmax] at hm
      cases hm
    rw [walSegno, hnil]
    rfl
  | some m =>
    obtain ⟨name, hname, hseg⟩ := mem_maxSegno hmax
    obtain ⟨s, hs, hsegno⟩ := (hmem m).mp (hnumber name hname m hseg ▸ hname)
    rw [Option.getD_some, walSegno]
    refine le_antisymm (List.le_max_of_le (List.mem_map.mpr ⟨s, hs, hsegno⟩) le_rfl)
      (List.max_le_of_forall_le _ _ fun n hn => ?_)
    obtain ⟨t, ht, rfl⟩ := List.mem_map.mp hn
    have hname := (hmem (UInt64.ofNat t.segno)).mpr ⟨t, ht, (h.toNat_ofNat_segno ht).symm⟩
    obtain ⟨m', hm', hle⟩ := le_maxSegno hname (segnoOfName_walFilename _)
    obtain rfl := Option.some.inj (hmax.symm.trans hm')
    rw [UInt64.le_iff_toNat_le, h.toNat_ofNat_segno ht] at hle
    exact hle

/-- Opening a segment that exists changes nothing. -/
theorem openAppend_of_mem (h : Shows f d) {segno : UInt64}
    (hmem : ∃ s ∈ d.segments, s.segno = segno.toNat) :
    Shows (f.openAppend (walFilename segno)) (d.openAppend segno.toNat) := by
  have hany : d.segments.any (·.segno = segno.toNat) = true := by
    obtain ⟨s, hs, heq⟩ := hmem
    exact List.any_eq_true.mpr ⟨s, hs, decide_eq_true heq⟩
  rw [WalFiles.openAppend, if_pos ((h.mem_walFilename_iff segno).mpr hmem), WalDir.openAppend,
    if_pos hany]
  exact h

/-- Opening a segment behind all others creates a file. -/
theorem openAppend_of_lt (h : Shows f d) {segno : UInt64}
    (hlt : ∀ s ∈ d.segments, s.segno < segno.toNat) :
    Shows (f.openAppend (walFilename segno)) (d.openAppend segno.toNat) := by
  have hnot : walFilename segno ∉ f := by
    rw [h.mem_walFilename_iff]
    rintro ⟨s, hs, heq⟩
    exact absurd heq (hlt s hs).ne
  have hread : d.read segno.toNat = [] := by
    rw [← h.read_segment, read, AList.lookup_eq_none.mpr hnot, Option.getD_none]
  have hlookup := fun segno' => d.lookup_openAppend segno.toNat segno'
  rw [WalFiles.openAppend, if_neg hnot]
  constructor
  · rw [WalDir.openAppend_of_lt hlt, List.pairwise_append]
    refine ⟨h.ascending, List.pairwise_singleton .., fun s hs t ht => ?_⟩
    rw [List.mem_singleton.mp ht]
    exact hlt s hs
  · rw [WalDir.openAppend_of_lt hlt]
    intro s hs
    rcases List.mem_append.mp hs with hs | hs
    · exact h.bounded s hs
    · rw [List.mem_singleton.mp hs]
      exact segno.toNat_lt
  · intro segno'
    rw [hlookup]
    split_ifs with heq
    · rw [UInt64.toNat_inj.mp heq, AList.lookup_insert, ← UInt64.toNat_inj.mp heq, hread]
    · rw [AList.lookup_insert_ne fun hname => heq (by rw [walFilename_injective hname]),
        h.lookup_segment]
  · rw [AList.lookup_insert_ne (walFilename_ne_manifestName segno).symm, h.lookup_manifest,
      WalDir.openAppend_manifest]
  · intro name hname
    rcases (AList.mem_insert _).mp hname with rfl | hname
    · exact .inr ⟨segno, rfl⟩
    · exact h.names name hname

/-- A write to an open segment. -/
theorem write (h : Shows f d) {fd : UInt64} (hfd : d.Has fd.toNat) (buf : List UInt8) :
    Shows (f.write (walFilename fd) buf) (d.write fd.toNat buf) := by
  have hsegno : (d.write fd.toNat buf).segments.map Segment.segno =
      d.segments.map Segment.segno := by
    rw [WalDir.write, List.map_map]
    refine List.map_congr_left fun s _ => ?_
    rw [Function.comp_apply]
    split_ifs <;> rfl
  constructor
  · have hascending := List.pairwise_map.mpr h.ascending
    rw [← hsegno] at hascending
    exact List.pairwise_map.mp hascending
  · have hbounded : ∀ n ∈ d.segments.map Segment.segno, n < 2 ^ 64 := by
      intro n hn
      obtain ⟨s, hs, rfl⟩ := List.mem_map.mp hn
      exact h.bounded s hs
    rw [← hsegno] at hbounded
    exact fun s hs => hbounded _ (List.mem_map_of_mem hs)
  · intro segno
    rw [WalFiles.write, WalDir.lookup_write]
    by_cases heq : fd = segno
    · obtain ⟨data, hdata⟩ := Option.isSome_iff_exists.mp hfd
      subst heq
      rw [AList.lookup_insert, h.read_segment, WalDir.read, ← WalDir.lookup, hdata, if_pos rfl]
      rfl
    · have hne : fd.toNat ≠ segno.toNat := fun hnat => heq (UInt64.toNat_inj.mp hnat)
      rw [AList.lookup_insert_ne fun hname => heq (walFilename_injective hname).symm,
        h.lookup_segment, if_neg hne]
      simp
  · rw [WalFiles.write, AList.lookup_insert_ne (walFilename_ne_manifestName fd).symm,
      h.lookup_manifest]
    rfl
  · intro name hname
    rcases (AList.mem_insert _).mp hname with rfl | hname
    · exact .inr ⟨fd, rfl⟩
    · exact h.names name hname

/-- The content of a segment, found by its number. -/
theorem read_ofNat_segno (h : Shows f d) {s : Segment} (hs : s ∈ d.segments) :
    f.read (walFilename (UInt64.ofNat s.segno)) = s.data := by
  rw [h.read_segment, h.toNat_ofNat_segno hs]
  exact WalDir.read_of_mem (List.pairwise_map.mpr (h.ascending.imp ne_of_lt)) hs

/-- **What is read from the files**, in the order of the sorted list, is what the log holds. -/
theorem reads_eq (h : Shows f d) (dir : List Char) {names : List (List Char)}
    (hnames : names.Perm f.keys) :
    f.reads (getSortedFilelist (paths dir names)) = walReads d.segments := by
  have hmanifest : f.reads (paths dir (if d.manifest.isSome then [manifestName] else [])) =
      some [] := by
    split_ifs
    · have hbase : basename (dir ++ '/' :: manifestName) = manifestName :=
        basename_append dir (by decide)
      rw [paths, List.map_singleton, reads, if_pos hbase, reads]
    · rfl
  have hsegments : ∀ ss, (∀ s ∈ ss, s ∈ d.segments) →
      f.reads (paths dir (ss.map (fun s => walFilename (UInt64.ofNat s.segno)) ++
        if d.manifest.isSome then [manifestName] else [])) = walReads ss := by
    intro ss hss
    induction ss with
    | nil => rw [List.map_nil, List.nil_append, hmanifest, walReads]
    | cons s ss ih =>
      have hbase := basename_append dir (slash_not_mem_walFilename (UInt64.ofNat s.segno))
      have hrest := ih fun t ht => hss t (List.mem_cons_of_mem _ ht)
      rw [paths] at hrest
      rw [paths, List.map_cons, List.cons_append, List.map_cons, reads, hbase,
        if_neg (walFilename_ne_manifestName _), h.read_ofNat_segno (hss s List.mem_cons_self),
        hrest, walReads]
  rw [h.getSortedFilelist_eq dir hnames, sortedNames]
  exact hsegments _ fun _ hs => hs

/-- The segment with the largest number is there, or there is no segment. -/
theorem openAppend_walSegno (h : Shows f d) {segno : UInt64} (hsegno : segno.toNat = walSegno d) :
    Shows (f.openAppend (walFilename segno)) (d.openAppend segno.toNat) := by
  by_cases hnil : d.segments.map Segment.segno = []
  · refine h.openAppend_of_lt fun s hs => ?_
    rw [List.map_eq_nil_iff.mp hnil] at hs
    cases hs
  · refine h.openAppend_of_mem (List.mem_map.mp ?_)
    rw [hsegno]
    exact List.maximum_mem (List.foldr_max_of_ne_nil hnil).symm

/-- Opening the segment behind the last one. -/
theorem openAppend_succ (h : Shows f d) (hlt : walSegno d + 1 < 2 ^ 64) :
    (walSegnoOfNames f.keys + 1).toNat = walSegno d + 1 ∧
      Shows (f.openAppend (walFilename (walSegnoOfNames f.keys + 1)))
        (d.openAppend (walSegno d + 1)) := by
  have hsegno := h.walSegnoOfNames_eq (List.Perm.refl f.keys)
  have hsucc : (walSegnoOfNames f.keys + 1).toNat = walSegno d + 1 := by
    rw [UInt64.toNat_add, hsegno]
    exact Nat.mod_eq_of_lt hlt
  refine ⟨hsucc, hsucc ▸ h.openAppend_of_lt fun s hs => ?_⟩
  rw [hsucc]
  exact Nat.lt_succ_of_le (List.le_max_of_le (List.mem_map_of_mem hs) le_rfl)

end Shows

/-! ### The process -/

/-- The process works on the segment of a log that its file is. -/
structure Runs (s : WalFiles × WalHandle) (t : WalDir × Wal) : Prop where
  shows : Shows s.1 t.1
  fd : ∃ fd, s.2.fd = walFilename fd ∧ t.2.fd = fd.toNat
  has_fd : t.1.Has t.2.fd
  lsn : s.2.lsn = t.2.lsn
  size : s.2.size = t.2.size

/-- **A start of the server** does to the files what it does to the log. -/
theorem Shows.walCreate {f : WalFiles} {d : WalDir} (h : Shows f d)
    (hlt : walSegno d + 1 < 2 ^ 64) : Runs f.walCreate (Racs.walCreate d) := by
  have hsegno := h.walSegnoOfNames_eq (List.Perm.refl f.keys)
  have hread : f.read (walFilename (walSegnoOfNames f.keys)) = d.read (walSegno d) := by
    rw [h.read_segment, hsegno]
  obtain ⟨hsucc, hnext⟩ := h.openAppend_succ hlt
  by_cases hfull : walSize64MB ≤ (d.read (walSegno d)).length
  · have hlsn := hsucc ▸ hnext.read_segment (walSegnoOfNames f.keys + 1)
    simp only [WalFiles.walCreate, WalFiles.walOpen, Racs.walCreate, Racs.walOpen, hread, hfull,
      if_true]
    exact ⟨hnext, ⟨_, rfl, hsucc.symm⟩, d.has_openAppend _, congrArg walSegmentMaxLsn hlsn, rfl⟩
  · have hopen := hsegno ▸ h.openAppend_walSegno hsegno
    have hlsn := hsegno ▸ hopen.read_segment (walSegnoOfNames f.keys)
    simp only [WalFiles.walCreate, WalFiles.walOpen, Racs.walCreate, Racs.walOpen, hread, hfull,
      if_false]
    exact ⟨hopen, ⟨_, rfl, hsegno.symm⟩, d.has_openAppend _, congrArg walSegmentMaxLsn hlsn, rfl⟩

/-- **A rotation** does to the files what it does to the log. -/
theorem Runs.walRotate {s : WalFiles × WalHandle} {t : WalDir × Wal} (h : Runs s t)
    (hlt : walSegno t.1 + 1 < 2 ^ 64) :
    Runs (WalFiles.walRotate s.1 s.2) (Racs.walRotate t.1 t.2) := by
  obtain ⟨hsucc, hnext⟩ := h.shows.openAppend_succ hlt
  exact ⟨hnext, ⟨_, rfl, hsucc.symm⟩, t.1.has_openAppend _, h.lsn, rfl⟩

/-- **An append** does to the files what it does to the log, also where it rotates. -/
theorem Runs.walAppend {s : WalFiles × WalHandle} {t : WalDir × Wal} (h : Runs s t)
    (hlt : walSegno t.1 + 1 < 2 ^ 64) (o : WalOp) :
    Runs (WalFiles.walAppend s.1 s.2 o) (Racs.walAppend t.1 t.2 o) := by
  obtain ⟨f, w⟩ := s
  obtain ⟨d, w'⟩ := t
  obtain ⟨hshows, ⟨fd, hfd, hfd'⟩, hhas, hlsn, hsize⟩ := h
  dsimp only at hshows hfd hfd' hhas hlsn hsize hlt
  by_cases hfull : walSize64MB ≤ w'.size + (o.entry w'.lsn).bytes.length
  · obtain ⟨hsucc, hnext⟩ := hshows.openAppend_succ hlt
    have hopen : (d.openAppend (walSegno d + 1)).Has (walSegnoOfNames f.keys + 1).toNat :=
      hsucc ▸ d.has_openAppend _
    have hwrite := hnext.write hopen (o.entry w'.lsn).bytes
    simp only [WalFiles.walAppend, Racs.walAppend, WalFiles.walRotate, Racs.walRotate, hlsn, hsize,
      hfull, if_true]
    exact ⟨hsucc ▸ hwrite, ⟨_, rfl, hsucc.symm⟩, WalDir.has_write (d.has_openAppend _) _, rfl, rfl⟩
  · rw [hfd'] at hhas
    have hwrite := hshows.write hhas (o.entry w'.lsn).bytes
    simp only [WalFiles.walAppend, Racs.walAppend, hlsn, hsize, hfull, if_false]
    exact ⟨by rw [hfd, hfd']; exact hwrite, ⟨fd, hfd, hfd'⟩, hfd' ▸ WalDir.has_write hhas _,
      rfl, rfl⟩

end WalFiles

end Racs
