import Racs.Pack

/-!
# Results of Scheme expressions

`racs_scm_pack` (`scm.c`) packs the value of an expression. The interpreter raises an exception when
a value is not of the type that is asked of it, for instance an integer of more than 64 bits, or
when a string has a null character, and nothing catches this exception: packing does not return. An
expression may not allocate as much as a list of 2^32 elements needs.

## Main definitions

* `Racs.Scm`, `Racs.scmPack`.
* `Racs.unescapeSingleQuotes` — what is done to an expression before it is read.
* `Racs.Scm.Packable` — the values whose reply is one object.

## Main results

* `Racs.scmPack_spec` — the reply to a value.
-/

namespace Racs

open MessagePack

/-- A value of the interpreter. -/
inductive Scm (δ : Type)
  /-- An exact integer. -/
  | int (z : ℤ)
  /-- A real number that is no exact integer; `integral` when `scm_is_integer` holds of it. -/
  | real (x : δ) (integral : Bool)
  /-- A number that is not real. -/
  | complex
  | bool (b : Bool)
  | nil
  | pair (car cdr : Scm δ)
  | string (s : List UInt8)
  /-- A uniform vector other than of 32-bit integers, with its bytes. -/
  | vector (type : RacsType) (type_ne : type ≠ .error) (data : List UInt8)
  | s32vector (data : List Int32)
  /-- A typed array that is no vector. -/
  | array
  | other

variable {δ : Type}

/-- The text in front of the first null byte. -/
def cString (s : List UInt8) : List UInt8 := s.takeWhile (· ≠ 0)

/-- `scm_to_locale_string`, or the exception that it raises. -/
def scmToLocaleString : Scm δ → Except String (List UInt8)
  | .string s => if 0 ∈ s then .error "String contains #\\nul character" else .ok s
  | _ => .error "Wrong type argument"

/-- `scm_to_int64`. -/
def scmToInt64 (z : ℤ) : Option Int64 :=
  if -2 ^ 63 ≤ z ∧ z < 2 ^ 63 then some (Int64.ofInt z) else none

/-- `racs_scm_pack_element`: whether the element was packed. -/
def scmPackElement (pk : Buffer δ) : Scm δ → Option (Bool × Buffer δ)
  | .string s => (scmToLocaleString (.string s : Scm δ)).toOption.map fun str =>
    (true, pk ++ [.str str])
  | .int z => (scmToInt64 z).map fun d => (true, pk ++ [.int d])
  | .real x integral => if integral then none else some (true, pk ++ [.float x])
  | .complex => none
  | .bool b => some (true, pk ++ [.bool b])
  | _ => some (false, (packError [] (ascii "EVAL") (ascii "Unsupported SCM type")).2)

/-- The loop of `racs_scm_pack_list`. -/
def scmPackElements (pk : Buffer δ) : List (Scm δ) → Option (Reply δ)
  | [] => some (.ok, pk)
  | v :: vs => (scmPackElement pk v).bind fun (packed, pk) =>
    if packed then scmPackElements pk vs else some (.error, pk)

/-- The elements of a list; none when the value is no proper list. -/
def Scm.elements : Scm δ → Option (List (Scm δ))
  | .nil => some []
  | .pair car cdr => cdr.elements.map (car :: ·)
  | _ => none

/-- `racs_scm_pack_list`. -/
def scmPackList (pk : Buffer δ) (x : Scm δ) : Option (Reply δ) :=
  x.elements.bind fun elements =>
    scmPackElements (pk ++ [.array (elements.length + 1), packType .list]) elements

/-- `racs_scm_pack_s32vector`. The elements of an empty vector may be the null pointer, depending on
`nullElements`. -/
def scmPackS32Vector (nullElements : Bool) (pk : Buffer δ) (data : List Int32) (isFinal : Bool) :
    Option (Reply δ) :=
  if data = [] ∧ nullElements then some (packS32v pk [])
  else if isFinal then if data.length < 2 then none else some (packS32v pk (data.drop 2))
  else some (packS32v pk data)

/-- `racs_scm_pack`. -/
def scmPack (nullElements : Bool) (pk : Buffer δ) (x : Scm δ) (isFinal : Bool) :
    Option (Reply δ) :=
  match x with
  | .int z => (scmToInt64 z).map (packInt64 pk)
  | .real x integral => if integral then none else some (packFloat64 pk x)
  | .complex => none
  | .bool b => some (packBool pk b)
  | .nil => some (packNullWithStatusOk pk)
  | .pair car cdr => scmPackList pk (.pair car cdr)
  | .string s => (scmToLocaleString (.string s : Scm δ)).toOption.map (packStr pk)
  | .vector type _ data => some (packVec pk type data)
  | .s32vector data => scmPackS32Vector nullElements pk data isFinal
  | .array => none
  | .other => some (packError [] (ascii "EVAL") (ascii "Unsupported SCM type"))

/-- A backslash in front of a quote becomes a space. -/
def unescapeQuotes : List UInt8 → List UInt8
  | [] => []
  | c :: s => (if c = 0x5c ∧ s.head? = some 0x27 then 0x20 else c) :: unescapeQuotes s

/-- `racs_unescape_single_quotes`. For an empty string the bound `n - 1` of the loop wraps around,
and the loop leaves the string. -/
def unescapeSingleQuotes (s : List UInt8) : Option (List UInt8) :=
  if s = [] then none else some (unescapeQuotes s)

/-! ### The values that are packed -/

/-- The interpreter converts the value without an exception, if it has to. -/
def Scm.Converts : Scm δ → Prop
  | .int z => -2 ^ 63 ≤ z ∧ z < 2 ^ 63
  | .real _ integral => integral = false
  | .complex => False
  | .string s => 0 ∉ s
  | _ => True

/-- The value can be an element of a list in a reply. -/
def Scm.Supported : Scm δ → Prop
  | .int _ | .real _ _ | .complex | .bool _ | .string _ => True
  | _ => False

/-- The elements up to the first that is not supported are converted without an exception. -/
def ElementsConvert : List (Scm δ) → Prop
  | [] => True
  | v :: vs => v.Converts ∧ (v.Supported → ElementsConvert vs)

/-- Packing the value raises no exception and stays inside its elements, and the data of the last
reply of a pipeline are shorter than 2^32 bytes. -/
def Scm.Packable (nullElements isFinal : Bool) : Scm δ → Prop
  | .pair car cdr => ∃ vs, cdr.elements = some vs ∧ ElementsConvert (car :: vs)
  | .vector _ _ data => isFinal = true → data.length < 2 ^ 32
  | .s32vector data => isFinal = true → data = [] ∧ nullElements = true ∨
      2 ≤ data.length ∧ 4 * (data.length - 2) < 2 ^ 32
  | .array => False
  | v => v.Converts

theorem scmToLocaleString_cases (s : List UInt8) :
    0 ∉ s ∧ (scmToLocaleString (.string s : Scm δ)).toOption = some s ∨
      0 ∈ s ∧ (scmToLocaleString (.string s : Scm δ)).toOption = none := by
  by_cases h : 0 ∈ s
  · exact .inr ⟨h, by rw [scmToLocaleString, if_pos h]; rfl⟩
  · exact .inl ⟨h, by rw [scmToLocaleString, if_neg h]; rfl⟩

theorem scmToInt64_cases (z : ℤ) :
    (-2 ^ 63 ≤ z ∧ z < 2 ^ 63) ∧ scmToInt64 z = some (Int64.ofInt z) ∨
      ¬ (-2 ^ 63 ≤ z ∧ z < 2 ^ 63) ∧ scmToInt64 z = none := by
  by_cases h : -2 ^ 63 ≤ z ∧ z < 2 ^ 63
  · exact .inl ⟨h, if_pos h⟩
  · exact .inr ⟨h, if_neg h⟩

/-- All that packing an element can do: raise an exception, append a scalar, or replace everything
by an error. -/
theorem scmPackElement_cases (pk : Buffer δ) (v : Scm δ) :
    ¬ v.Converts ∧ scmPackElement pk v = none ∨
      v.Converts ∧ v.Supported ∧
        (∃ i, scmPackElement pk v = some (true, pk ++ [i]) ∧ i.isScalar = true) ∨
      v.Converts ∧ ¬ v.Supported ∧ scmPackElement pk v =
        some (false, (packError [] (ascii "EVAL") (ascii "Unsupported SCM type")).2) := by
  cases v
  case int z =>
    rcases scmToInt64_cases z with ⟨hz, heq⟩ | ⟨hz, heq⟩
    · exact .inr (.inl ⟨hz, trivial, _, by rw [scmPackElement, heq]; rfl, rfl⟩)
    · exact .inl ⟨hz, by rw [scmPackElement, heq]; rfl⟩
  case real x integral =>
    cases integral
    · exact .inr (.inl ⟨rfl, trivial, _, rfl, rfl⟩)
    · exact .inl ⟨Bool.noConfusion, rfl⟩
  case complex => exact .inl ⟨id, rfl⟩
  case bool b => exact .inr (.inl ⟨trivial, trivial, _, rfl, rfl⟩)
  case string s =>
    rcases @scmToLocaleString_cases δ s with ⟨hs, heq⟩ | ⟨hs, heq⟩
    · exact .inr (.inl ⟨hs, trivial, _, by rw [scmPackElement, heq]; rfl, rfl⟩)
    · exact .inl ⟨not_not.mpr hs, by rw [scmPackElement, heq]; rfl⟩
  all_goals exact .inr (.inr ⟨trivial, id, rfl⟩)

theorem scmPackElements_spec {items : List (Item δ)} (hitems : ∀ i ∈ items, i.isScalar = true)
    (vs : List (Scm δ)) (isFinal : Bool) :
    Specified isFinal (scmPackElements
      (.array (items.length + vs.length + 1) :: packType .list :: items) vs)
      (ElementsConvert vs) := by
  induction vs generalizing items with
  | nil => exact .value .list (by decide) (by decide) items hitems trivial
  | cons v vs ih =>
    rw [scmPackElements]
    rcases scmPackElement_cases _ v with ⟨hv, heq⟩ | ⟨hv, hsup, i, heq, hi⟩ | ⟨hv, hsup, heq⟩
    · rw [heq]
      exact .undefined fun h => hv h.1
    · have hitems' : ∀ j ∈ items ++ [i], j.isScalar = true := by
        intro j hj
        rcases List.mem_append.mp hj with hj | hj
        · exact hitems j hj
        · rwa [List.mem_singleton.mp hj]
      have hlen : (items ++ [i]).length + vs.length + 1 = items.length + (v :: vs).length + 1 := by
        simp only [List.length_append, List.length_cons, List.length_nil]
        omega
      have h := ih hitems'
      rw [hlen] at h
      rw [heq]
      exact h.congr ⟨fun h => ⟨hv, fun _ => h⟩, fun h => h.2 hsup⟩
    · rw [heq]
      exact .error _ _ ⟨hv, fun h => absurd h hsup⟩

theorem scmPackS32Vector_spec (nullElements : Bool) (data : List Int32) (isFinal : Bool) :
    Specified isFinal (scmPackS32Vector nullElements ([] : Buffer δ) data isFinal)
      ((Scm.s32vector data : Scm δ).Packable nullElements isFinal) := by
  have hvec (samples : List Int32) :
      Specified isFinal (some (packS32v ([] : Buffer δ) samples))
        (isFinal = true → 4 * samples.length < 2 ^ 32) := by
    have h := @Specified.vec δ isFinal .s32vec (by decide) (s32Bytes samples)
    rwa [length_s32Bytes] at h
  unfold scmPackS32Vector Scm.Packable
  split_ifs with hnull hfinal hlen
  · refine (hvec []).congr (iff_of_true (fun _ => by decide) fun _ => .inl ?_)
    simpa using hnull
  · subst hfinal
    refine .undefined fun h => ?_
    rcases h rfl with h | h
    · simp_all
    · omega
  · subst hfinal
    refine (hvec _).congr ?_
    rw [List.length_drop]
    constructor
    · exact fun h _ => .inr ⟨by omega, h rfl⟩
    · intro h _
      rcases h rfl with ⟨rfl, -⟩ | h
      · simp at hlen
      · exact h.2
  · exact (hvec data).congr (iff_of_true (fun h => absurd h hfinal) fun h => absurd h hfinal)

/-- **The reply to a value** is the only object, exactly for the values that can be packed. -/
theorem scmPack_spec (nullElements : Bool) (x : Scm δ) (isFinal : Bool) :
    Specified isFinal (scmPack nullElements [] x isFinal) (x.Packable nullElements isFinal) := by
  cases x
  case int z =>
    rcases scmToInt64_cases z with ⟨hz, heq⟩ | ⟨hz, heq⟩
    · rw [scmPack, heq]
      exact .scalar .int (by decide) (by decide) (.int _) rfl hz
    · rw [scmPack, heq]
      exact .undefined hz
  case real x integral =>
    cases integral
    · exact .scalar .float (by decide) (by decide) (.float x) rfl rfl
    · exact .undefined Bool.noConfusion
  case complex => exact .undefined id
  case bool b => exact .scalar .bool (by decide) (by decide) (.bool b) rfl trivial
  case nil => exact .null trivial
  case pair car cdr =>
    rw [scmPack, scmPackList, Scm.elements]
    rcases hcdr : cdr.elements with - | vs
    · refine .undefined ?_
      rintro ⟨vs, hvs, -⟩
      rw [hcdr] at hvs
      cases hvs
    · have h := @scmPackElements_spec δ [] (by simp) (car :: vs) isFinal
      simp only [Option.map_some, Option.bind_some, List.nil_append]
      simp only [List.length_nil, Nat.zero_add] at h
      refine h.congr ⟨fun h => ⟨vs, hcdr, h⟩, ?_⟩
      rintro ⟨vs', hvs', h⟩
      obtain rfl : vs = vs' := Option.some.inj (hcdr.symm.trans hvs')
      exact h
  case string s =>
    rcases @scmToLocaleString_cases δ s with ⟨hs, heq⟩ | ⟨hs, heq⟩
    · rw [scmPack, heq]
      exact .scalar .str (by decide) (by decide) (.str _) rfl hs
    · rw [scmPack, heq]
      exact .undefined (not_not.mpr hs)
  case vector type htype data => exact .vec htype data
  case s32vector data => exact scmPackS32Vector_spec nullElements data isFinal
  case array => exact .undefined id
  case other => exact .error _ _ trivial

end Racs
