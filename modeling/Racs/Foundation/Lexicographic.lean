import Mathlib.Order.Lattice
import Mathlib.Data.List.Lex
import Mathlib.Data.List.Induction
import Mathlib.Data.List.Infix

/-!
# Texts made of fields

Lists over a linear order are compared lexicographically. Of three lists in order, the middle one
begins with what the outer ones begin with. `joinFields sep` writes fields with a separator between
them, as in a path or a date; two such texts that begin with the same characters up to a separator
begin with the same fields.

## Main definitions

* `Lexicographic.joinFields` — fields with separators between them.

## Main results

* `Lexicographic.take_eq_of_le` — a list between two others begins as they do.
* `Lexicographic.append_lt_append_of_lt` — of two fields of one length the first decides.
* `Lexicographic.append_cons_inj` — text in front of a separator is determined by the whole.
* `Lexicographic.prefix_joinFields` — a common beginning that ends with a separator.
-/

namespace Lexicographic

section Order

variable {α : Type*} [LinearOrder α]

theorem lt_of_take_lt {a b : List α} {n : ℕ} (h : a.take n < b.take n) : a < b := by
  induction n generalizing a b with
  | zero => exact absurd h (lt_irrefl _)
  | succ n ih =>
    cases a with
    | nil =>
      cases b with
      | nil => exact absurd h (lt_irrefl _)
      | cons y b => exact List.nil_lt_cons y b
    | cons x a =>
      cases b with
      | nil => cases h
      | cons y b =>
        rw [List.take_succ_cons, List.take_succ_cons, List.cons_lt_cons_iff] at h
        exact List.cons_lt_cons_iff.mpr (h.imp_right fun h => ⟨h.1, ih h.2⟩)

theorem take_le_take {a b : List α} (h : a ≤ b) (n : ℕ) : a.take n ≤ b.take n := by
  by_contra hlt
  exact absurd (lt_of_take_lt (not_le.mp hlt)) (not_lt.mpr h)

/-- **A list between two others begins with what both of them begin with.** -/
theorem take_eq_of_le {a b c : List α} (hab : a ≤ b) (hbc : b ≤ c) {n : ℕ}
    (h : a.take n = c.take n) : b.take n = a.take n :=
  le_antisymm (h ▸ take_le_take hbc n) (take_le_take hab n)

/-- **Of two fields of one length the first decides**, whatever follows. -/
theorem append_lt_append_of_lt {a b : List α} (hlen : a.length = b.length) (h : a < b)
    (s t : List α) : a ++ s < b ++ t := by
  induction a generalizing b with
  | nil =>
    obtain rfl := List.length_eq_zero_iff.mp hlen.symm
    exact absurd h (lt_irrefl _)
  | cons x a ih =>
    cases b with
    | nil => cases hlen
    | cons y b =>
      rw [List.cons_append, List.cons_append, List.cons_lt_cons_iff]
      rcases List.cons_lt_cons_iff.mp h with hxy | ⟨rfl, hab⟩
      · exact .inl hxy
      · exact .inr ⟨rfl, ih (Nat.succ_inj.mp hlen) hab⟩

end Order

/-! ### Fields with separators -/

variable {α : Type*} {sep : α}

/-- The fields with the separator between them. -/
def joinFields (sep : α) : List (List α) → List α
  | [] => []
  | [x] => x
  | x :: y :: rest => x ++ sep :: joinFields sep (y :: rest)

theorem joinFields_cons (x : List α) {rest : List (List α)} (h : rest ≠ []) :
    joinFields sep (x :: rest) = x ++ sep :: joinFields sep rest := by
  cases rest with
  | nil => exact absurd rfl h
  | cons y rest => rfl

/-- Text without a separator, in front of the first separator, is determined by the whole. -/
theorem append_cons_inj {a b s t : List α} (ha : sep ∉ a) (hb : sep ∉ b)
    (h : a ++ sep :: s = b ++ sep :: t) : a = b ∧ s = t := by
  induction a generalizing b with
  | nil =>
    cases b with
    | nil => exact ⟨rfl, (List.cons.inj h).2⟩
    | cons x b =>
      obtain ⟨rfl, -⟩ := List.cons.inj h
      exact absurd List.mem_cons_self hb
  | cons x a ih =>
    cases b with
    | nil =>
      obtain ⟨rfl, -⟩ := List.cons.inj h
      exact absurd List.mem_cons_self ha
    | cons y b =>
      obtain ⟨rfl, htail⟩ := List.cons.inj h
      obtain ⟨rfl, rfl⟩ := ih (fun hx => ha (List.mem_cons_of_mem _ hx))
        (fun hx => hb (List.mem_cons_of_mem _ hx)) htail
      exact ⟨rfl, rfl⟩

/-- A text that ends with a separator and begins with a field that has none. -/
theorem eq_append_of_prefix {x r s : List α} (hx : sep ∉ x) (hr : r.getLast? = some sep)
    (h : r <+: x ++ sep :: s) :
    ∃ t, r = x ++ sep :: t ∧ t <+: s ∧ (t = [] ∨ t.getLast? = some sep) := by
  induction x generalizing r with
  | nil =>
    cases r with
    | nil => cases hr
    | cons y r =>
      obtain ⟨rfl, hprefix⟩ := List.cons_prefix_cons.mp h
      refine ⟨r, rfl, hprefix, ?_⟩
      cases r with
      | nil => exact .inl rfl
      | cons z r => exact .inr (by rwa [List.getLast?_cons_cons] at hr)
  | cons y x ih =>
    rw [List.mem_cons, not_or] at hx
    cases r with
    | nil => cases hr
    | cons z r =>
      obtain ⟨rfl, hprefix⟩ := List.cons_prefix_cons.mp h
      cases r with
      | nil =>
        rw [List.getLast?_singleton] at hr
        exact absurd (Option.some.inj hr).symm hx.1
      | cons w r =>
        obtain ⟨t, ht, hts, hlast⟩ := ih hx.2 (by rwa [List.getLast?_cons_cons] at hr) hprefix
        exact ⟨t, by rw [ht, List.cons_append], hts, hlast⟩

/-- A text is what ends with its last separator, and what follows it. -/
theorem exists_append_last (sep : α) (c : List α) :
    ∃ r t, c = r ++ t ∧ sep ∉ t ∧ (r = [] ∨ r.getLast? = some sep) := by
  induction c using List.reverseRecOn with
  | nil => exact ⟨[], [], rfl, List.not_mem_nil, .inl rfl⟩
  | append_singleton c x ih =>
    by_cases hx : sep = x
    · refine ⟨c ++ [x], [], (List.append_nil _).symm, List.not_mem_nil, .inr ?_⟩
      rw [List.getLast?_concat, hx]
    · obtain ⟨r, t, rfl, ht, hr⟩ := ih
      refine ⟨r, t ++ [x], List.append_assoc .., ?_, hr⟩
      rw [List.mem_append, List.mem_singleton, not_or]
      exact ⟨ht, hx⟩

theorem not_prefix_of_not_mem {x r : List α} (hx : sep ∉ x) (hr : r.getLast? = some sep) :
    ¬ r <+: x := fun h => hx (h.subset (List.mem_of_getLast? hr))

/-- **A common beginning that ends with a separator** is also the beginning of a third text, if that
one has the same fields wherever the other two have the same fields at their beginning. -/
theorem prefix_joinFields {a b c : List (List α)} {r : List α} (ha : ∀ x ∈ a, sep ∉ x)
    (hb : ∀ x ∈ b, sep ∉ x) (hlen : c.length = a.length)
    (hc : ∀ n, a.take n = b.take n → c.take n = a.take n) (hr : r = [] ∨ r.getLast? = some sep)
    (hra : r <+: joinFields sep a) (hrb : r <+: joinFields sep b) : r <+: joinFields sep c := by
  induction a generalizing b c r with
  | nil =>
    obtain rfl := List.prefix_nil.mp hra
    exact List.nil_prefix
  | cons x a ih =>
    rcases hr with rfl | hr
    · exact List.nil_prefix
    have hx := ha x List.mem_cons_self
    cases a with
    | nil => exact absurd hra (not_prefix_of_not_mem hx hr)
    | cons x' a =>
      cases b with
      | nil =>
        obtain rfl := List.prefix_nil.mp hrb
        cases hr
      | cons y b =>
        have hy := hb y List.mem_cons_self
        cases b with
        | nil => exact absurd hrb (not_prefix_of_not_mem hy hr)
        | cons y' b =>
          obtain ⟨t, rfl, hta, hlast⟩ := eq_append_of_prefix hx hr hra
          obtain ⟨t', heq, htb, -⟩ := eq_append_of_prefix hy hr hrb
          obtain ⟨rfl, rfl⟩ := append_cons_inj hx hy heq
          -- the third text has the first field, and the rest follows by induction
          obtain ⟨z, z', c, rfl⟩ : ∃ z z' c', c = z :: z' :: c' := by
            match c, hlen with
            | z :: z' :: c', _ => exact ⟨z, z', c', rfl⟩
          obtain rfl : z = x := (List.cons.inj (hc 1 rfl)).1
          have hrest : t <+: joinFields sep (z' :: c) := by
            refine ih (fun w hw => ha w (List.mem_cons_of_mem _ hw))
              (fun w hw => hb w (List.mem_cons_of_mem _ hw)) (Nat.succ_inj.mp hlen) ?_ hlast hta htb
            intro n hn
            have hsucc := hc (n + 1) (by rw [List.take_succ_cons, List.take_succ_cons, hn])
            rw [List.take_succ_cons, List.take_succ_cons] at hsucc
            exact (List.cons.inj hsucc).2
          rw [joinFields_cons z (List.cons_ne_nil z' c)]
          exact (List.prefix_append_right_inj z).mpr (List.cons_prefix_cons.mpr ⟨rfl, hrest⟩)

end Lexicographic
