import Mathlib.Data.Nat.Digits.Lemmas

/-! Numerals of a positional system, over any characters for its digits. A numeral without
leading zeros is determined by its value; with leading zeros it still denotes it. -/
namespace GameOfThreads.Machine

section
variable {β : Type*} (digit : ℕ → β) (radix : ℕ)

/-- The characters are digits of the radix, the most significant first, and denote the value. -/
def Denotes (s : List β) (v : ℕ) : Prop :=
  ∃ ds : List ℕ, s = ds.map digit ∧ (∀ d ∈ ds, d < radix) ∧ Nat.ofDigits radix ds.reverse = v

/-- A numeral without leading zeros. -/
structure Numeral (s : List β) (v : ℕ) : Prop where
  denotes : Denotes digit radix s v
  nonempty : s ≠ []
  canonical : s.head? = some (digit 0) → s.length = 1

/-- No two digits of the radix look the same. -/
def Distinct : Prop := ∀ a < radix, ∀ b < radix, digit a = digit b → a = b

/-- The numeral of a value. -/
def numeral (v : ℕ) : List β :=
  if v = 0 then [digit 0] else ((Nat.digits radix v).map digit).reverse

variable {digit radix} {s : List β} {v : ℕ}

theorem Denotes.pad (h : Denotes digit radix s v) (hr : 0 < radix) (n : ℕ) :
    Denotes digit radix (List.replicate n (digit 0) ++ s) v := by
  obtain ⟨ds,rfl,hlt,rfl⟩ := h
  refine ⟨List.replicate n 0 ++ ds,by simp,?_,?_⟩
  · intro d hd
    rcases List.mem_append.mp hd with hd | hd
    · rw [List.eq_of_mem_replicate hd]
      exact hr
    · exact hlt d hd
  · rw [List.reverse_append, List.reverse_replicate, Nat.ofDigits_append_replicate_zero]

theorem numeral_denotes (hr : 1 < radix) (v : ℕ) :
    Denotes digit radix (numeral digit radix v) v := by
  unfold numeral
  split_ifs with hzero
  · subst hzero
    refine ⟨[0],rfl,?_,by simp⟩
    intro d hd
    rw [List.mem_singleton.mp hd]
    omega
  · refine ⟨(Nat.digits radix v).reverse,by simp,?_,?_⟩
    · intro d hd
      exact Nat.digits_lt_base hr (List.mem_reverse.mp hd)
    · rw [List.reverse_reverse, Nat.ofDigits_digits]

theorem numeral_ne_nil (v : ℕ) : numeral digit radix v ≠ [] := by
  unfold numeral
  split_ifs with hzero
  · exact List.cons_ne_nil _ _
  · have hne := Nat.digits_ne_nil_iff_ne_zero (b := radix).mpr hzero
    simpa using hne

/-- The numeral of a value is one. -/
theorem numeral_numeral (hr : 1 < radix) (hd : Distinct digit radix) (v : ℕ) :
    Numeral digit radix (numeral digit radix v) v := by
  refine ⟨numeral_denotes hr v,numeral_ne_nil v,?_⟩
  unfold numeral
  split_ifs with hzero
  · exact fun _ => rfl
  · intro hhead
    have hne := Nat.digits_ne_nil_iff_ne_zero (b := radix).mpr hzero
    have hlast := Nat.getLast_digit_ne_zero radix hzero
    have hlt := Nat.digits_lt_base hr (List.getLast_mem hne)
    rw [List.head?_reverse, List.getLast?_map, List.getLast?_eq_some_getLast hne] at hhead
    exact absurd (hd _ hlt 0 (by omega) (Option.some.inj hhead)) hlast

/-- There is no other. -/
theorem Numeral.unique (h : Numeral digit radix s v) (hr : 1 < radix) :
    s = numeral digit radix v := by
  obtain ⟨⟨ds,rfl,hlt,hv⟩,hne,hcanonical⟩ := h
  cases ds with
  | nil => exact absurd rfl hne
  | cons d ds =>
    by_cases hd : d = 0
    · have hlength := hcanonical (by rw [hd]; rfl)
      have hds : ds = [] := by simpa using hlength
      subst hd hds
      have hzero : v = 0 := by simpa using hv.symm
      rw [numeral, if_pos hzero]
      rfl
    · have hdigits : Nat.digits radix v = (d :: ds).reverse := by
        rw [← hv]
        refine Nat.digits_ofDigits radix hr _ (fun l hl => hlt l (List.mem_reverse.mp hl)) ?_
        intro _
        simpa using hd
      have hzero : v ≠ 0 := by
        rw [← Nat.digits_ne_nil_iff_ne_zero (b := radix), hdigits]
        simp
      rw [numeral, if_neg hzero, hdigits, List.map_reverse, List.reverse_reverse]

theorem numeral_length_le (hr : 1 < radix) {k : ℕ} (hk : 0 < k) (hv : v < radix^k) :
    (numeral digit radix v).length ≤ k := by
  unfold numeral
  split_ifs with hzero
  · exact hk
  · rw [List.length_reverse, List.length_map]
    exact (Nat.digits_length_le_iff hr v).mpr hv

theorem numeral_mem (hr : 1 < radix) {c : β} (hc : c ∈ numeral digit radix v) :
    ∃ d < radix, c = digit d := by
  have hdenotes : Denotes digit radix (numeral digit radix v) v := numeral_denotes hr v
  obtain ⟨ds,hs,hlt,-⟩ := hdenotes
  rw [hs] at hc
  obtain ⟨d,hd,rfl⟩ := List.mem_map.mp hc
  exact ⟨d,hlt d hd,rfl⟩

end
end GameOfThreads.Machine
