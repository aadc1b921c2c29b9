import GameOfThreads.Machine.Cursor
import GameOfThreads.Machine.Memory

/-! Strings with a terminator or a length limit. What the string routines of C make of two
memories depends only on the characters that the limit and the terminator leave visible. -/
namespace GameOfThreads.Machine

/-- The characters before the first NUL among the `n` from index `i` on. -/
def charsFrom (f : ℕ → UInt8) (i n : ℕ) : List UInt8 :=
  ((List.range' i n).map f).takeWhile (· ≠ 0)

variable {f g : ℕ → UInt8} {i n : ℕ} {s : List UInt8}

@[simp] theorem charsFrom_zero (f : ℕ → UInt8) (i : ℕ) : charsFrom f i 0 = [] := rfl

theorem charsFrom_succ (f : ℕ → UInt8) (i n : ℕ) :
    charsFrom f i (n+1) = if f i = 0 then [] else f i :: charsFrom f (i+1) n := by
  by_cases h : f i = 0
  · simp [charsFrom, List.range'_succ, h]
  · simp [charsFrom, List.range'_succ, h]

theorem charsFrom_length_le (f : ℕ → UInt8) (i n : ℕ) : (charsFrom f i n).length ≤ n := by
  have h := (List.takeWhile_sublist (l := (List.range' i n).map f) (· ≠ 0)).length_le
  simpa [charsFrom] using h

theorem charsFrom_no_nul (f : ℕ → UInt8) (i n : ℕ) : 0 ∉ charsFrom f i n := by
  intro h
  simpa using List.mem_takeWhile_imp h

theorem charsFrom_congr (h : ∀ j < i+n, f j = g j) : charsFrom f i n = charsFrom g i n := by
  unfold charsFrom
  congr 1
  apply List.map_congr_left
  intro j hj
  have := List.mem_range'_1.mp hj
  exact h j this.2

theorem charsFrom_tail (f : ℕ → UInt8) (i n : ℕ) :
    charsFrom (fun j => f (j+1)) i n = charsFrom f (i+1) n := by
  induction n generalizing i with
  | zero => rfl
  | succ n ih => simp only [charsFrom_succ, ih]

theorem strlen_eq_length (h : 0 ∉ s) : strlen s = s.length := by
  rw [strlen, List.takeWhile_eq_self_iff.mpr]
  intro b hb
  simpa using ne_of_mem_of_not_mem hb h

/-- A string that fits is all of its characters. -/
theorem charsFrom_cstring (h₀ : 0 ∉ s) (hn : s.length ≤ n) : charsFrom (cstring s) 0 n = s := by
  induction s generalizing n with
  | nil =>
    cases n with
    | zero => rfl
    | succ n => simp [charsFrom_succ, cstring]
  | cons b s ih =>
    obtain ⟨n,rfl⟩ : ∃ m, n = m+1 := ⟨n-1,by simp at hn; omega⟩
    simp only [List.mem_cons, not_or] at h₀
    have hrest : charsFrom (cstring (b :: s)) 1 n = s := by
      rw [← charsFrom_tail]
      exact ih h₀.2 (by simpa using hn)
    have hb : cstring (b :: s) 0 = b := rfl
    rw [charsFrom_succ, hb, if_neg (Ne.symm h₀.1), hrest]

/-- A string that stands in memory is seen in full through a window that is longer. -/
theorem charsFrom_stands (hs : Stands f i s 0) (h₀ : 0 ∉ s) (hn : s.length < n) :
    charsFrom f i n = s := by
  induction s generalizing i n with
  | nil =>
    obtain ⟨n,rfl⟩ := Nat.exists_eq_add_of_lt hn
    rw [charsFrom_succ, if_pos hs.nil]
  | cons b s ih =>
    obtain ⟨n,rfl⟩ : ∃ m, n = m+1 := ⟨n-1,by omega⟩
    rw [List.length_cons, Nat.succ_lt_succ_iff] at hn
    simp only [List.mem_cons, not_or] at h₀
    rw [charsFrom_succ, hs.head, if_neg (Ne.symm h₀.1), ih hs.tail h₀.2 hn]

/-- A string copy shows the characters of its source. -/
theorem charsFrom_strcpy (dest src : ℕ → UInt8) (n : ℕ) (h : ∀ j < i, src j ≠ 0) :
    charsFrom (strcpy dest src) i n = charsFrom src i n := by
  induction n generalizing i with
  | zero => rfl
  | succ n ih =>
    have hi : strcpy dest src i = src i := if_pos h
    rw [charsFrom_succ, charsFrom_succ, hi]
    by_cases hnul : src i = 0
    · simp [hnul]
    · rw [if_neg hnul, if_neg hnul, ih]
      intro j hj
      obtain hj | rfl : j < i ∨ j = i := by omega
      · exact h j hj
      · exact hnul

theorem char_injective : Function.Injective char := by
  intro a b h
  have ha := a.toNat_lt
  have hb := b.toNat_lt
  apply UInt8.toNat_inj.mp
  unfold char at h
  split_ifs at h <;> omega

/-- A bounded comparison is zero exactly when it sees the same characters. -/
theorem strncmpFrom_eq_zero_iff (f g : ℕ → UInt8) (n i : ℕ) :
    strncmpFrom f g n i = 0 ↔ charsFrom f i n = charsFrom g i n := by
  induction n generalizing i with
  | zero => simp [strncmpFrom]
  | succ n ih =>
    rw [strncmpFrom, charsFrom_succ, charsFrom_succ]
    by_cases hne : f i = g i
    · by_cases hnul : f i = 0
      · simp [← hne, hnul]
      · have hg : g i ≠ 0 := by rwa [← hne]
        rw [if_neg (by simp [hne, hg]), if_neg hnul, if_neg hg, ih, hne]
        simp
    · rw [if_pos (Or.inl hne), sub_eq_zero, char_injective.eq_iff]
      split_ifs with hf hg
      · exact absurd (hf.trans hg.symm) hne
      · simp [hne]
      · simp [hne]
      · simp [hne]

end GameOfThreads.Machine
