import GameOfThreads.Format

/-! What itoa leaves in a buffer. The digits come out with the lowest place first and are turned
round in place; the result is the numeral of the value, with its NUL, and nothing else has
changed. -/
namespace GameOfThreads
open Machine

/-- The characters of the digits: 0 to 9, and upper-case letters from A on. -/
def digitChar (d : ℕ) : UInt8 := if d < 10 then (48+d).toUInt8 else (55+d).toUInt8

/-- The numeral of a value in a radix. -/
def digits (radix v : ℕ) : List UInt8 := numeral digitChar radix v

theorem lookup_digit {d : ℕ} (hd : d < 36) : lookup.getD d 0 = digitChar d := by
  have hall : ∀ d < 36, lookup.getD d 0 = digitChar d := by decide +kernel
  exact hall d hd

theorem digitChar_ne_nul {d : ℕ} (hd : d < 36) : digitChar d ≠ 0 := by
  have hall : ∀ d < 36, digitChar d ≠ 0 := by decide +kernel
  exact hall d hd

theorem digitChar_distinct {radix : ℕ} (hr : radix ≤ 36) : Distinct digitChar radix := by
  have hall : ∀ a < 36, ∀ b < 36, digitChar a = digitChar b → a = b := by decide +kernel
  exact fun a ha b hb => hall a (by omega) b (by omega)

section
variable {radix v fuel : ℕ} {buffer : ℕ → UInt8} {s : List UInt8}

theorem digits_no_nul (hr : 1 < radix) (hr' : radix ≤ 36) (v : ℕ) : 0 ∉ digits radix v := by
  intro h
  obtain ⟨d,hd,hc⟩ := numeral_mem hr h
  exact digitChar_ne_nul (by omega) hc.symm

/-- 32 digits are enough for 32 bits. -/
theorem digits_length_le (hr : 1 < radix) (hv : v < 4294967296) :
    (digits radix v).length ≤ 32 := by
  refine numeral_length_le hr (by omega) (hv.trans_le ?_)
  calc 4294967296 = 2^32 := by norm_num
    _ ≤ radix^32 := Nat.pow_le_pow_left hr 32

/-! ### The digit loop -/

/-- The places of the value, the lowest first, go to the buffer one after the other. -/
theorem loop_digits (hr : 1 < radix) (hr' : radix ≤ 36) (v p : ℕ) (buffer : ℕ → UInt8)
    (hfuel : (Nat.digits radix v).length < fuel) :
    loop (digitRound radix) fuel (v,p,buffer) =
      some (p+(Nat.digits radix v).length,
        written buffer (storesFrom p ((Nat.digits radix v).map digitChar))) := by
  induction fuel generalizing v p buffer with
  | zero => omega
  | succ fuel ih =>
    by_cases hv : v = 0
    · subst hv
      rw [Nat.digits_zero]
      exact loop_leave rfl
    have hpos : v > 0 := by omega
    have hplaces := Nat.digits_def' hr hpos
    have hdigit : v % radix < 36 := (Nat.mod_lt v (by omega)).trans_le hr'
    rw [hplaces] at hfuel ⊢
    have hround : digitRound radix (v,p,buffer) =
        .inl (v/radix,p+1,Function.update buffer p (digitChar (v % radix))) := by
      rw [digitRound, if_pos hpos, lookup_digit hdigit]
    rw [loop_again hround, ih _ _ _ (by simpa using hfuel), List.length_cons, List.map_cons,
      storesFrom]
    congr 2
    omega

/-- strrev turns a string round in place. -/
theorem strrev_reverses {a : ℕ} (h : Stands buffer a s 0) (hs : 0 ∉ s) (hfuel : s.length < fuel) :
    ∃ buffer', strrev fuel buffer a = some buffer' ∧ Stands buffer' a s.reverse 0 ∧
      ∀ i, i < a ∨ a+s.length ≤ i → buffer' i = buffer i := by
  obtain ⟨buffer',hswap,hresult⟩ := loop_swap h hfuel
  refine ⟨buffer',?_,hresult⟩
  rw [strrev, loop_length h hs hfuel, Option.bind_some, hswap]

/-- itoa ends, and has stored the numeral of the value with its NUL and nothing else. -/
theorem itoa_eq (hr : 1 < radix) (hr' : radix ≤ 36) (hv : v < 4294967296) (hfuel : 32 < fuel)
    (buffer : ℕ → UInt8) (buf : ℕ) :
    itoa fuel v buffer buf radix =
      some (written buffer (storesFrom buf (digits radix v ++ [0]))) := by
  by_cases hzero : v = 0
  · subst hzero
    rfl
  have hlength := digits_length_le hr hv
  have hdigits : digits radix v = ((Nat.digits radix v).map digitChar).reverse := by
    rw [digits, numeral, if_neg hzero]
  have hnul := digits_no_nul hr hr' v
  rw [hdigits, List.mem_reverse] at hnul
  rw [hdigits, List.length_reverse] at hlength
  rw [hdigits]
  have hplaces : ((Nat.digits radix v).map digitChar).length = (Nat.digits radix v).length :=
    List.length_map _
  have hloop : loop (digitRound radix) fuel (v,buf,buffer) = _ :=
    loop_digits hr hr' v buf buffer (by omega)
  rw [← hplaces] at hloop
  generalize (Nat.digits radix v).map digitChar = places at *
  have hstored : Function.update (written buffer (storesFrom buf places)) (buf+places.length) 0 =
      written buffer (storesFrom buf (places ++ [0])) := by
    rw [storesFrom_append, ← written_snoc]
    rfl
  have hlt : places.length < fuel := by omega
  obtain ⟨buffer',hrev,hstands,hout⟩ :=
    strrev_reverses (stands_written_from places 0 buffer buf) hnul hlt
  rw [itoa, if_neg hzero, hloop, Option.bind_some, hstored, hrev]
  refine congrArg some (eq_written hstands fun j hj => ?_)
  rw [List.length_reverse] at hj
  have hoff : j < buf ∨ buf+(places ++ [0]).length ≤ j := by
    rw [List.length_append, List.length_singleton]
    omega
  rw [hout j (by omega), written_outside _ _ hoff]

end
end GameOfThreads
