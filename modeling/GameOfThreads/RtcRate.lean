import GameOfThreads.ProcessRuns
import GameOfThreads.Machine.Loop

/-! Setting the rate of the real-time clock. Both loops of write_rtc end, the call accepts the
powers of two from 2 to 1024 and no other frequency, and it leaves the interrupt flag set where
it succeeds and clear where it refuses a frequency. -/
namespace GameOfThreads
open Machine

/-- One round of the loop that halves the frequency. -/
def halvesRound (temp : ℤ) : ℤ ⊕ Bool :=
  if temp = 1 then .inr true
  else if temp.tmod 2 ≠ 0 then .inr false
  else .inl (temp.tdiv 2)

/-- One round of the loop that doubles the frequency and counts. -/
def rateRound (s : ℤ × ℕ) : (ℤ × ℕ) ⊕ ℕ :=
  if s.1 = 32768 then .inr s.2 else .inl (i32 (2*s.1),(s.2+1) % 4294967296)

/-- write_rtc with its loops cut off after some rounds: `none` when one of them has not ended. -/
def writeRtcFor (fuel : ℕ) (buf : Option (ℕ → UInt8)) (nbytes : ℤ) (k : Kernel) :
    Option (ℤ × Kernel) :=
  match buf with
  | none => some (-1,k)
  | some buf =>
    if nbytes ≠ 4 then some (-1,k)
    else
      let k := { k with interrupts := false }
      let frequency := i32 (word buf 0)
      if frequency < 2 ∨ frequency > 1024 then some (-1,k)
      else
        match loop halvesRound fuel frequency with
        | none => none
        | some false => some (-1,k)
        | some true =>
          match loop rateRound fuel (frequency,1) with
          | none => none
          | some rate =>
            let a := k.registerA/16*16
            some (0,{ k with rate := rate, registerA := (rate ||| a) % 256, interrupts := true })

/-! ### The loops -/

theorem halvesToOne_of_loop {fuel : ℕ} {temp : ℤ} {b : Bool}
    (h : loop halvesRound fuel temp = some b) : halvesToOne fuel temp = b := by
  induction fuel generalizing temp with
  | zero => cases h
  | succ fuel ih =>
    simp only [loop, halvesRound] at h
    simp only [halvesToOne]
    split_ifs at h ⊢
    · exact Option.some.inj h
    · exact Option.some.inj h
    · exact ih h

theorem rateLoop_of_loop {fuel rate n : ℕ} {frequency : ℤ}
    (h : loop rateRound fuel (frequency,rate) = some n) : rateLoop fuel frequency rate = n := by
  induction fuel generalizing frequency rate with
  | zero => cases h
  | succ fuel ih =>
    simp only [loop, rateRound] at h
    simp only [rateLoop]
    split_ifs at h ⊢
    · exact Option.some.inj h
    · exact ih h

/-- Halving ends within the bits of a positive number, at one for a power of two and at an odd
number for any other. -/
theorem loop_halves {fuel : ℕ} {temp : ℤ} (hpos : 0 < temp) (hlt : temp < 2^fuel) :
    ∃ b, loop halvesRound fuel temp = some b ∧ (b = true ↔ ∃ j : ℕ, temp = 2^j) := by
  induction fuel generalizing temp with
  | zero => exact absurd hlt (by omega)
  | succ fuel ih =>
    have hmod : temp.tmod 2 = temp % 2 := Int.tmod_eq_emod_of_nonneg (by omega)
    have hdiv : temp.tdiv 2 = temp/2 := Int.tdiv_eq_ediv_of_nonneg (by omega)
    have hdouble : ∀ n : ℕ, (2 : ℤ)^(n+1) = 2*2^n := fun n => by ring
    have hbits := hdouble fuel
    by_cases hone : temp = 1
    · refine ⟨true,loop_leave (by simp [halvesRound, hone]),?_⟩
      exact iff_of_true rfl ⟨0,by simpa using hone⟩
    by_cases hodd : temp.tmod 2 = 0
    · have htwo : temp = 2*temp.tdiv 2 := by omega
      have hround : halvesRound temp = .inl (temp.tdiv 2) := by simp [halvesRound, hone, hodd]
      rw [loop_again hround]
      obtain ⟨b,hb,hpow⟩ := @ih (temp.tdiv 2) (by omega) (by omega)
      refine ⟨b,hb,hpow.trans ?_⟩
      constructor
      · rintro ⟨j,hj⟩
        exact ⟨j+1,by rw [htwo, hj]; ring⟩
      · rintro ⟨j,hj⟩
        cases j with
        | zero => exact absurd hj hone
        | succ j =>
          have hj' := hdouble j
          exact ⟨j,by omega⟩
    · refine ⟨false,loop_leave (by simp [halvesRound, hone, hodd]),?_⟩
      refine iff_of_false Bool.false_ne_true ?_
      rintro ⟨j,hj⟩
      cases j with
      | zero => exact hone hj
      | succ j =>
        have hj' := hdouble j
        omega

/-- Doubling reaches 32768 from a power of two below it, one round for each factor. -/
theorem loop_rate {d fuel rate : ℕ} (hd : d ≤ 15) (hfuel : d < fuel)
    (hrate : rate+d < 4294967296) :
    loop rateRound fuel ((2 : ℤ)^(15-d),rate) = some (rate+d) := by
  refine loop_ends (n := d) (f := fun i => ((2 : ℤ)^(15-d+i),rate+i)) (fun i hi => ?_) ?_ hfuel
  · have hdouble : (2 : ℤ)^(15-d+(i+1)) = 2*2^(15-d+i) := pow_succ' ..
    have hle : (2 : ℤ)^(15-d+(i+1)) ≤ 32768 := by
      calc (2 : ℤ)^(15-d+(i+1)) ≤ 2^15 := pow_le_pow_right₀ (by norm_num) (by omega)
        _ = 32768 := by norm_num
    have hpos : (0 : ℤ) < 2^(15-d+i) := by positivity
    have hne : (2 : ℤ)^(15-d+i) ≠ 32768 := by omega
    rw [rateRound, if_neg hne, ← hdouble, i32_of_range (by omega) (by omega),
      Nat.mod_eq_of_lt (by omega)]
    rfl
  · rw [Nat.sub_add_cancel hd]
    exact if_pos (by norm_num)

/-! ### The call -/

/-- A power of two from 2 to 1024. -/
def ValidRate (frequency : ℤ) : Prop := ∃ j : ℕ, 1 ≤ j ∧ j ≤ 10 ∧ frequency = 2^j

theorem validRate_iff {frequency : ℤ} : ValidRate frequency ↔
    (2 ≤ frequency ∧ frequency ≤ 1024) ∧ ∃ j : ℕ, frequency = 2^j := by
  constructor
  · rintro ⟨j,hj,hj',rfl⟩
    refine ⟨⟨?_,?_⟩,j,rfl⟩
    · simpa using pow_le_pow_right₀ (a := (2 : ℤ)) (by norm_num) hj
    · calc (2 : ℤ)^j ≤ 2^10 := pow_le_pow_right₀ (by norm_num) hj'
        _ = 1024 := by norm_num
  · rintro ⟨⟨hlow,hhigh⟩,j,rfl⟩
    refine ⟨j,?_,?_,rfl⟩
    · by_contra h
      have hzero : j = 0 := by omega
      rw [hzero] at hlow
      norm_num at hlow
    · by_contra h
      have hbig : (2 : ℤ)^11 ≤ 2^j := pow_le_pow_right₀ (by norm_num) (by omega)
      norm_num at hbig
      omega

/-- The clock at a rate: the lower four bits of register A. -/
def Kernel.setRate (rate : ℕ) (k : Kernel) : Kernel :=
  { k with rate := rate, registerA := (rate ||| k.registerA/16*16) % 256, interrupts := true }

section
variable {fuel : ℕ} {buf : ℕ → UInt8} {nbytes : ℤ} (k : Kernel)

theorem valid_inRange {j : ℕ} (hj : 1 ≤ j) (hj' : j ≤ 10) :
    ¬((2 : ℤ)^j < 2 ∨ (2 : ℤ)^j > 1024) := by
  obtain ⟨⟨hlow,hhigh⟩,-⟩ := validRate_iff.mp ⟨j,hj,hj',rfl⟩
  omega

theorem valid_loops {j : ℕ} (hj : 1 ≤ j) (hj' : j ≤ 10) :
    loop halvesRound 32 ((2 : ℤ)^j) = some true ∧
      loop rateRound 32 ((2 : ℤ)^j,1) = some (16-j) := by
  have hrange := valid_inRange hj hj'
  obtain ⟨b,hb,hpow⟩ := @loop_halves 32 (2^j) (by omega) (by omega)
  rw [hpow.mpr ⟨j,rfl⟩] at hb
  have hloop := @loop_rate (15-j) 32 1 (by omega) (by omega) (by omega)
  rw [show 15-(15-j) = j by omega, show 1+(15-j) = 16-j by omega] at hloop
  exact ⟨hb,hloop⟩

theorem refused_loop {frequency : ℤ} (hf : ¬ValidRate frequency)
    (hrange : ¬(frequency < 2 ∨ frequency > 1024)) :
    loop halvesRound 32 frequency = some false := by
  obtain ⟨b,hb,hpow⟩ := @loop_halves 32 frequency (by omega) (by omega)
  cases b with
  | false => exact hb
  | true => exact absurd (validRate_iff.mpr ⟨by omega,hpow.mp rfl⟩) hf

theorem writeRtc_size (h : nbytes ≠ 4) : writeRtc (some buf) nbytes k = (-1,k) := by
  simp [writeRtc, h]

theorem writeRtc_valid {j : ℕ} (hj : 1 ≤ j) (hj' : j ≤ 10) (hf : i32 (word buf 0) = 2^j) :
    writeRtc (some buf) 4 k = (0,k.setRate (16-j)) := by
  obtain ⟨hhalves,hrate⟩ := valid_loops hj hj'
  have hhalves' := halvesToOne_of_loop hhalves
  have hrate' := rateLoop_of_loop hrate
  simp only [writeRtc, hf, if_neg (valid_inRange hj hj'), hhalves', hrate']
  rfl

theorem writeRtc_refused (hf : ¬ValidRate (i32 (word buf 0))) :
    writeRtc (some buf) 4 k = (-1,{ k with interrupts := false }) := by
  by_cases hrange : i32 (word buf 0) < 2 ∨ i32 (word buf 0) > 1024
  · simp only [writeRtc, if_pos hrange]
    rfl
  have hhalves := halvesToOne_of_loop (refused_loop hf hrange)
  simp only [writeRtc, if_neg hrange, hhalves]
  rfl

/-- Both loops of write_rtc end within the 32 bits of a frequency. -/
theorem writeRtcFor_eq (hfuel : 32 ≤ fuel) :
    writeRtcFor fuel (some buf) nbytes k = some (writeRtc (some buf) nbytes k) := by
  by_cases hsize : nbytes = 4
  swap
  · rw [writeRtc_size k hsize]
    simp [writeRtcFor, hsize]
  subst hsize
  by_cases hvalid : ValidRate (i32 (word buf 0))
  · obtain ⟨j,hj,hj',hf⟩ := hvalid
    obtain ⟨hhalves,hrate⟩ := valid_loops hj hj'
    rw [writeRtc_valid k hj hj' hf]
    simp only [writeRtcFor, hf, if_neg (valid_inRange hj hj'), loop_mono hhalves hfuel,
      loop_mono hrate hfuel]
    rfl
  · rw [writeRtc_refused k hvalid]
    by_cases hrange : i32 (word buf 0) < 2 ∨ i32 (word buf 0) > 1024
    · simp only [writeRtcFor, if_pos hrange]
      rfl
    simp only [writeRtcFor, if_neg hrange, loop_mono (refused_loop hvalid hrange) hfuel]
    rfl

/-! ### Exactness and the interrupt flag -/

theorem setRate_registerA {rate : ℕ} (h : rate < 16) :
    (k.setRate rate).registerA = (k.registerA/16*16+rate) % 256 := by
  have hbits := Nat.shiftLeft_add_eq_or_of_lt (i := 4) (b := rate) (by omega) (k.registerA/16)
  rw [Nat.shiftLeft_eq] at hbits
  simp only [Kernel.setRate]
  rw [Nat.or_comm, ← hbits]

/-- The rate is exact: the call ends; it succeeds for the sizes and frequencies that it should,
and then register A keeps its upper four bits and takes the frequency in the lower four; in all
other cases it returns -1 and leaves the rate and the register as they were. -/
structure ExactRate (buf : ℕ → UInt8) (nbytes : ℤ) (k : Kernel) (r : ℤ × Kernel) : Prop where
  ends : ∀ fuel ≥ 32, writeRtcFor fuel (some buf) nbytes k = some r
  accepted : r.1 = 0 ↔ nbytes = 4 ∧ ValidRate (i32 (word buf 0))
  byte : r.1 = 0 → r.2.registerA < 256
  upper : r.1 = 0 → r.2.registerA/16 % 16 = k.registerA/16 % 16
  lower : r.1 = 0 → (32768 >>> (r.2.registerA % 16-1) : ℕ) = i32 (word buf 0)
  refused : r.1 ≠ 0 → r.1 = -1 ∧ r.2.rate = k.rate ∧ r.2.registerA = k.registerA

theorem writeRtc_exact (buf : ℕ → UInt8) (nbytes : ℤ) (k : Kernel) :
    ExactRate buf nbytes k (writeRtc (some buf) nbytes k) := by
  have hends : ∀ fuel ≥ 32,
      writeRtcFor fuel (some buf) nbytes k = some (writeRtc (some buf) nbytes k) :=
    fun fuel hfuel => writeRtcFor_eq k hfuel
  have hno : ∀ k' : Kernel, k'.rate = k.rate → k'.registerA = k.registerA →
      ¬(nbytes = 4 ∧ ValidRate (i32 (word buf 0))) →
      writeRtc (some buf) nbytes k = (-1,k') → ExactRate buf nbytes k (-1,k') := by
    intro k' hrate hreg hcall hr
    have hminus : (-1 : ℤ) ≠ 0 := by decide
    exact
      { ends := hr ▸ hends
        accepted := iff_of_false hminus hcall
        byte := fun h => absurd h hminus
        upper := fun h => absurd h hminus
        lower := fun h => absurd h hminus
        refused := fun _ => ⟨rfl,hrate,hreg⟩ }
  by_cases hsize : nbytes = 4
  swap
  · have hr : writeRtc (some buf) nbytes k = (-1,k) := writeRtc_size k hsize
    rw [hr]
    exact hno k rfl rfl (fun h => hsize h.1) hr
  subst hsize
  by_cases hvalid : ValidRate (i32 (word buf 0))
  swap
  · have hr := writeRtc_refused k hvalid
    rw [hr]
    exact hno _ rfl rfl (fun h => hvalid h.2) hr
  obtain ⟨j,hj,hj',hf⟩ := hvalid
  have hr := writeRtc_valid k hj hj' hf
  have hreg : (k.setRate (16-j)).registerA = (k.registerA/16*16+(16-j)) % 256 :=
    setRate_registerA k (by omega)
  rw [hr] at hends ⊢
  refine ⟨hends,iff_of_true rfl ⟨rfl,j,hj,hj',hf⟩,fun _ => ?_,fun _ => ?_,fun _ => ?_,fun h => ?_⟩
  · simp only [hreg]
    omega
  · simp only [hreg]
    omega
  · have hlow : (k.registerA/16*16+(16-j)) % 256 % 16-1 = 15-j := by omega
    simp only [hreg, hlow, hf]
    interval_cases j <;> rfl
  · exact absurd rfl h

/-- A call that gets to the checks of the frequency leaves the interrupt flag as it was exactly
when it succeeds with the flag set or fails with the flag clear. -/
theorem writeRtc_exact_atomic_iff (buf : ℕ → UInt8) (nbytes : ℤ) (k : Kernel) :
    (ExactRate buf nbytes k (writeRtc (some buf) nbytes k) ∧
      (writeRtc (some buf) nbytes k).2.interrupts = k.interrupts) ↔
      (nbytes = 4 → (ValidRate (i32 (word buf 0)) ↔ k.interrupts = true)) := by
  rw [and_iff_right (writeRtc_exact buf nbytes k)]
  by_cases hsize : nbytes = 4
  swap
  · rw [writeRtc_size k hsize]
    exact iff_of_true rfl fun h => absurd h hsize
  subst hsize
  by_cases hvalid : ValidRate (i32 (word buf 0))
  · obtain ⟨j,hj,hj',hf⟩ := id hvalid
    rw [writeRtc_valid k hj hj' hf]
    constructor
    · intro h _
      exact iff_of_true hvalid h.symm
    · intro h
      exact ((h rfl).mp hvalid).symm
  · rw [writeRtc_refused k hvalid]
    constructor
    · intro h _
      exact iff_of_false hvalid fun hset => Bool.false_ne_true (h.trans hset)
    · intro h
      exact (Bool.eq_false_iff.mpr fun hset => hvalid ((h rfl).mpr hset)).symm

end

/-- A system call with the frequency 3 comes back with the interrupts off. -/
theorem writeRtc_three_disables :
    let k := staticStorage (fun _ => PCB.zero) fun _ => 0
    let r := writeRtc (some (cstring [3])) 4 k
    r.1 = -1 ∧ k.interrupts = true ∧ r.2.interrupts = false ∧
      ¬(ExactRate (cstring [3]) 4 k r ∧ r.2.interrupts = k.interrupts) := by
  have hinvalid : ¬ValidRate (i32 (word (cstring [3]) 0)) := by
    have hthree : i32 (word (cstring [3]) 0) = 3 := by
      rw [show word (cstring [3]) 0 = 3 by decide]
      exact i32_of_range (by norm_num) (by norm_num)
    rw [hthree]
    rintro ⟨j,hj,hj',h⟩
    interval_cases j <;> omega
  have hr := writeRtc_refused (staticStorage (fun _ => PCB.zero) fun _ => 0) hinvalid
  intro k r
  have hr' : r = (-1,{ k with interrupts := false }) := hr
  rw [hr']
  refine ⟨rfl,rfl,rfl,?_⟩
  rintro ⟨-,h⟩
  exact Bool.false_ne_true h

end GameOfThreads
