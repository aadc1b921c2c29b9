import GameOfThreads.State

/-! The real-time clock: its rate, and the flag of each terminal that an interrupt sets and
a reader clears. -/
namespace GameOfThreads
open Machine

/-- The loop that halves a frequency down to one, and fails at an odd value on the way. -/
def halvesToOne : (fuel : ℕ) → (temp : ℤ) → Bool
  | 0,_ => false
  | fuel+1,temp =>
    if temp = 1 then true
    else if temp.tmod 2 ≠ 0 then false
    else halvesToOne fuel (temp.tdiv 2)

/-- The loop that doubles a frequency up to 32768 and counts the steps in the rate. -/
def rateLoop : (fuel : ℕ) → (frequency : ℤ) → (rate : ℕ) → ℕ
  | 0,_,rate => rate
  | fuel+1,frequency,rate =>
    if frequency = 32768 then rate
    else rateLoop fuel (i32 (2*frequency)) ((rate+1) % 4294967296)

/-- Both loops end within the 32 bits of a frequency. -/
def writeRtc (buf : Option (ℕ → UInt8)) (nbytes : ℤ) (k : Kernel) : ℤ × Kernel :=
  match buf with
  | none => (-1,k)
  | some buf =>
    if nbytes ≠ 4 then (-1,k)
    else
      let k := { k with interrupts := false }
      let frequency := i32 (word buf 0)
      if frequency < 2 ∨ frequency > 1024 then (-1,k)
      else if !halvesToOne 32 frequency then (-1,k)
      else
        let rate := rateLoop 32 frequency 1
        let a := k.registerA/16*16
        (0,{ k with rate := rate, registerA := (rate ||| a) % 256, interrupts := true })

/-- Opening the clock sets it to 2 Hz. -/
def openRtc (k : Kernel) : ℤ × Kernel := (0,(writeRtc (some (cstring [2])) 4 k).2)

/-- One round of the waiting loop of read_rtc: `none` goes on waiting. -/
def readRtc (k : Kernel) : Option (ℤ × Kernel) :=
  if k.rtcFlag k.currentTerm = 0 then none
  else some (0,{ k with rtcFlag := Function.update k.rtcFlag k.currentTerm 0 })

def rtcInterrupt (k : Kernel) : Kernel :=
  { k with rtcFlag := fun t => if t < numTerm then 1 else k.rtcFlag t, interrupts := true }

/-- `k'` differs from `k` in the clock and the interrupt flag only. -/
structure ClockOnly (k k' : Kernel) : Prop where
  rest : k' = { k with
    rate := k'.rate, registerA := k'.registerA, rtcFlag := k'.rtcFlag
    interrupts := k'.interrupts }

theorem ClockOnly.refl (k : Kernel) : ClockOnly k k := ⟨rfl⟩

theorem writeRtc_clockOnly (buf : Option (ℕ → UInt8)) (nbytes : ℤ) (k : Kernel) :
    ClockOnly k (writeRtc buf nbytes k).2 := by
  cases buf with
  | none => exact .refl k
  | some buf =>
    simp only [writeRtc]
    generalize rateLoop _ _ _ = rate
    split_ifs <;> exact ⟨rfl⟩

theorem openRtc_clockOnly (k : Kernel) : ClockOnly k (openRtc k).2 := by
  simp only [openRtc]
  exact writeRtc_clockOnly _ _ k

end GameOfThreads
