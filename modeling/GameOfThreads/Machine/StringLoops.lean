import GameOfThreads.Machine.Cursor
import GameOfThreads.Machine.Loop

/-! Loops over a string in a memory, up to its terminator: its length, its characters, and its
reversal in place from both ends. Each of them ends on every string that has a terminator. -/
namespace GameOfThreads.Machine

variable {β : Type*}

section
variable [DecidableEq β]

/-- One round of a loop that counts up to the terminator. -/
def lengthRound (mem : ℕ → β) (stop : β) (a len : ℕ) : ℕ ⊕ ℕ :=
  if mem (a+len) = stop then .inr len else .inl (len+1)

/-- One round of a loop that passes the characters on. -/
def passRound (mem : ℕ → β) (stop : β) (a : ℕ) (s : ℕ × List β) : (ℕ × List β) ⊕ List β :=
  if mem (a+s.1) = stop then .inr s.2 else .inl (s.1+1,s.2 ++ [mem (a+s.1)])

variable {mem : ℕ → β} {stop : β} {a fuel : ℕ} {s : List β}

/-- The length of a string is the number of its characters. -/
theorem loop_length (h : Stands mem a s stop) (hs : stop ∉ s) (hfuel : s.length < fuel) :
    loop (lengthRound mem stop a) fuel 0 = some s.length := by
  refine loop_ends (f := id) (fun i hi => ?_) ?_ hfuel
  · exact if_neg (h.ne_stop hs hi)
  · exact if_pos h.at_stop

/-- What is passed on is the string. -/
theorem loop_pass (h : Stands mem a s stop) (hs : stop ∉ s) (hfuel : s.length < fuel) :
    loop (passRound mem stop a) fuel (0,[]) = some s := by
  refine loop_ends (f := fun i => (i,s.take i)) (fun i hi => ?_) ?_ hfuel
  · rw [passRound, if_neg (h.ne_stop hs hi), h.at_index hi, List.take_append_getElem]
  · rw [passRound, if_pos h.at_stop, List.take_length]

end

/-! ### Reversal -/

/-- One round of a loop that swaps the characters at its two ends and moves both inwards. -/
def swapRound (a : ℕ) (s : ℤ × ℤ × (ℕ → β)) : (ℤ × ℤ × (ℕ → β)) ⊕ (ℕ → β) :=
  let mem := s.2.2
  if s.1 < s.2.1 then
    let beg := a+s.1.toNat
    let tail := a+s.2.1.toNat
    .inl (s.1+1,s.2.1-1,Function.update (Function.update mem tail (mem beg)) beg (mem tail))
  else .inr mem

section
variable {mem : ℕ → β} {stop : β} {a n fuel : ℕ} {s : List β}

/-- The memory after `b` swaps on `n` characters from `a` on. -/
structure Swapped (mem : ℕ → β) (a n b : ℕ) (mem' : ℕ → β) : Prop where
  ends : ∀ i < n, i < b ∨ n ≤ i+b → mem' (a+i) = mem (a+(n-1-i))
  middle : ∀ i < n, ¬(i < b ∨ n ≤ i+b) → mem' (a+i) = mem (a+i)
  outside : ∀ i, i < a ∨ a+n ≤ i → mem' i = mem i

theorem Swapped.start (mem : ℕ → β) (a n : ℕ) : Swapped mem a n 0 mem :=
  ⟨fun _ hi h => absurd h (by omega),fun _ _ _ => rfl,fun _ _ => rfl⟩

theorem Swapped.step {mem' : ℕ → β} {b : ℕ} (h : Swapped mem a n b mem') (hb : 2*b+1 < n) :
    Swapped mem a n (b+1) (Function.update (Function.update mem' (a+(n-1-b)) (mem' (a+b)))
      (a+b) (mem' (a+(n-1-b)))) := by
  have hbeg : mem' (a+b) = mem (a+b) := h.middle b (by omega) (by omega)
  have htail : mem' (a+(n-1-b)) = mem (a+(n-1-b)) := h.middle (n-1-b) (by omega) (by omega)
  refine ⟨fun i hi hswap => ?_,fun i hi hswap => ?_,fun i hi => ?_⟩
  · by_cases hib : i = b
    · rw [hib, Function.update_self, htail]
    rw [Function.update_of_ne (by omega)]
    by_cases hin : i = n-1-b
    · rw [hin, Function.update_self, hbeg]
      congr 1
      omega
    · rw [Function.update_of_ne (by omega)]
      exact h.ends i hi (by omega)
  · rw [Function.update_of_ne (by omega), Function.update_of_ne (by omega)]
    exact h.middle i hi (by omega)
  · rw [Function.update_of_ne (by omega), Function.update_of_ne (by omega)]
    exact h.outside i hi

/-- Where the swaps have met, the characters stand in the opposite order. -/
theorem Swapped.stands {mem' : ℕ → β} {b : ℕ} (h : Swapped mem a s.length b mem')
    (hb : s.length ≤ 2*b+1) (hs : Stands mem a s stop) : Stands mem' a s.reverse stop := by
  intro j hj
  rw [List.length_reverse] at hj
  obtain hlt | rfl : j < s.length ∨ j = s.length := by omega
  · have hbyte : mem' (a+j) = mem (a+(s.length-1-j)) := by
      by_cases hswap : j < b ∨ s.length ≤ j+b
      · exact h.ends j hlt hswap
      · rw [h.middle j hlt hswap]
        congr 1
        omega
    rw [hbyte, hs.at_index (by omega), List.getD_eq_getElem _ _ (by simpa using hlt),
      List.getElem_reverse]
  · rw [h.outside _ (by omega), hs.at_stop, List.getD_eq_default _ _ (by simp)]

/-- A string is reversed in place, and nothing else changes. -/
theorem loop_swap (h : Stands mem a s stop) (hfuel : s.length < fuel) :
    ∃ mem', loop (swapRound a) fuel (0,(s.length : ℤ)-1,mem) = some mem' ∧
      Stands mem' a s.reverse stop ∧ ∀ i, i < a ∨ a+s.length ≤ i → mem' i = mem i := by
  refine loop_rule (I := fun st : ℤ × ℤ × (ℕ → β) => ∃ b : ℕ, st.1 = b ∧
    st.2.1 = (s.length : ℤ)-1-b ∧ 2*b ≤ s.length ∧ Swapped mem a s.length b st.2.2)
    (fun st => (st.2.1-st.1+1).toNat) ?_ ?_ ⟨0,rfl,by simp,by omega,.start ..⟩ ?_
  · rintro ⟨beg,tail,mem'⟩ st ⟨b,hbeg,htail,hb,hswap⟩ hround
    simp only at hbeg htail hswap
    simp only [swapRound] at hround
    split_ifs at hround with hlt
    cases hround
    have hbeg' : beg.toNat = b := by omega
    have htail' : tail.toNat = s.length-1-b := by omega
    refine ⟨⟨b+1,?_,?_,?_,?_⟩,?_⟩
    · simp only
      omega
    · simp only
      omega
    · omega
    · simp only [hbeg', htail']
      exact hswap.step (by omega)
    · simp only
      omega
  · rintro ⟨beg,tail,mem'⟩ mem'' ⟨b,hbeg,htail,hb,hswap⟩ hround
    simp only at hbeg htail hswap
    simp only [swapRound] at hround
    split_ifs at hround with hlt
    cases hround
    exact ⟨hswap.stands (by omega) h,hswap.outside⟩
  · simp only
    omega

end
end GameOfThreads.Machine
