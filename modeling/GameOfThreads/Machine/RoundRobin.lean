import GameOfThreads.Machine.Run

/-! Turns on a ring. The places left before a turn are counted down by every tick, and a count
that nothing else raises brings a run to its goal. -/
namespace GameOfThreads.Machine

/-- The steps forward from place `i` to place `t` of a ring of `n`. -/
def gap (n i t : ℕ) : ℕ := if i ≤ t then t-i else n-i+t

section
variable {n i t : ℕ}

theorem gap_lt (hi : i < n) (ht : t < n) : gap n i t < n := by
  unfold gap
  split_ifs <;> omega

theorem gap_pos (hi : i < n) : 0 < gap n i t ↔ i ≠ t := by
  unfold gap
  split_ifs <;> omega

/-- One place on. -/
theorem gap_next (hi : i < n) (ht : t < n) (hne : i ≠ t) : gap n ((i+1) % n) t+1 = gap n i t := by
  by_cases hlast : i+1 = n
  · rw [hlast, Nat.mod_self]
    unfold gap
    split_ifs <;> omega
  · rw [Nat.mod_eq_of_lt (by omega)]
    unfold gap
    split_ifs <;> omega

end

namespace System
variable {σ α ο : Type*} {S : System σ α ο} {ok : σ → α → Prop} {I : σ → Prop}
  (goal : σ → Prop) (tick : α → Bool) (μ : σ → ℕ)

/-- Until the goal is reached a tick lowers the measure, and nothing raises it: as many ticks as
the measure says are enough. -/
theorem Along.reaches (keep : ∀ s a, I s → ok s a → I (S.next s a))
    (pos : ∀ s, I s → ¬goal s → 0 < μ s)
    (step : ∀ s a, I s → ok s a → ¬goal s →
      μ (S.next s a)+(if tick a then 1 else 0) ≤ μ s)
    {s : σ} (hs : I s) {l : List α} (hl : S.Along ok s l) (hticks : μ s ≤ l.countP tick) :
    ∃ p, p <+: l ∧ goal (S.run s p) := by
  induction l generalizing s with
  | nil =>
    refine ⟨[],List.prefix_rfl,?_⟩
    by_contra hgoal
    have hpos := pos s hs hgoal
    rw [List.countP_nil] at hticks
    omega
  | cons a l ih =>
    by_cases hgoal : goal s
    · exact ⟨[],List.nil_prefix,hgoal⟩
    obtain ⟨hok,hrest⟩ := hl
    have hfall := step s a hs hok hgoal
    have hleft : μ (S.next s a) ≤ l.countP tick := by
      rw [List.countP_cons] at hticks
      omega
    obtain ⟨p,hp,hreached⟩ := ih (keep s a hs hok) hrest hleft
    exact ⟨a :: p,List.cons_prefix_cons.mpr ⟨rfl,hp⟩,hreached⟩

end System
end GameOfThreads.Machine
