import Mathlib.Order.Basic

/-! Loops of a deterministic program. One round of the body leaves either a state to go round
with or a result. A loop is run for a number of rounds and gives nothing when they have run
out, so that what ends is told from what does not. -/
namespace GameOfThreads.Machine

section
variable {σ β : Type*} (body : σ → σ ⊕ β)

/-- The loop for at most `fuel` rounds. -/
def loop : (fuel : ℕ) → (s : σ) → Option β
  | 0,_ => none
  | fuel+1,s =>
    match body s with
    | .inl s' => loop fuel s'
    | .inr b => some b

variable {body} {s s' : σ} {b : β} {fuel : ℕ}

theorem loop_again (h : body s = .inl s') : loop body (fuel+1) s = loop body fuel s' := by
  simp [loop, h]

theorem loop_leave (h : body s = .inr b) : loop body (fuel+1) s = some b := by
  simp [loop, h]

/-- A loop that has ended gives the same result with more rounds. -/
theorem loop_mono (h : loop body fuel s = some b) {fuel' : ℕ} (hle : fuel ≤ fuel') :
    loop body fuel' s = some b := by
  induction fuel generalizing s fuel' with
  | zero => cases h
  | succ fuel ih =>
    obtain ⟨fuel',rfl⟩ : ∃ n, fuel' = n+1 := ⟨fuel'-1,by omega⟩
    cases hround : body s with
    | inl s' =>
      rw [loop_again hround] at h ⊢
      exact ih h (by omega)
    | inr c =>
      rw [loop_leave hround] at h ⊢
      exact h

/-- A loop goes through the states that are known to follow one another. -/
theorem loop_goes {f : ℕ → σ} {n : ℕ} (again : ∀ i < n, body (f i) = .inl (f (i+1)))
    (fuel : ℕ) : loop body (fuel+n) (f 0) = loop body fuel (f n) := by
  induction n generalizing fuel with
  | zero => rfl
  | succ n ih =>
    calc loop body (fuel+(n+1)) (f 0) = loop body (fuel+1+n) (f 0) := by
          rw [Nat.add_assoc, Nat.add_comm 1 n]
      _ = loop body (fuel+1) (f n) := ih (fun i hi => again i (by omega)) (fuel+1)
      _ = loop body fuel (f (n+1)) := loop_again (again n (Nat.lt_succ_self n))

/-- Where the last of them leaves, that is the result. -/
theorem loop_ends {f : ℕ → σ} {n : ℕ} (again : ∀ i < n, body (f i) = .inl (f (i+1)))
    (leave : body (f n) = .inr b) (hfuel : n < fuel) : loop body fuel (f 0) = some b := by
  obtain ⟨m,rfl⟩ : ∃ m, fuel = m+1+n := ⟨fuel-n-1,by omega⟩
  rw [loop_goes again]
  exact loop_leave leave

/-- Total correctness: a body that keeps the invariant and lowers the variant, or leaves with
what is wanted, ends within as many rounds as the variant counts. -/
theorem loop_rule {I : σ → Prop} {Q : β → Prop} (v : σ → ℕ)
    (again : ∀ s s', I s → body s = .inl s' → I s' ∧ v s' < v s)
    (leave : ∀ s b, I s → body s = .inr b → Q b) (hI : I s) (hfuel : v s < fuel) :
    ∃ b, loop body fuel s = some b ∧ Q b := by
  induction fuel generalizing s with
  | zero => omega
  | succ fuel ih =>
    cases hround : body s with
    | inl s' =>
      obtain ⟨hI',hv⟩ := again s s' hI hround
      rw [loop_again hround]
      exact ih hI' (by omega)
    | inr b => exact ⟨b,loop_leave hround,leave s b hI hround⟩

end
end GameOfThreads.Machine
