import GameOfThreads.Machine.Loop
import Mathlib.Logic.Function.Basic
import Mathlib.Tactic.Common

/-! Block routines in three phases: bytes until the destination is aligned, double words with the
counter divided by four, and the bytes that are left. A routine is given by what it does for a
byte and for a double word; what these do to data after `j` bytes it does for all of them. -/
namespace GameOfThreads.Machine

/-- The lines of a block routine. -/
inductive BlockLine
  | top
  | aligned
  | bottom

/-- A block routine on its way: its line, the two counters, and the data it works on. -/
structure Block (δ : Type*) where
  line : BlockLine
  ecx : ℕ
  edx : ℕ
  data : δ

section
variable {δ : Type*} (byte dword : δ → δ) (aligned : δ → Bool)

/-- A repeated string instruction. -/
def rep : (ecx : ℕ) → δ → δ
  | 0,d => d
  | ecx+1,d => rep ecx (dword d)

/-- From one label to the next. -/
def blockRound (b : Block δ) : Block δ ⊕ δ :=
  match b.line with
  | .top =>
    if b.ecx = 0 then .inr b.data
    else if aligned b.data then .inl { b with line := .aligned }
    else .inl { b with ecx := b.ecx-1, data := byte b.data }
  | .aligned =>
    .inl ⟨.bottom,0,b.ecx % 4,rep dword (b.ecx/4) b.data⟩
  | .bottom =>
    if b.edx = 0 then .inr b.data
    else .inl { b with edx := b.edx-1, data := byte b.data }

/-- The rounds that a block routine has left, at most. -/
def Block.left (b : Block δ) : ℕ :=
  match b.line with
  | .top => b.ecx+5
  | .aligned => 4
  | .bottom => b.edx

/-- After some bytes of `n` the counter of the phase has the others. -/
def Block.Counts (I : ℕ → δ → Prop) (n : ℕ) (b : Block δ) : Prop :=
  match b.line with
  | .bottom => b.edx < 4 ∧ ∃ j, j+b.edx = n ∧ I j b.data
  | _ => ∃ j, j+b.ecx = n ∧ I j b.data

variable {byte dword} {I : ℕ → δ → Prop} {n : ℕ}

theorem rep_rule (hdword : ∀ j d, j+4 ≤ n → I j d → I (j+4) (dword d)) (m : ℕ) {j : ℕ} {d : δ}
    (hj : j+4*m ≤ n) (h : I j d) : I (j+4*m) (rep dword m d) := by
  induction m generalizing j d with
  | zero => exact h
  | succ m ih =>
    have hrest := ih (j := j+4) (by omega) (hdword j d (by omega) h)
    rw [show j+4+4*m = j+4*(m+1) by omega] at hrest
    exact hrest

/-- A repeated instruction, counted one by one. -/
theorem rep_steps {step : δ → δ} (hstep : ∀ j d, j < n → I j d → I (j+1) (step d)) (m : ℕ) {j : ℕ}
    {d : δ} (hj : j+m ≤ n) (h : I j d) : I (j+m) (rep step m d) := by
  induction m generalizing j d with
  | zero => exact h
  | succ m ih =>
    have hrest := ih (j := j+1) (by omega) (hstep j d (by omega) h)
    rw [show j+1+m = j+(m+1) by omega] at hrest
    exact hrest

/-- A round that goes on keeps the count, and there are fewer rounds left. -/
theorem blockRound_again (hbyte : ∀ j d, j < n → I j d → I (j+1) (byte d))
    (hdword : ∀ j d, j+4 ≤ n → I j d → I (j+4) (dword d)) {b b' : Block δ} (hb : b.Counts I n)
    (hround : blockRound byte dword aligned b = .inl b') : b'.Counts I n ∧ b'.left < b.left := by
  obtain ⟨line,ecx,edx,d⟩ := b
  cases line with
  | top =>
    obtain ⟨j,hj,hI⟩ := hb
    simp only [blockRound] at hround
    simp only at hj hI
    split_ifs at hround with hzero haligned
    · cases hround
      exact ⟨⟨j,hj,hI⟩,by simp only [Block.left]; omega⟩
    · cases hround
      refine ⟨⟨j+1,?_,hbyte j d (by omega) hI⟩,?_⟩
      · simp only
        omega
      · simp only [Block.left]
        omega
  | aligned =>
    obtain ⟨j,hj,hI⟩ := hb
    simp only at hj hI
    cases hround
    refine ⟨⟨?_,j+4*(ecx/4),?_,rep_rule hdword (ecx/4) (by omega) hI⟩,?_⟩
    · simp only
      omega
    · simp only
      omega
    · simp only [Block.left]
      omega
  | bottom =>
    obtain ⟨hlt,j,hj,hI⟩ := hb
    simp only [blockRound] at hround
    simp only at hlt hj hI
    split_ifs at hround with hzero
    cases hround
    refine ⟨⟨?_,j+1,?_,hbyte j d (by omega) hI⟩,?_⟩
    · simp only
      omega
    · simp only
      omega
    · simp only [Block.left]
      omega

/-- Both exits are taken with all bytes counted. -/
theorem blockRound_leave {b : Block δ} {d : δ} (hb : b.Counts I n)
    (hround : blockRound byte dword aligned b = .inr d) : I n d := by
  obtain ⟨line,ecx,edx,d'⟩ := b
  cases line with
  | top =>
    obtain ⟨j,hj,hI⟩ := hb
    simp only [blockRound] at hround
    simp only at hj hI
    split_ifs at hround with hzero
    cases hround
    rwa [show j = n by omega] at hI
  | aligned => cases hround
  | bottom =>
    obtain ⟨-,j,hj,hI⟩ := hb
    simp only [blockRound] at hround
    simp only at hj hI
    split_ifs at hround with hzero
    cases hround
    rwa [show j = n by omega] at hI

/-- What holds after no byte, and is carried on by a byte and by a double word, holds when the
routine has ended, and the routine ends. -/
theorem block_rule (hbyte : ∀ j d, j < n → I j d → I (j+1) (byte d))
    (hdword : ∀ j d, j+4 ≤ n → I j d → I (j+4) (dword d)) {d : δ} (h : I 0 d) {fuel : ℕ}
    (hfuel : n+5 < fuel) :
    ∃ d', loop (blockRound byte dword aligned) fuel ⟨.top,n,0,d⟩ = some d' ∧ I n d' :=
  loop_rule (I := Block.Counts I n) Block.left
    (fun _ _ hb hround => blockRound_again aligned hbyte hdword hb hround)
    (fun _ _ hb hround => blockRound_leave aligned hb hround) ⟨0,Nat.zero_add n,h⟩ hfuel

end

/-! ### Bytes over a range of a 32-bit address space -/

def addressSpace : ℕ := 4294967296

/-- Four consecutive bytes in a 32-bit address space. -/
def store4 {β : Type*} (mem : ℕ → β) (a : ℕ) (b : ℕ → β) : ℕ → β :=
  Function.update (Function.update (Function.update (Function.update mem
    (a % addressSpace) (b 0)) ((a+1) % addressSpace) (b 1)) ((a+2) % addressSpace) (b 2))
    ((a+3) % addressSpace) (b 3)

section
variable {β : Type*} {mem₀ mem : ℕ → β} {s n : ℕ} {f b : ℕ → β}

/-- The memory is `mem₀` with the bytes `f 0`, `f 1`, … at the `n` addresses from `s` on. -/
structure Overlaid (mem₀ : ℕ → β) (s n : ℕ) (f : ℕ → β) (mem : ℕ → β) : Prop where
  inside : ∀ i < n, mem ((s+i) % addressSpace) = f i
  outside : ∀ a, (∀ i < n, a ≠ (s+i) % addressSpace) → mem a = mem₀ a

theorem Overlaid.start (mem₀ : ℕ → β) (s : ℕ) (f : ℕ → β) : Overlaid mem₀ s 0 f mem₀ :=
  ⟨fun _ h => absurd h (Nat.not_lt_zero _),fun _ _ => rfl⟩

theorem Overlaid.byte (h : Overlaid mem₀ s n f mem) (hn : n < addressSpace) {c : β}
    (hc : c = f n) :
    Overlaid mem₀ s (n+1) f (Function.update mem ((s+n) % addressSpace) c) := by
  have hne : ∀ i < n, (s+i) % addressSpace ≠ (s+n) % addressSpace := by
    intro i hi
    unfold addressSpace at *
    omega
  refine ⟨fun i hi => ?_,fun a ha => ?_⟩
  · obtain hlt | rfl : i < n ∨ i = n := by omega
    · rw [Function.update_of_ne (hne i hlt)]
      exact h.inside i hlt
    · rw [Function.update_self, hc]
  · rw [Function.update_of_ne (ha n (by omega))]
    exact h.outside a fun i hi => ha i (by omega)

/-- A byte in front. -/
theorem Overlaid.below (h : Overlaid mem₀ (s+1) n (fun i => f (i+1)) mem)
    (hn : n < addressSpace) {c : β} (hc : c = f 0) :
    Overlaid mem₀ s (n+1) f (Function.update mem (s % addressSpace) c) := by
  have hplace : ∀ i, s+1+i = s+(i+1) := fun i => by omega
  have hne : ∀ i < n, (s+(i+1)) % addressSpace ≠ s % addressSpace := by
    intro i hi
    unfold addressSpace at *
    omega
  refine ⟨fun i hi => ?_,fun a ha => ?_⟩
  · cases i with
    | zero => exact (Function.update_self ..).trans hc
    | succ i =>
      rw [Function.update_of_ne (hne i (by omega)), ← hplace]
      exact h.inside i (by omega)
  · have hfirst : a ≠ s % addressSpace := ha 0 (Nat.succ_pos n)
    rw [Function.update_of_ne hfirst]
    refine h.outside a fun i hi => ?_
    rw [hplace]
    exact ha (i+1) (by omega)

theorem Overlaid.dword (h : Overlaid mem₀ s n f mem) (hn : n+4 ≤ addressSpace)
    (hb : ∀ i < 4, b i = f (n+i)) : Overlaid mem₀ s (n+4) f (store4 mem (s+n) b) := by
  have h₁ := h.byte (by omega) (hb 0 (by omega))
  have h₂ := h₁.byte (by omega) (hb 1 (by omega))
  have h₃ := h₂.byte (by omega) (hb 2 (by omega))
  exact h₃.byte (by omega) (hb 3 (by omega))

end
end GameOfThreads.Machine
