import GameOfThreads.Machine.Run
import Mathlib.Data.Set.Operations

/-! Routines that can be interrupted. A routine goes from one access to the state to the next,
and others may change the state in between. What it does is told for every way of interrupting
it by assertions that the others keep, one for each place where it may stand. -/
namespace GameOfThreads.Machine

/-- What is left of a routine: its result, or an access and what follows on what it finds. -/
inductive Code (σ ρ : Type*)
  | done (r : ρ)
  | step (f : σ → σ) (next : σ → Code σ ρ)

namespace Code
variable {σ ρ α : Type*}

def load (g : σ → α) (next : α → Code σ ρ) : Code σ ρ := .step id fun s => next (g s)

def store (f : σ → σ) (next : Code σ ρ) : Code σ ρ := .step f fun _ => next

/-- A loop over a list. -/
def each (body : α → Code σ ρ → Code σ ρ) (l : List α) (next : Code σ ρ) : Code σ ρ :=
  l.foldr body next

/-- One access. -/
def advance : Code σ ρ → σ → Code σ ρ × σ
  | .done r,s => (.done r,s)
  | .step f next,s => (next s,f s)

/-- All accesses, one after the other. -/
def finish : Code σ ρ → σ → ρ × σ
  | .done r,s => (r,s)
  | .step f next,s => (next s).finish (f s)

/-- Two ways on, by whether the routine has ended. -/
def resolve {τ : Type*} (ended : ρ → τ) (goes : Code σ ρ → τ) : Code σ ρ → τ
  | .done r => ended r
  | .step f next => goes (.step f next)

/-! ### Without interruption -/

@[simp] theorem finish_done (r : ρ) (s : σ) : (done r : Code σ ρ).finish s = (r,s) := rfl

@[simp] theorem finish_load (g : σ → α) (next : α → Code σ ρ) (s : σ) :
    (load g next).finish s = (next (g s)).finish s := rfl

@[simp] theorem finish_store (f : σ → σ) (next : Code σ ρ) (s : σ) :
    (store f next).finish s = next.finish (f s) := rfl

/-- A loop whose rounds do `g` is a fold of `g`. -/
theorem finish_each {body : α → Code σ ρ → Code σ ρ} {g : σ → α → σ}
    (h : ∀ a next s, (body a next).finish s = next.finish (g s a)) (l : List α)
    (next : Code σ ρ) (s : σ) : (each body l next).finish s = next.finish (l.foldl g s) := by
  induction l generalizing s with
  | nil => rfl
  | cons a l ih => exact (h a _ s).trans (ih _)

/-- Enough accesses in a row make the whole routine, in any system that a routine is part of. -/
theorem exists_advances {τ β ο : Type*} {S : System τ β ο} {b : β} {part : Code σ ρ → σ → τ}
    {I : Code σ ρ → σ → Prop}
    (h : ∀ f next s, I (.step f next) s →
      S.next (part (.step f next) s) b = part (next s) (f s) ∧ I (next s) (f s))
    (c : Code σ ρ) (s : σ) (hI : I c s) :
    ∃ n, S.run (part c s) (List.replicate n b) = part (.done (c.finish s).1) (c.finish s).2 := by
  induction c generalizing s with
  | done r => exact ⟨0,rfl⟩
  | step f next ih =>
    obtain ⟨hnext,hI'⟩ := h f next s hI
    obtain ⟨n,hn⟩ := ih s (f s) hI'
    refine ⟨n+1,?_⟩
    rw [List.replicate_succ, System.run_cons, hnext]
    exact hn

/-! ### Between interruptions -/

/-- From `P` every access meets the guarantee `G` and leads to an assertion of `stable`, and the
last one to `Q`. -/
def Safe (stable : Set (σ → Prop)) (G : σ → σ → Prop) (Q : ρ → σ → Prop) :
    Code σ ρ → (σ → Prop) → Prop
  | .done r,P => ∀ s, P s → Q r s
  | .step f next,P => ∀ s, P s →
      G s (f s) ∧ ∃ P' ∈ stable, P' (f s) ∧ (next s).Safe stable G Q P'

section
variable {stable : Set (σ → Prop)} {G : σ → σ → Prop} {Q : ρ → σ → Prop} {P P' : σ → Prop}

theorem Safe.done {r : ρ} (h : ∀ s, P s → Q r s) : (done r).Safe stable G Q P := h

/-- What a load has found may sharpen the assertion. -/
theorem Safe.load (hG : ∀ s, G s s) {g : σ → α} {next : α → Code σ ρ}
    (h : ∀ s, P s → ∃ P' ∈ stable, P' s ∧ (next (g s)).Safe stable G Q P') :
    (load g next).Safe stable G Q P := fun s hs => ⟨hG s,h s hs⟩

theorem Safe.store {f : σ → σ} {next : Code σ ρ} (h : ∀ s, P s → G s (f s) ∧ P' (f s))
    (hP' : P' ∈ stable) (hnext : next.Safe stable G Q P') : (store f next).Safe stable G Q P := by
  intro s hs
  obtain ⟨hG,hs'⟩ := h s hs
  exact ⟨hG,P',hP',hs',hnext⟩

/-- The assertion of a loop is one that every round keeps. -/
theorem Safe.each {body : α → Code σ ρ → Code σ ρ} {l : List α}
    (h : ∀ a ∈ l, ∀ next, next.Safe stable G Q P → (body a next).Safe stable G Q P)
    {next : Code σ ρ} (hnext : next.Safe stable G Q P) :
    (each body l next).Safe stable G Q P := by
  induction l with
  | nil => exact hnext
  | cons a l ih =>
    exact h a List.mem_cons_self _ (ih fun b hb => h b (List.mem_cons_of_mem a hb))

/-- One access from an assertion that holds. -/
theorem Safe.advance {f : σ → σ} {next : σ → Code σ ρ} (h : (step f next).Safe stable G Q P)
    {s : σ} (hs : P s) : G s (f s) ∧ ∃ P' ∈ stable, P' (f s) ∧ (next s).Safe stable G Q P' :=
  h s hs

end

/-- What is left to be done, if anything is. -/
def rest : Code σ ρ → Option (Code σ ρ)
  | .done _ => none
  | c => some c

theorem rest_eq_some {c c' : Code σ ρ} (h : c.rest = some c') : c = c' := by
  cases c with
  | done r => cases h
  | step f next => exact Option.some.inj h

theorem rest_eq_none {c : Code σ ρ} (h : c.rest = none) : ∃ r, c = .done r := by
  cases c with
  | done r => exact ⟨r,rfl⟩
  | step f next => cases h

end Code

end GameOfThreads.Machine
