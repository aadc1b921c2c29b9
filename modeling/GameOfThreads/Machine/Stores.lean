import Mathlib.Logic.Function.Basic

/-! Stores into a memory, one after the other: what they leave alone, and what they do to a part
of the memory. -/
namespace GameOfThreads.Machine
variable {α β γ δ : Type*} [DecidableEq α]

/-- The memory after a list of stores, oldest first. -/
def overwrite (stores : List (α × β)) (mem : α → β) : α → β :=
  stores.foldl (fun mem s => Function.update mem s.1 s.2) mem

@[simp] theorem overwrite_nil (mem : α → β) : overwrite [] mem = mem := rfl

@[simp] theorem overwrite_cons (s : α × β) (stores : List (α × β)) (mem : α → β) :
    overwrite (s :: stores) mem = overwrite stores (Function.update mem s.1 s.2) := rfl

theorem overwrite_append (l r : List (α × β)) (mem : α → β) :
    overwrite (l ++ r) mem = overwrite r (overwrite l mem) := by
  induction l generalizing mem with
  | nil => rfl
  | cons s l ih => exact ih _

/-- What no store hits stays. -/
theorem overwrite_of_notMem {stores : List (α × β)} {a : α} (h : ∀ s ∈ stores, s.1 ≠ a)
    (mem : α → β) : overwrite stores mem a = mem a := by
  induction stores generalizing mem with
  | nil => rfl
  | cons s stores ih =>
    rw [overwrite_cons, ih fun s' hs => h s' (List.mem_cons_of_mem _ hs)]
    exact Function.update_of_ne (h s List.mem_cons_self).symm _ _

/-- A part of the memory sees the stores that go to it, and no others. -/
theorem overwrite_part [DecidableEq γ] {e : γ → α} (he : Function.Injective e)
    {place : δ → α × β} {view : δ → Option (γ × β)} {stores : List δ}
    (hin : ∀ s ∈ stores, ∀ t, view s = some t → place s = (e t.1,t.2))
    (hout : ∀ s ∈ stores, view s = none → ∀ c, (place s).1 ≠ e c) (mem : α → β) :
    overwrite (stores.map place) mem ∘ e = overwrite (stores.filterMap view) (mem ∘ e) := by
  induction stores generalizing mem with
  | nil => rfl
  | cons s stores ih =>
    have hrest := ih (fun s' hs => hin s' (List.mem_cons_of_mem _ hs))
      fun s' hs => hout s' (List.mem_cons_of_mem _ hs)
    rw [List.map_cons, overwrite_cons, hrest, List.filterMap_cons]
    cases hview : view s with
    | none =>
      have hkeep : Function.update mem (place s).1 (place s).2 ∘ e = mem ∘ e :=
        funext fun c => Function.update_of_ne (hout s List.mem_cons_self hview c).symm _ _
      rw [hkeep]
    | some t =>
      rw [hin s List.mem_cons_self t hview, overwrite_cons,
        Function.update_comp_eq_of_injective _ he]

end GameOfThreads.Machine
