import Mathlib.Data.List.Nodup
import Mathlib.Logic.Function.Iterate

/-! Stacks held in parent links. A node knows only its parent, a root is its own parent,
and a stack is what one finds on the way from its top node. The rules push, pop and clear
one of several disjoint stacks. -/
namespace GameOfThreads.Machine

/-- The nodes met from `a` along the parent links, up to a node that is its own parent. -/
inductive Linked {α : Type*} (parent : α → α) : α → List α → Prop
  | root {a} (h : parent a = a) : Linked parent a [a]
  | link {a l} (h : Linked parent (parent a) l) : Linked parent a (a :: l)

namespace Linked
variable {α : Type*} {parent parent' : α → α} {a b : α} {l : List α}

theorem ne_nil (h : Linked parent a l) : l ≠ [] := by cases h <;> simp

theorem top_mem (h : Linked parent a l) : a ∈ l := by cases h <;> simp

theorem eq_cons (h : Linked parent a (b :: l)) : b = a := by cases h <;> rfl

theorem congr (h : Linked parent a l) (hl : ∀ b ∈ l, parent' b = parent b) :
    Linked parent' a l := by
  induction h with
  | root h => exact .root ((hl _ (by simp)).trans h)
  | link h ih =>
    refine .link ?_
    rw [hl _ (by simp)]
    exact ih fun b hb => hl b (by simp [hb])

theorem pop (h : Linked parent a (a :: b :: l)) : parent a = b ∧ Linked parent b (b :: l) := by
  cases h with
  | link h =>
    have hb := h.eq_cons
    rw [← hb] at h
    exact ⟨hb.symm,h⟩

/-- The stack is listed by the iterates of the parent function. -/
theorem getElem (h : Linked parent a l) (i : ℕ) (hi : i < l.length) : l[i] = parent^[i] a := by
  induction h generalizing i with
  | root h =>
    have : i = 0 := by simpa using hi
    simp [this]
  | link h ih =>
    cases i with
    | zero => rfl
    | succ i => simpa using ih i (by simpa using hi)

theorem map_iterate (h : Linked parent a l) :
    (List.range l.length).map (fun i => parent^[i] a) = l := by
  apply List.ext_getElem (by simp)
  intro i hi hi'
  simp [h.getElem i hi']

/-- The walk ends in a root. -/
theorem parent_last (h : Linked parent a l) :
    parent (parent^[l.length-1] a) = parent^[l.length-1] a := by
  induction h with
  | root h => simpa using h
  | @link a l h ih =>
    obtain ⟨n,hn⟩ : ∃ n, l.length = n+1 :=
      Nat.exists_eq_succ_of_ne_zero (by simpa using h.ne_nil)
    simpa [hn] using ih

theorem parent_mem (h : Linked parent a l) (hb : b ∈ l) : parent b ∈ l := by
  induction h with
  | root h =>
    have hba := List.mem_singleton.mp hb
    simp [hba, h]
  | link h ih =>
    rcases List.mem_cons.mp hb with rfl | hb
    · exact List.mem_cons_of_mem _ h.top_mem
    · exact List.mem_cons_of_mem _ (ih hb)

/-- The walk never leaves the stack. -/
theorem iterate_mem (h : Linked parent a l) (i : ℕ) : parent^[i] a ∈ l := by
  induction i with
  | zero => exact h.top_mem
  | succ i ih =>
    rw [Function.iterate_succ_apply']
    exact h.parent_mem ih

end Linked

/-- A stack for each index, no two sharing a node. -/
structure Forest {ι α : Type*} (parent : α → α) (top : ι → α) (stack : ι → List α) : Prop where
  linked : ∀ i, stack i ≠ [] → Linked parent (top i) (stack i)
  nodup : ∀ i, (stack i).Nodup
  disjoint : ∀ i j, i ≠ j → (stack i).Disjoint (stack j)

namespace Forest
variable {ι α : Type*} {parent parent' : α → α} {top top' : ι → α} {stack : ι → List α}
  {i : ι} {a b : α} {l : List α}

theorem congr (h : Forest parent top stack)
    (hparent : ∀ i, ∀ a ∈ stack i, parent' a = parent a)
    (htop : ∀ i, stack i ≠ [] → top' i = top i) : Forest parent' top' stack where
  linked i hi := by
    rw [htop i hi]
    exact (h.linked i hi).congr (hparent i)
  nodup := h.nodup
  disjoint := h.disjoint

/-- The top of a stack belongs to no other one. -/
theorem top_injective (h : Forest parent top stack) {i j : ι} (hi : stack i ≠ [])
    (hj : stack j ≠ []) (ht : top i = top j) : i = j := by
  by_contra hij
  have hmem := (h.linked i hi).top_mem
  rw [ht] at hmem
  exact h.disjoint i j hij hmem (h.linked j hj).top_mem

theorem flatMap_nodup (h : Forest parent top stack) {is : List ι} (his : is.Nodup) :
    (is.flatMap stack).Nodup := by
  rw [List.nodup_flatMap]
  refine ⟨fun i _ => h.nodup i,his.imp fun {i j} hij => ?_⟩
  exact h.disjoint i j hij

variable [DecidableEq ι]

theorem disjoint_update (h : Forest parent top stack)
    (hl : ∀ b ∈ l, ∀ j, j ≠ i → b ∉ stack j) (j k : ι) (hjk : j ≠ k) :
    (Function.update stack i l j).Disjoint (Function.update stack i l k) := by
  intro b hj hk
  by_cases hji : j = i
  · subst hji
    rw [Function.update_self] at hj
    rw [Function.update_of_ne hjk.symm] at hk
    exact hl b hj k hjk.symm hk
  · rw [Function.update_of_ne hji] at hj
    by_cases hki : k = i
    · subst hki
      rw [Function.update_self] at hk
      exact hl b hk j hjk hj
    · rw [Function.update_of_ne hki] at hk
      exact h.disjoint j k hjk hj hk

/-- A fresh node on top of a stack, linked to the old top, or to itself as a root. -/
theorem push (h : Forest parent top stack) (hfresh : ∀ j, a ∉ stack j)
    (hparent : ∀ j, ∀ b ∈ stack j, parent' b = parent b)
    (ha : parent' a = if stack i = [] then a else top i) :
    Forest parent' (Function.update top i a) (Function.update stack i (a :: stack i)) where
  linked j hj := by
    by_cases hji : j = i
    · subst hji
      rw [Function.update_self, Function.update_self]
      by_cases hs : stack j = []
      · rw [if_pos hs] at ha
        rw [hs]
        exact .root ha
      · rw [if_neg hs] at ha
        refine .link ?_
        rw [ha]
        exact (h.linked j hs).congr (hparent j)
    · rw [Function.update_of_ne hji] at hj ⊢
      rw [Function.update_of_ne hji]
      exact (h.linked j hj).congr (hparent j)
  nodup j := by
    by_cases hji : j = i
    · subst hji
      rw [Function.update_self]
      exact List.nodup_cons.mpr ⟨hfresh j,h.nodup j⟩
    · rw [Function.update_of_ne hji]
      exact h.nodup j
  disjoint := h.disjoint_update fun b hb j hji => by
    cases hb with
    | head => exact hfresh j
    | tail _ hb => exact fun hj => h.disjoint i j hji.symm hb hj

/-- The top node gone, its parent comes to the top. -/
theorem pop (h : Forest parent top stack) (hi : stack i = a :: b :: l) :
    Forest parent (Function.update top i b) (Function.update stack i (b :: l)) where
  linked j hj := by
    by_cases hji : j = i
    · subst hji
      rw [Function.update_self, Function.update_self]
      have hlinked := h.linked j (by simp [hi])
      rw [hi] at hlinked
      rw [← hlinked.eq_cons] at hlinked
      exact hlinked.pop.2
    · rw [Function.update_of_ne hji] at hj ⊢
      rw [Function.update_of_ne hji]
      exact h.linked j hj
  nodup j := by
    by_cases hji : j = i
    · subst hji
      rw [Function.update_self]
      have hnodup := h.nodup j
      rw [hi] at hnodup
      exact hnodup.of_cons
    · rw [Function.update_of_ne hji]
      exact h.nodup j
  disjoint := h.disjoint_update fun c hc j hji hj =>
    h.disjoint i j hji.symm (by rw [hi]; exact List.mem_cons_of_mem _ hc) hj

/-- What stays on the stacks without the top node is none of it. -/
theorem mem_pop (h : Forest parent top stack) (hi : stack i = a :: l) {j : ι}
    (hb : b ∈ Function.update stack i l j) : b ∈ stack j ∧ b ≠ a := by
  by_cases hji : j = i
  · subst hji
    rw [Function.update_self] at hb
    have hnodup := h.nodup j
    rw [hi] at hnodup
    refine ⟨by simp [hi, hb],?_⟩
    rintro rfl
    exact (List.nodup_cons.mp hnodup).1 hb
  · rw [Function.update_of_ne hji] at hb
    refine ⟨hb,?_⟩
    rintro rfl
    exact h.disjoint j i hji hb (by simp [hi])

/-- A stack given up. -/
theorem clear (h : Forest parent top stack) (i : ι) :
    Forest parent top (Function.update stack i []) where
  linked j hj := by
    by_cases hji : j = i
    · subst hji
      simp at hj
    · rw [Function.update_of_ne hji] at hj ⊢
      exact h.linked j hj
  nodup j := by
    by_cases hji : j = i
    · subst hji
      simp
    · rw [Function.update_of_ne hji]
      exact h.nodup j
  disjoint := h.disjoint_update fun b hb => by simp at hb

end Forest
end GameOfThreads.Machine
