import Mathlib.Data.List.Basic
import GameOfThreads.Machine.Run

/-! A ring of `n` rows with a cursor. The rows keep the last `n` entries that were submitted, and
the cursor walks back through them and forth again. -/
namespace GameOfThreads.Machine
variable {α : Type*}

/-- The entries so far, the latest first, and how far back the cursor is. -/
structure Recall (α : Type*) where
  entries : List α
  depth : ℕ

inductive RecallOp (α : Type*)
  | submit (a : α)
  | back
  | forth

/-- The cursor goes back over the last `n` entries, and forth to where it started. -/
def recollect (n : ℕ) : System (Recall α) (RecallOp α) Unit where
  step s
    | .submit a => ((),⟨a :: s.entries,0⟩)
    | .back => ((),{ s with depth := min (s.depth+1) (min s.entries.length n) })
    | .forth => ((),{ s with depth := s.depth-1 })

/-- The ring: its rows, the row of the cursor, the depth of the cursor, the row to fill next,
and the number of rows in use. -/
structure HistoryRing (α : Type*) where
  row : ℕ → α
  ptr : ℕ
  chk : ℕ
  fill : ℕ
  cnt : ℕ

namespace HistoryRing

def submit (n : ℕ) (a : α) (r : HistoryRing α) : HistoryRing α where
  row := Function.update r.row r.fill a
  ptr := (r.fill+1) % n
  chk := 0
  fill := (r.fill+1) % n
  cnt := min (r.cnt+1) n

def back (r : HistoryRing α) : HistoryRing α :=
  if r.chk = r.cnt ∨ r.cnt = 0 then r
  else
    { r with
      ptr := if r.ptr = 0 then r.cnt-1 else if r.cnt ≤ r.ptr-1 then 0 else r.ptr-1
      chk := r.chk+1 }

def forth (r : HistoryRing α) : HistoryRing α :=
  if r.cnt = 0 ∨ r.chk = 0 then r
  else { r with ptr := if r.cnt ≤ r.ptr+1 then 0 else r.ptr+1, chk := r.chk-1 }

def next (n : ℕ) (r : HistoryRing α) : RecallOp α → HistoryRing α
  | .submit a => r.submit n a
  | .back => r.back
  | .forth => r.forth

@[simp] theorem back_row (r : HistoryRing α) : r.back.row = r.row := by
  unfold back
  split_ifs <;> rfl

@[simp] theorem back_cnt (r : HistoryRing α) : r.back.cnt = r.cnt := by
  unfold back
  split_ifs <;> rfl

@[simp] theorem forth_row (r : HistoryRing α) : r.forth.row = r.row := by
  unfold forth
  split_ifs <;> rfl

theorem back_chk {r : HistoryRing α} (h : r.chk < r.cnt) : r.back.chk = r.chk+1 := by
  have hstart : ¬(r.chk = r.cnt ∨ r.cnt = 0) := by omega
  rw [back, if_neg hstart]

/-- The row of the entry that is `j` before the latest. -/
def slot (n fill j : ℕ) : ℕ := if j < fill then fill-1-j else fill+n-1-j

/-- The entries in the ring, the latest first. -/
def kept (n : ℕ) (r : HistoryRing α) : List α :=
  (List.range r.cnt).map fun j => r.row (slot n r.fill j)

/-- The ring holds the last entries, with its cursor on the one at the depth. Where the depth is
0 there is none: the cursor is at the row to fill next, or at the first row of a ring that is
not full. -/
structure Holds (n : ℕ) (r : HistoryRing α) (s : Recall α) : Prop where
  cnt : r.cnt = min s.entries.length n
  chk : r.chk = s.depth
  depth : r.chk ≤ r.cnt
  fill : r.fill < n
  short : r.cnt < n → r.fill = r.cnt
  rows : ∀ j < r.cnt, s.entries[j]? = some (r.row (slot n r.fill j))
  cursor : r.chk ≠ 0 → r.ptr = slot n r.fill (r.chk-1)
  rest : r.chk = 0 → r.ptr = r.fill ∨ r.cnt < n ∧ r.ptr = 0

section
variable {n fill j : ℕ} {r : HistoryRing α} {s : Recall α}

/-- The rows in use are all different, and the one to fill next is the oldest of a full ring. -/
theorem slot_ne_fill (hj : j+1 < n) : slot n fill j ≠ fill := by
  unfold slot
  split_ifs <;> omega

theorem succ_mod (hfill : fill < n) : (fill+1) % n = if fill+1 = n then 0 else fill+1 := by
  split_ifs with h
  · rw [h, Nat.mod_self]
  · exact Nat.mod_eq_of_lt (by omega)

/-- A new entry comes before all others. -/
theorem slot_succ_zero (hfill : fill < n) : slot n ((fill+1) % n) 0 = fill := by
  rw [succ_mod hfill]
  unfold slot
  split_ifs <;> omega

theorem slot_succ (hfill : fill < n) (hj : j+1 < n) :
    slot n ((fill+1) % n) (j+1) = slot n fill j := by
  rw [succ_mod hfill]
  unfold slot
  split_ifs <;> omega

namespace Holds

/-- The cursor is on the entry at its depth. -/
theorem shown (h : r.Holds n s) (hdepth : s.depth ≠ 0) :
    s.entries[s.depth-1]? = some (r.row r.ptr) := by
  have hchk := h.chk
  have hle := h.depth
  rw [h.cursor (by omega), hchk]
  exact h.rows _ (by omega)

theorem kept (h : r.Holds n s) : r.kept n = s.entries.take n := by
  have hcnt := h.cnt
  apply List.ext_getElem?
  intro j
  by_cases hj : j < r.cnt
  · have hrow := h.rows j hj
    rw [List.getElem?_take_of_lt (by omega), hrow]
    simp [HistoryRing.kept, hj]
  · have hshort : (s.entries.take n).length ≤ j := by
      rw [List.length_take]
      omega
    rw [List.getElem?_eq_none hshort]
    simp [HistoryRing.kept, hj]

theorem submit (h : r.Holds n s) (a : α) : (r.submit n a).Holds n ⟨a :: s.entries,0⟩ where
  cnt := by
    have hcnt := h.cnt
    simp only [HistoryRing.submit, List.length_cons]
    omega
  chk := rfl
  depth := Nat.zero_le _
  fill := Nat.mod_lt _ (Nat.zero_lt_of_lt h.fill)
  short hshort := by
    have hfill := h.fill
    have hfull := h.short
    simp only [HistoryRing.submit] at hshort ⊢
    rw [succ_mod hfill]
    split_ifs
    · omega
    · omega
  rows j hj := by
    have hfill := h.fill
    have hcnt := h.cnt
    have hlt : j < n := Nat.lt_of_lt_of_le hj (Nat.min_le_right ..)
    have hold : j < r.cnt+1 := Nat.lt_of_lt_of_le hj (Nat.min_le_left ..)
    cases j with
    | zero =>
      simp only [HistoryRing.submit, slot_succ_zero hfill, Function.update_self]
      rfl
    | succ j =>
      have hne : slot n r.fill j ≠ r.fill := slot_ne_fill hlt
      simp only [HistoryRing.submit, slot_succ hfill hlt, Function.update_of_ne hne]
      exact h.rows j (by omega)
  cursor hchk := absurd rfl hchk
  rest _ := .inl rfl

theorem back (h : r.Holds n s) :
    r.back.Holds n { s with depth := min (s.depth+1) (min s.entries.length n) } := by
  have hcnt := h.cnt
  have hchk := h.chk
  have hdepth := h.depth
  have hfill := h.fill
  have hshort := h.short
  have hcursor := h.cursor
  have hrest := h.rest
  by_cases hend : r.chk = r.cnt ∨ r.cnt = 0
  · have hstay : min (s.depth+1) (min s.entries.length n) = s.depth := by omega
    rw [HistoryRing.back, if_pos hend, hstay]
    exact h
  · rw [HistoryRing.back, if_neg hend]
    refine ⟨hcnt,?_,?_,hfill,hshort,h.rows,?_,?_⟩
    · simp only
      omega
    · simp only
      omega
    · intro _
      simp only [Nat.add_sub_cancel]
      by_cases hzero : r.chk = 0
      · have hptr := hrest hzero
        rw [hzero]
        unfold slot
        split_ifs <;> omega
      · have hptr := hcursor hzero
        unfold slot at hptr ⊢
        split_ifs at hptr ⊢ <;> omega
    · exact fun hzero => absurd hzero (Nat.succ_ne_zero _)

theorem forth (h : r.Holds n s) : r.forth.Holds n { s with depth := s.depth-1 } := by
  have hcnt := h.cnt
  have hchk := h.chk
  have hdepth := h.depth
  have hfill := h.fill
  have hshort := h.short
  have hcursor := h.cursor
  by_cases hend : r.cnt = 0 ∨ r.chk = 0
  · have hstay : s.depth-1 = s.depth := by omega
    rw [HistoryRing.forth, if_pos hend, hstay]
    exact h
  · rw [HistoryRing.forth, if_neg hend]
    have hptr := hcursor (by omega)
    refine ⟨hcnt,?_,?_,hfill,hshort,h.rows,?_,?_⟩
    · simp only
      omega
    · simp only
      omega
    · intro hmore
      simp only at hmore ⊢
      unfold slot at hptr ⊢
      split_ifs at hptr ⊢ <;> omega
    · intro hzero
      simp only at hzero ⊢
      unfold slot at hptr
      split_ifs at hptr ⊢ <;> omega

/-- The ring refines the list of entries. -/
theorem step (h : r.Holds n s) (op : RecallOp α) :
    (r.next n op).Holds n ((recollect n).next s op) := by
  cases op with
  | submit a => exact h.submit a
  | back => exact h.back
  | forth => exact h.forth

/-- Back and forth again: to where the cursor was, but from depth 0 to a row of the ring. -/
theorem back_forth (h : r.Holds n s) (hback : r.chk < r.cnt) :
    r.back.forth.ptr = if r.chk = 0 then if r.cnt < n then 0 else r.fill else r.ptr := by
  have hstart : ¬(r.chk = r.cnt ∨ r.cnt = 0) := by omega
  have hfill := h.fill
  have hshort := h.short
  have hcnt := h.cnt
  have hend : ¬(r.cnt = 0 ∨ r.chk+1 = 0) := by omega
  have hback := h.back
  have hcursor := hback.cursor
  simp only [HistoryRing.back, if_neg hstart] at hcursor ⊢
  have hptr := hcursor (Nat.succ_ne_zero _)
  simp only [HistoryRing.forth, if_neg hend]
  rw [hptr, Nat.add_sub_cancel]
  by_cases hzero : r.chk = 0
  · rw [if_pos hzero, hzero]
    unfold slot
    split_ifs <;> omega
  · have hold := h.cursor hzero
    rw [if_neg hzero, hold]
    unfold slot
    split_ifs <;> omega

end Holds

theorem holds_empty {r : HistoryRing α} (hn : 0 < n) (hptr : r.ptr = 0) (hchk : r.chk = 0)
    (hfill : r.fill = 0) (hcnt : r.cnt = 0) : r.Holds n ⟨[],0⟩ := by
  refine ⟨?_,hchk,by omega,by omega,fun _ => by omega,?_,fun h => absurd hchk h,fun _ => ?_⟩
  · rw [hcnt]
    exact (Nat.zero_min n).symm
  · intro j hj
    omega
  · exact .inl (hptr.trans hfill.symm)

end
end HistoryRing
end GameOfThreads.Machine
