import Mathlib.Data.List.GetD
import Mathlib.Data.List.TakeWhile
import Mathlib.Logic.Function.Basic
import Mathlib.Tactic.Common

/-! Loops that move a cursor through a memory, up to a terminator, and copy what they pass into
a buffer. A loop is known by the list that stands in front of its cursor. -/
namespace GameOfThreads.Machine
variable {β : Type*}

/-- A loop that only moves the cursor. -/
def scanWhile (p : β → Bool) (f : ℕ → β) : (fuel i : ℕ) → ℕ
  | 0,i => i
  | fuel+1,i => if p (f i) then scanWhile p f fuel (i+1) else i

/-- A loop that copies to the start of a buffer: its stores, and where the cursor stops. -/
def copyWhile (p : β → Bool) (f : ℕ → β) (start : ℕ) : (fuel i : ℕ) → List (ℕ × β) × ℕ
  | 0,i => ([],i)
  | fuel+1,i =>
    if p (f i) then
      let r := copyWhile p f start fuel (i+1)
      ((i-start,f i) :: r.1,r.2)
    else ([],i)

/-- The stores of a list from index `n` on. -/
def storesFrom (n : ℕ) : List β → List (ℕ × β)
  | [] => []
  | b :: s => (n,b) :: storesFrom (n+1) s

/-- A buffer after some stores. -/
def written (g : ℕ → β) (stores : List (ℕ × β)) : ℕ → β :=
  stores.foldl (fun g s => Function.update g s.1 s.2) g

/-- The list stands in the memory from `i` on, with a terminator behind it. -/
def Stands (f : ℕ → β) (i : ℕ) (s : List β) (stop : β) : Prop :=
  ∀ j ≤ s.length, f (i+j) = s.getD j stop

section
variable {p : β → Bool} {f : ℕ → β} {i n : ℕ} {s r : List β} {b stop : β}

theorem Stands.head (h : Stands f i (b :: s) stop) : f i = b := h 0 (Nat.zero_le _)

theorem Stands.tail (h : Stands f i (b :: s) stop) : Stands f (i+1) s stop := by
  intro j hlength
  have hj := h (j+1) (Nat.succ_le_succ hlength)
  rw [List.getD_cons_succ] at hj
  rw [← hj, Nat.add_assoc, Nat.add_comm 1 j]

theorem Stands.nil (h : Stands f i [] stop) : f i = stop := h 0 le_rfl

theorem Stands.at_index (h : Stands f i s stop) {j : ℕ} (hj : j < s.length) : f (i+j) = s[j] := by
  rw [h j hj.le, List.getD_eq_getElem _ _ hj]

theorem Stands.ne_stop (h : Stands f i s stop) (hs : stop ∉ s) {j : ℕ} (hj : j < s.length) :
    f (i+j) ≠ stop := by
  rw [h.at_index hj]
  exact fun hstop => hs (hstop ▸ List.getElem_mem hj)

theorem Stands.at_stop (h : Stands f i s stop) : f (i+s.length) = stop := by
  rw [h _ le_rfl, List.getD_eq_default _ _ le_rfl]

/-- What is in front of the cursor when a loop has stopped. -/
theorem Stands.dropWhile (h : Stands f i s stop) :
    Stands f (i+(s.takeWhile p).length) (s.dropWhile p) stop := by
  induction s generalizing i with
  | nil => exact h
  | cons b s ih =>
    by_cases hmore : p b
    · rw [List.takeWhile_cons_of_pos hmore, List.dropWhile_cons_of_pos hmore, List.length_cons,
        Nat.add_comm (List.length _) 1, ← Nat.add_assoc]
      exact ih h.tail
    · rw [List.takeWhile_cons_of_neg hmore, List.dropWhile_cons_of_neg hmore]
      exact h

/-- A scan passes the longest part of the list that it goes through. -/
theorem scanWhile_eq (h : Stands f i s stop) (hstop : p stop = false) {fuel : ℕ}
    (hfuel : s.length < fuel) : scanWhile p f fuel i = i+(s.takeWhile p).length := by
  induction s generalizing i fuel with
  | nil =>
    obtain ⟨fuel,rfl⟩ := Nat.exists_eq_add_of_lt hfuel
    rw [scanWhile, h.nil, hstop]
    rfl
  | cons b s ih =>
    obtain ⟨fuel,rfl⟩ : ∃ n, fuel = n+1 := ⟨fuel-1,by omega⟩
    rw [List.length_cons, Nat.succ_lt_succ_iff] at hfuel
    rw [scanWhile, h.head]
    by_cases hmore : p b
    · rw [if_pos hmore, ih h.tail hfuel, List.takeWhile_cons_of_pos hmore, List.length_cons]
      omega
    · rw [if_neg hmore, List.takeWhile_cons_of_neg hmore]
      rfl

/-- A copying loop stores what it passes. -/
theorem copyWhile_eq (h : Stands f i s stop) (hstop : p stop = false) {start fuel : ℕ}
    (hstart : start ≤ i) (hfuel : s.length < fuel) :
    copyWhile p f start fuel i =
      (storesFrom (i-start) (s.takeWhile p),i+(s.takeWhile p).length) := by
  induction s generalizing i fuel with
  | nil =>
    obtain ⟨fuel,rfl⟩ := Nat.exists_eq_add_of_lt hfuel
    rw [copyWhile, h.nil, hstop]
    rfl
  | cons b s ih =>
    obtain ⟨fuel,rfl⟩ : ∃ n, fuel = n+1 := ⟨fuel-1,by omega⟩
    rw [List.length_cons, Nat.succ_lt_succ_iff] at hfuel
    rw [copyWhile, h.head]
    by_cases hmore : p b
    · have hrest := ih h.tail (by omega) hfuel
      have hindex : i+1-start = i-start+1 := by omega
      have hend : i+1+(s.takeWhile p).length = i+((s.takeWhile p).length+1) := by omega
      rw [if_pos hmore, hrest, List.takeWhile_cons_of_pos hmore, storesFrom, List.length_cons,
        hindex, hend]
    · rw [if_neg hmore, List.takeWhile_cons_of_neg hmore]
      rfl

/-- A list behind a part at which a loop stops makes no difference to the loop. -/
theorem takeWhile_append_stop (hr : ∀ c ∈ r.head?, p c = false) :
    (s ++ r).takeWhile p = s.takeWhile p := by
  induction s with
  | nil =>
    cases r with
    | nil => rfl
    | cons c r => exact List.takeWhile_cons_of_neg (by simp [hr c rfl])
  | cons b s ih =>
    rw [List.cons_append, List.takeWhile_cons, List.takeWhile_cons, ih]

theorem dropWhile_append_stop (hr : ∀ c ∈ r.head?, p c = false) :
    (s ++ r).dropWhile p = s.dropWhile p ++ r := by
  induction s with
  | nil =>
    cases r with
    | nil => rfl
    | cons c r => exact List.dropWhile_cons_of_neg (by simp [hr c rfl])
  | cons b s ih =>
    rw [List.cons_append, List.dropWhile_cons, List.dropWhile_cons, ih]
    split_ifs
    · rfl
    · rfl

theorem dropWhile_none (hr : ∀ c ∈ r.head?, p c = false) : r.dropWhile p = r :=
  dropWhile_append_stop (s := []) hr

theorem takeWhile_whole (hs : ∀ b ∈ s, p b) : s.takeWhile p = s :=
  List.takeWhile_eq_self_iff.mpr hs

theorem dropWhile_whole (hs : ∀ b ∈ s, p b) : s.dropWhile p = [] :=
  List.dropWhile_eq_nil_iff.mpr hs

theorem storesFrom_append (n : ℕ) (s r : List β) :
    storesFrom n (s ++ r) = storesFrom n s ++ storesFrom (n+s.length) r := by
  induction s generalizing n with
  | nil => rfl
  | cons b s ih =>
    rw [List.cons_append, storesFrom, ih, List.length_cons, storesFrom, List.cons_append]
    congr 3
    omega

/-- A copy with its terminator. -/
theorem copyWhile_terminated (h : Stands f i s stop) (hstop : p stop = false) {fuel : ℕ}
    (hfuel : s.length < fuel) (b : β) :
    (copyWhile p f i fuel i).1 ++ [((copyWhile p f i fuel i).2-i,b)] =
      storesFrom 0 (s.takeWhile p ++ [b]) := by
  rw [copyWhile_eq h hstop le_rfl hfuel, storesFrom_append, Nat.sub_self, Nat.add_sub_cancel_left,
    Nat.zero_add]
  rfl

theorem storesFrom_index (n : ℕ) (s : List β) :
    (storesFrom n s).map Prod.fst = List.range' n s.length := by
  induction s generalizing n with
  | nil => rfl
  | cons b s ih => rw [storesFrom, List.map_cons, ih, List.length_cons, List.range'_succ]

@[simp] theorem storesFrom_length (n : ℕ) (s : List β) : (storesFrom n s).length = s.length := by
  have hindex := congrArg List.length (storesFrom_index n s)
  rwa [List.length_map, List.length_range'] at hindex

theorem written_low (s : List β) {g : ℕ → β} (hi : i < n) :
    written g (storesFrom n s) i = g i := by
  induction s generalizing n g with
  | nil => rfl
  | cons b s ih =>
    have hrest := ih (n := n+1) (g := Function.update g n b) (by omega)
    exact hrest.trans (Function.update_of_ne (by omega) ..)

/-- A buffer holds what has been stored into it, and behind that what it held before. -/
theorem written_storesFrom (s : List β) (g : ℕ → β) (n j : ℕ) :
    written g (storesFrom n s) (n+j) = s.getD j (g (n+j)) := by
  induction s generalizing n j g with
  | nil => rfl
  | cons b s ih =>
    cases j with
    | zero =>
      have hrest := written_low s (g := Function.update g n b) (Nat.lt_succ_self n)
      exact hrest.trans (Function.update_self ..)
    | succ j =>
      have hrest := ih (Function.update g n b) (n+1) j
      have hne : n+1+j ≠ n := by omega
      rw [Function.update_of_ne hne, Nat.add_right_comm n 1 j, Nat.add_assoc] at hrest
      rw [List.getD_cons_succ]
      exact hrest

theorem written_outside (s : List β) (g : ℕ → β) {j : ℕ} (hj : j < n ∨ n+s.length ≤ j) :
    written g (storesFrom n s) j = g j := by
  rcases hj with hj | hj
  · exact written_low s hj
  · obtain ⟨i,rfl⟩ : ∃ i, j = n+i := ⟨j-n,by omega⟩
    rw [written_storesFrom, List.getD_eq_default _ _ (by omega)]

theorem written_snoc (g : ℕ → β) (stores : List (ℕ × β)) (i : ℕ) (b : β) :
    written g (stores ++ [(i,b)]) = Function.update (written g stores) i b := by
  simp [written]

/-- A buffer in which a string stands, with nothing else changed, is the buffer after its stores. -/
theorem eq_written {g : ℕ → β} (h : Stands f n s stop)
    (hout : ∀ j, j < n ∨ n+s.length < j → f j = g j) :
    f = written g (storesFrom n (s ++ [stop])) := by
  funext j
  by_cases hlow : j < n
  · rw [written_low _ hlow, hout j (.inl hlow)]
  obtain ⟨i,rfl⟩ : ∃ i, j = n+i := ⟨j-n,by omega⟩
  rw [written_storesFrom]
  obtain hlt | rfl | hgt : i < s.length ∨ i = s.length ∨ s.length < i := by omega
  · rw [h.at_index hlt, List.getD_append _ _ _ _ hlt, List.getD_eq_getElem _ _ hlt]
  · rw [h.at_stop, List.getD_append_right _ _ _ _ le_rfl, Nat.sub_self]
    rfl
  · have hlength : (s ++ [stop]).length ≤ i := by
      rw [List.length_append, List.length_singleton]
      omega
    rw [hout _ (.inr (by omega)), List.getD_eq_default _ _ hlength]

/-- A string stored with its terminator stands where it was stored. -/
theorem stands_written_from (s : List β) (stop : β) (g : ℕ → β) (n : ℕ) :
    Stands (written g (storesFrom n (s ++ [stop]))) n s stop := by
  intro j hj
  rw [written_storesFrom]
  obtain hlt | rfl : j < s.length ∨ j = s.length := by omega
  · rw [List.getD_append _ _ _ _ hlt, List.getD_eq_getElem _ _ hlt, List.getD_eq_getElem _ _ hlt]
  · rw [List.getD_append_right _ _ _ _ le_rfl, List.getD_eq_default _ _ le_rfl, Nat.sub_self]
    rfl

/-- From the start of a buffer. -/
theorem stands_written (s : List β) (stop : β) (g : ℕ → β) :
    Stands (written g (storesFrom 0 (s ++ [stop]))) 0 s stop := stands_written_from s stop g 0

end
end GameOfThreads.Machine
