import GameOfThreads.FileContent
import Mathlib.Data.List.TakeWhile

/-! read_data on any image: which bytes a call wants, when it turns back or stops at a block
number, and what it delivers. -/
namespace GameOfThreads
open Machine

namespace FileSystem
variable (fs : FileSystem)

/-- The number of the block holding a file position. -/
def blockAt (inode p : ℕ) : ℤ := fs.dataBlockNum inode (p/fourKB)

/-- The position that byte `i` of a call from `offset` on is read at. -/
def positionAt (offset i : ℕ) : ℕ := (offset+i) % 4294967296

/-- The bytes of a file at consecutive 32-bit positions. -/
def bytesFrom (inode offset n : ℕ) : List UInt8 :=
  ((List.range n).map (positionAt offset)).map (fs.fileByte inode)

/-- The guard of the loop lets a position pass. -/
def Passes (inode p : ℕ) : Prop := ¬fs.blockAt inode p > fs.dataCount

instance (inode p : ℕ) : Decidable (fs.Passes inode p) := inferInstanceAs (Decidable (¬_))

/-- The checks before the loop that send a call back, with an error or with nothing. -/
def TurnedAway (inode offset length : ℕ) : Prop :=
  inode ≥ u32 fs.inodeCount ∨ length = 0 ∨ offset ≥ u32 (fs.inodeLength inode) ∨
    (fs.inodeLength inode).tdiv fourKB > datbSize

instance (inode offset length : ℕ) : Decidable (fs.TurnedAway inode offset length) :=
  inferInstanceAs (Decidable (_ ∨ _ ∨ _ ∨ _))

/-- The checks before the loop that send a call back with an error. -/
def Rejected (inode offset length : ℕ) : Prop :=
  inode ≥ u32 fs.inodeCount ∨ length ≠ 0 ∧ (offset > u32 (fs.inodeLength inode) ∨
    offset ≠ u32 (fs.inodeLength inode) ∧ (fs.inodeLength inode).tdiv fourKB > datbSize)

/-- Byte `i` of a call is wanted: it is asked for and, unless the end of the call wraps, it
is below the unsigned length. -/
def Wanted (inode offset length i : ℕ) : Prop :=
  i < length ∧ (length+offset < 4294967296 → offset+i < u32 (fs.inodeLength inode))

/-- Some block number that the call comes to is above the number of blocks. -/
def Refused (inode offset length : ℕ) : Prop :=
  ∃ i, fs.Wanted inode offset length i ∧ ¬fs.Passes inode (positionAt offset i)

/-- The call copies 4294967295 bytes, a count that reads as the error value. -/
def CountWraps (inode offset length : ℕ) : Prop :=
  length = 4294967295 ∧ (offset = 0 → fs.inodeLength inode = -1)

/-- The call answers with the error value. -/
def Fails (inode offset length : ℕ) : Prop :=
  fs.Rejected inode offset length ∨ ¬fs.TurnedAway inode offset length ∧
    (fs.Refused inode offset length ∨ fs.CountWraps inode offset length)

/-- The number of rounds of the loop. -/
def rounds (inode offset length : ℕ) : ℕ :=
  if u32 (fs.inodeLength inode) < (length+offset) % 4294967296 then
    u32 (fs.inodeLength inode-offset)
  else length

variable {fs} {inode offset length : ℕ}

theorem positionAt_zero (h : offset < 4294967296) : positionAt offset 0 = offset :=
  Nat.mod_eq_of_lt h

theorem positionAt_succ (offset i : ℕ) :
    positionAt ((offset+1) % 4294967296) i = positionAt offset (i+1) := by
  unfold positionAt
  omega

theorem rounds_le (hoffset : offset ≤ u32 (fs.inodeLength inode)) (hlength : length < 4294967296) :
    fs.rounds inode offset length ≤ length := by
  unfold rounds u32 at *
  split_ifs <;> omega

/-- The loop takes a round for every wanted byte. -/
theorem lt_rounds_iff (hoffset : offset < u32 (fs.inodeLength inode))
    (hlength : length < 4294967296) (i : ℕ) :
    i < fs.rounds inode offset length ↔ fs.Wanted inode offset length i := by
  unfold rounds Wanted u32 at *
  split_ifs <;> omega

theorem readData_of_rejected (h : fs.Rejected inode offset length) :
    fs.readData inode offset false length = (-1,[]) := by
  unfold readData
  rcases h with h | ⟨hzero,h | ⟨hend,h⟩⟩
  · simp [h]
  · simp [hzero, h]
  · simp [hzero, hend, h]

theorem readData_of_turnedAway (h : fs.TurnedAway inode offset length)
    (hr : ¬fs.Rejected inode offset length) : fs.readData inode offset false length = (0,[]) := by
  simp only [Rejected, not_or, not_and] at hr
  obtain ⟨hinode,hr⟩ := hr
  unfold readData
  rw [if_neg (by simp [hinode])]
  by_cases hzero : length = 0
  · rw [if_pos hzero]
  rw [if_neg hzero, if_neg (hr hzero).1]
  by_cases hend : offset = u32 (fs.inodeLength inode)
  · rw [if_pos hend]
  have hlarge := (hr hzero).2 hend
  have hpast := (hr hzero).1
  unfold TurnedAway at h
  omega

theorem readData_eq_readLoop (h : ¬fs.TurnedAway inode offset length) :
    fs.readData inode offset false length =
      fs.readLoop inode (fs.rounds inode offset length) offset 0 := by
  simp only [TurnedAway, not_or] at h
  obtain ⟨hinode,hzero,hend,hlarge⟩ := h
  unfold readData
  rw [if_neg (by simp [hinode]), if_neg hzero, if_neg (by omega), if_neg (by omega), if_neg hlarge]
  rfl

theorem positions_succ (hoffset : offset < 4294967296) (n : ℕ) :
    (List.range (n+1)).map (positionAt offset) =
      offset :: (List.range n).map (positionAt ((offset+1) % 4294967296)) := by
  simp [List.range_succ_eq_map, positionAt_zero hoffset, positionAt_succ, Function.comp_def]

theorem passes_succ (hoffset : offset < 4294967296) (n : ℕ) :
    (∀ i < n+1, fs.Passes inode (positionAt offset i)) ↔ fs.Passes inode offset ∧
      ∀ i < n, fs.Passes inode (positionAt ((offset+1) % 4294967296) i) := by
  simp only [positionAt_succ]
  constructor
  · intro h
    constructor
    · simpa [positionAt_zero hoffset] using h 0 (by omega)
    · intro i hi
      exact h (i+1) (by omega)
  · rintro ⟨h₀,h⟩ i hi
    cases i with
    | zero => rwa [positionAt_zero hoffset]
    | succ i => exact h i (by omega)

/-- The whole loop: the bytes up to the first block number refused, and the count of rounds
where none is. -/
theorem readLoop_takeWhile (n : ℕ) (hoffset : offset < 4294967296) {readcount : ℤ}
    (hcount : i32 readcount = readcount) :
    fs.readLoop inode n offset readcount =
      (if ∀ i < n, fs.Passes inode (positionAt offset i) then i32 (readcount+n) else -1,
        (((List.range n).map (positionAt offset)).takeWhile fun p => fs.Passes inode p).map
          (fs.fileByte inode)) := by
  induction n generalizing offset readcount with
  | zero => simp [readLoop, hcount]
  | succ n ih =>
    have hnext := @ih ((offset+1) % 4294967296) (Nat.mod_lt _ (by decide)) (i32 (readcount+1))
      (i32_of_range (i32_ge _) (i32_lt _))
    have hcast : readcount+1+(n : ℤ) = readcount+(n+1 : ℕ) := by
      push_cast
      omega
    rw [readLoop, positions_succ hoffset, hnext, i32_i32_add, hcast]
    by_cases hpass : fs.Passes inode offset
    · have hguard : ¬fs.dataBlockNum inode (offset/fourKB) > fs.dataCount := hpass
      rw [if_neg hguard]
      simp only [passes_succ hoffset, List.takeWhile_cons, hpass, decide_true, true_and, if_true,
        List.map_cons]
      rfl
    · have hguard : fs.dataBlockNum inode (offset/fourKB) > fs.dataCount := not_not.mp hpass
      have hnot : ¬∀ i < n+1, fs.Passes inode (positionAt offset i) :=
        fun h => hpass ((passes_succ hoffset n).mp h).1
      rw [if_pos hguard, if_neg hnot, List.takeWhile_cons_of_neg (by simpa using hpass),
        List.map_nil]

theorem inodeLength_ge (inode : ℕ) : -2147483648 ≤ fs.inodeLength inode := by
  unfold inodeLength field
  apply i32_ge

theorem rounds_lt (hoffset : offset < u32 (fs.inodeLength inode)) (hlength : length < 4294967296) :
    fs.rounds inode offset length < 4294967296 :=
  (rounds_le hoffset.le hlength).trans_lt hlength

theorem rounds_wraps_iff (hoffset : offset < u32 (fs.inodeLength inode))
    (hlength : length < 4294967296) :
    i32 (fs.rounds inode offset length) = -1 ↔ fs.CountWraps inode offset length := by
  have hge := fs.inodeLength_ge inode
  have hlt := fs.inodeLength_lt inode
  have hcount : i32 (fs.rounds inode offset length) = -1 ↔
      fs.rounds inode offset length = 4294967295 := by
    have := rounds_lt hoffset hlength
    unfold i32
    split_ifs <;> omega
  rw [hcount]
  unfold rounds CountWraps u32 at *
  split_ifs <;> omega

theorem passes_iff (hoffset : offset < u32 (fs.inodeLength inode)) (hlength : length < 4294967296) :
    (∀ i < fs.rounds inode offset length, fs.Passes inode (positionAt offset i)) ↔
      ¬fs.Refused inode offset length := by
  simp only [lt_rounds_iff hoffset hlength, Refused, not_exists, not_and, not_not]

section
variable (h : ¬fs.TurnedAway inode offset length)
include h

theorem lt_inodeLength : offset < u32 (fs.inodeLength inode) := by
  unfold TurnedAway at h
  omega

theorem wanted_zero : fs.Wanted inode offset length 0 := by
  have hlt := lt_inodeLength h
  simp only [TurnedAway, not_or] at h
  exact ⟨by omega,fun _ => by omega⟩

theorem not_rejected : ¬fs.Rejected inode offset length := by
  have hlt := lt_inodeLength h
  unfold TurnedAway at h
  unfold Rejected
  omega

/-- The value and the bytes of a call that comes to the loop. -/
theorem readData_loop :
    fs.readData inode offset false length =
      (if ∀ i < fs.rounds inode offset length, fs.Passes inode (positionAt offset i) then
          i32 (fs.rounds inode offset length)
        else -1,
        (((List.range (fs.rounds inode offset length)).map (positionAt offset)).takeWhile
          fun p => fs.Passes inode p).map (fs.fileByte inode)) := by
  have hoffset := (lt_inodeLength h).trans (u32_lt _)
  rw [readData_eq_readLoop h, readLoop_takeWhile _ hoffset (i32_of_range (by decide) (by decide)),
    zero_add]

/-- Where no block number is refused every wanted byte is delivered. -/
theorem readData_full (hlength : length < 4294967296) (hr : ¬fs.Refused inode offset length) :
    fs.readData inode offset false length =
      (i32 (fs.rounds inode offset length),
        fs.bytesFrom inode offset (fs.rounds inode offset length)) := by
  have hpass := (passes_iff (lt_inodeLength h) hlength).mpr hr
  rw [readData_loop h, if_pos hpass, bytesFrom]
  congr 2
  rw [List.takeWhile_eq_self_iff]
  intro p hp
  obtain ⟨i,hi,rfl⟩ := List.mem_map.mp hp
  simpa using hpass i (List.mem_range.mp hi)

/-- Where one is refused the bytes before it are delivered. -/
theorem readData_refused (hlength : length < 4294967296) (hr : fs.Refused inode offset length) :
    fs.readData inode offset false length =
      (-1,(((List.range (fs.rounds inode offset length)).map (positionAt offset)).takeWhile
        fun p => fs.Passes inode p).map (fs.fileByte inode)) := by
  have hpass := mt (passes_iff (lt_inodeLength h) hlength).mp (not_not.mpr hr)
  rw [readData_loop h, if_neg hpass]

end

theorem fails_iff (hlength : length < 4294967296) :
    (fs.readData inode offset false length).1 = -1 ↔ fs.Fails inode offset length := by
  unfold Fails
  by_cases hr : fs.Rejected inode offset length
  · simp [readData_of_rejected hr, hr]
  by_cases h : fs.TurnedAway inode offset length
  · simp [readData_of_turnedAway h hr, hr, h]
  have hoffset := lt_inodeLength h
  simp only [hr, h, false_or, not_false_eq_true, true_and]
  by_cases hrefused : fs.Refused inode offset length
  · simp [readData_refused h hlength hrefused, hrefused]
  · simp [readData_full h hlength hrefused, hrefused, rounds_wraps_iff hoffset hlength]

/-- A call that does not fail answers the number of bytes that it delivers. -/
theorem readData_of_not_fails (hlength : length < 2147483648)
    (h : ¬fs.Fails inode offset length) :
    ∃ n : ℕ, fs.readData inode offset false length = ((n : ℤ),fs.bytesFrom inode offset n) := by
  simp only [Fails, not_or, not_and] at h
  obtain ⟨hr,h⟩ := h
  by_cases hturn : fs.TurnedAway inode offset length
  · exact ⟨0,readData_of_turnedAway hturn hr⟩
  have hle : fs.rounds inode offset length ≤ length :=
    rounds_le (lt_inodeLength hturn).le (by omega)
  refine ⟨fs.rounds inode offset length,?_⟩
  rw [readData_full hturn (by omega) (h hturn).1, i32_of_range (by omega) (by omega)]

/-- A call for more bytes fails where one for fewer does. -/
theorem Fails.mono {m n : ℕ} (h : fs.Fails inode offset m) (hm : m ≠ 0) (hmn : m ≤ n)
    (hn : n < 4294967296) : fs.Fails inode offset n := by
  have hn₀ : n ≠ 0 := by omega
  have hturn : fs.TurnedAway inode offset n ↔ fs.TurnedAway inode offset m := by
    simp [TurnedAway, hm, hn₀]
  obtain hr | ⟨ht,⟨i,⟨hi,hbelow⟩,hpass⟩ | ⟨hcount,hlength⟩⟩ := h
  · exact Or.inl (by simpa [Rejected, hm, hn₀] using hr)
  · refine Or.inr ⟨mt hturn.mp ht,Or.inl ⟨i,⟨by omega,?_⟩,hpass⟩⟩
    intro hwrap
    exact hbelow (by omega)
  · exact Or.inr ⟨mt hturn.mp ht,Or.inr ⟨by omega,hlength⟩⟩

theorem bytesFrom_zero (inode : ℕ) {n : ℕ} (hn : n < 4294967296) :
    fs.bytesFrom inode 0 n = (List.range n).map (fs.fileByte inode) := by
  rw [bytesFrom, List.map_map]
  apply List.map_congr_left
  intro i hi
  have hi := List.mem_range.mp hi
  rw [Function.comp_apply, positionAt, Nat.zero_add, Nat.mod_eq_of_lt (hi.trans hn)]

/-- What a call from the start of a file delivers when it does not fail. -/
theorem readData_from_start {n : ℕ} (hn : n < 2147483648) (h : ¬fs.Fails inode 0 n) :
    (fs.readData inode 0 false n).2 =
      (List.range (min n (u32 (fs.inodeLength inode)))).map (fs.fileByte inode) := by
  simp only [Fails, not_or, not_and] at h
  obtain ⟨hr,h⟩ := h
  by_cases ht : fs.TurnedAway inode 0 n
  · have hnone : min n (u32 (fs.inodeLength inode)) = 0 := by
      unfold TurnedAway at ht
      unfold Rejected at hr
      omega
    rw [readData_of_turnedAway ht hr, hnone]
    rfl
  · have hrounds : fs.rounds inode 0 n = min n (u32 (fs.inodeLength inode)) := by
      unfold rounds u32
      split_ifs <;> omega
    rw [readData_full ht (by omega) (h ht).1, hrounds]
    exact bytesFrom_zero inode (by omega)

/-- A call delivers no more bytes than it was asked for. -/
theorem readData_length_le (hlength : length < 4294967296) :
    (fs.readData inode offset false length).2.length ≤ length := by
  by_cases hr : fs.Rejected inode offset length
  · simp [readData_of_rejected hr]
  by_cases h : fs.TurnedAway inode offset length
  · simp [readData_of_turnedAway h hr]
  have hstored := (List.takeWhile_sublist
    (l := (List.range (fs.rounds inode offset length)).map (positionAt offset))
    fun p => decide (fs.Passes inode p)).length_le
  rw [List.length_map, List.length_range] at hstored
  rw [readData_loop h, List.length_map]
  exact hstored.trans (rounds_le (lt_inodeLength h).le hlength)

/-- A call stores nothing when the first block number that it comes to is refused. -/
theorem readData_first (h : ¬fs.TurnedAway inode offset length) (hlength : length < 4294967296) :
    if fs.Passes inode offset then (fs.readData inode offset false length).2 ≠ []
    else fs.readData inode offset false length = (-1,[]) := by
  have hoffset := (lt_inodeLength h).trans (u32_lt _)
  have hzero := (lt_rounds_iff (lt_inodeLength h) hlength 0).mpr (wanted_zero h)
  obtain ⟨n,hn⟩ := Nat.exists_eq_add_of_lt hzero
  rw [readData_loop h, hn, Nat.zero_add, positions_succ hoffset]
  split_ifs with hpass hall hall
  · simp [hpass]
  · simp [hpass]
  · exact absurd (by simpa [positionAt_zero hoffset] using hall 0 (by omega)) hpass
  · simp [hpass]

/-! ### On files that are in order -/

theorem Proper.readData_past {inode : ℕ} (h : fs.Proper inode)
    (hpast : fs.inodeLength inode < offset) :
    fs.readData inode offset false length = if length = 0 then (0,[]) else (-1,[]) := by
  have hcount : ¬(inode ≥ u32 fs.inodeCount ∨ false = true) := by simpa using h.inode_ok
  have hbeyond : offset > u32 (fs.inodeLength inode) := by
    have h₀ : 0 ≤ fs.inodeLength inode := h.length_nonneg
    have hlt := fs.inodeLength_lt inode
    unfold u32
    omega
  rw [readData, if_neg hcount, if_pos hbeyond]

/-- read_data delivers the bytes of the file from the offset on, as many as were asked for
and are left; past the end it answers an error. -/
theorem readData_slice {inode : ℕ} (h : fs.Proper inode) (offset : ℕ) {length : ℕ}
    (hlength : length < 2147483648) :
    ((offset : ℤ) ≤ fs.inodeLength inode →
      (fs.readData inode offset false length).1 = min (length : ℤ) (fs.inodeLength inode-offset) ∧
      ((fs.readData inode offset false length).2.length : ℤ) =
        min (length : ℤ) (fs.inodeLength inode-offset) ∧
      ∀ i : ℕ, (i : ℤ) < min (length : ℤ) (fs.inodeLength inode-offset) →
        (fs.readData inode offset false length).2[i]? =
          some (fs.dataByte (fs.dataBlockNum inode ((offset+i)/fourKB)) ((offset+i) % fourKB))) ∧
    (fs.inodeLength inode < offset →
      fs.readData inode offset false length = if length = 0 then (0,[]) else (-1,[])) := by
  constructor
  · intro hoffset
    have h₀ : 0 ≤ fs.inodeLength inode := h.length_nonneg
    have hwithin : offset ≤ (fs.content (inode : ℤ).toNat).length := by
      rw [content_length, Int.toNat_natCast]
      omega
    have hread := h.readData_eq hwithin hlength
    rw [h.u32_inode, content_chunk, content_length, Int.toNat_natCast] at hread
    have hcount : ((min length ((fs.inodeLength inode).toNat-offset) : ℕ) : ℤ) =
        min (length : ℤ) (fs.inodeLength inode-offset) := by
      omega
    rw [hread]
    refine ⟨?_,?_,?_⟩
    · simpa using hcount
    · simpa using hcount
    · intro i hi
      have hi : i < min length ((fs.inodeLength inode).toNat-offset) := by omega
      simp [List.getElem?_range' hi, fileByte]
  · exact h.readData_past

/-- A file of 4100 bytes, in blocks 1 and 0. -/
def twoBlockImage : FileSystem where
  mem a :=
    if a = 4 ∨ a = 4100 then 1
    else if a = 8 then 2
    else if a = 4096 then 4
    else if a = 4097 then 16
    else if a < 8192 then 0
    else (a/4096).toUInt8
  modStart := 0

theorem twoBlockImage_proper : twoBlockImage.Proper (0 : ℕ) where
  start := by decide
  limit := by decide +kernel
  length_nonneg := by decide +kernel
  length_le := by decide +kernel
  blocks := by decide +kernel

theorem readData_slice_twoBlocks :
    (twoBlockImage.readData 0 4094 false 10).1 =
        min ((10 : ℕ) : ℤ) (twoBlockImage.inodeLength 0-(4094 : ℕ)) ∧
      twoBlockImage.readData 0 4101 false 10 = (-1,[]) :=
  ⟨((readData_slice twoBlockImage_proper 4094 (by decide)).1 (by decide +kernel)).1,
    (readData_slice twoBlockImage_proper 4101 (by decide)).2 (by decide +kernel)⟩

end FileSystem
end GameOfThreads
