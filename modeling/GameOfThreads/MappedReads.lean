import GameOfThreads.ReadData

/-! read_data where memory is not mapped everywhere. The numbers of a malformed image lead to
any address: what a call looks up, dereferences and stores before it returns or faults, and
when all that lies inside the file and the data area. -/
namespace GameOfThreads
open Machine

/-- The addresses that can be accessed. The first page is none of them. -/
structure AddressMap where
  mapped : ℕ → Bool
  null : ∀ a < 4096, mapped a = false

/-- The four bytes of a field. -/
def AddressMap.Word (m : AddressMap) (a : ℤ) : Prop := ∀ i < 4, m.mapped (u32 (a+(i : ℕ))) = true

instance (m : AddressMap) (a : ℤ) : Decidable (m.Word a) :=
  inferInstanceAs (Decidable (∀ i < 4, _))

/-- What a call has done when it returns with a value, or faults: the file positions whose
slots it has looked up, whose blocks it has dereferenced, and whose bytes it has stored. -/
structure ReadRecord where
  value : Option ℤ
  slots : List ℕ
  blocks : List ℕ
  stored : List ℕ
  deriving DecidableEq

/-- A call that comes to no slot. -/
def ReadRecord.early (value : Option ℤ) : ReadRecord := ⟨value,[],[],[]⟩

namespace FileSystem
variable (fs : FileSystem) (m : AddressMap)

/-- The block number for a file position and the number of blocks can be loaded. -/
def Looks (inode p : ℕ) : Prop :=
  m.Word (fs.inodeAddr+fourKB*inode+4+4*(p/fourKB : ℕ)) ∧ m.Word (fs.modStart+8)

/-- The byte of a file position can be loaded. -/
def Loads (inode p : ℕ) : Prop :=
  m.mapped (u32 (fs.dataAddr+fourKB*fs.blockAt inode p+(p%fourKB : ℕ))) = true

instance (inode p : ℕ) : Decidable (fs.Looks m inode p) := inferInstanceAs (Decidable (_ ∧ _))

instance (inode p : ℕ) : Decidable (fs.Loads m inode p) := inferInstanceAs (Decidable (_ = _))

/-- The copy loop of read_data, access by access. -/
def readLoopIn (inode : ℕ) : (length offset buf : ℕ) → (readcount : ℤ) → ReadRecord
  | 0,_,_,readcount => .early (some readcount)
  | length+1,offset,buf,readcount =>
    if ¬fs.Looks m inode offset then ⟨none,[offset],[],[]⟩
    else if fs.dataBlockNum inode (offset/fourKB) > fs.dataCount then ⟨some (-1),[offset],[],[]⟩
    else if ¬(fs.Loads m inode offset ∧ m.mapped buf = true) then ⟨none,[offset],[offset],[]⟩
    else
      let rest := readLoopIn inode length ((offset+1) % 4294967296) ((buf+1) % 4294967296)
        (i32 (readcount+1))
      ⟨rest.value,offset :: rest.slots,offset :: rest.blocks,offset :: rest.stored⟩

def readDataIn (inode offset buf length : ℕ) : ReadRecord :=
  if ¬m.Word (fs.modStart+4) then .early none
  else if inode ≥ u32 fs.inodeCount ∨ buf = 0 then .early (some (-1))
  else if length = 0 then .early (some 0)
  else if ¬m.Word (fs.inodeAddr+fourKB*inode) then .early none
  else if offset > u32 (fs.inodeLength inode) then .early (some (-1))
  else if offset = u32 (fs.inodeLength inode) then .early (some 0)
  else if (fs.inodeLength inode).tdiv fourKB > datbSize then .early (some (-1))
  else fs.readLoopIn m inode (fs.rounds inode offset length) offset buf 0

/-- A call that ends before the loop. -/
def EndsEarly (inode offset buf length : ℕ) : Prop :=
  ¬m.Word (fs.modStart+4) ∨ buf = 0 ∨ ¬m.Word (fs.inodeAddr+fourKB*inode) ∨
    fs.TurnedAway inode offset length

/-- Round `i` of the loop goes through. -/
def Goes (inode offset buf i : ℕ) : Prop :=
  fs.Looks m inode (positionAt offset i) ∧ fs.Passes inode (positionAt offset i) ∧
    fs.Loads m inode (positionAt offset i) ∧ m.mapped (positionAt buf i) = true

/-- The loop comes to round `i`. -/
def Reached (inode offset buf i : ℕ) : Prop := ∀ j < i, fs.Goes m inode offset buf j

/-- How the loop of `n` rounds ends: after all of them, or in round `i` at the lookup, at a
block number that is refused, or at the copy of the byte. -/
inductive Ended (inode offset buf n : ℕ) (readcount : ℤ) : ReadRecord → Prop
  | all (h : fs.Reached m inode offset buf n) :
      Ended inode offset buf n readcount ⟨some (i32 (readcount+n)),
        (List.range n).map (positionAt offset),(List.range n).map (positionAt offset),
        (List.range n).map (positionAt offset)⟩
  | lookup {i : ℕ} (hi : i < n) (h : fs.Reached m inode offset buf i)
      (hlook : ¬fs.Looks m inode (positionAt offset i)) :
      Ended inode offset buf n readcount ⟨none,(List.range (i+1)).map (positionAt offset),
        (List.range i).map (positionAt offset),(List.range i).map (positionAt offset)⟩
  | refused {i : ℕ} (hi : i < n) (h : fs.Reached m inode offset buf i)
      (hlook : fs.Looks m inode (positionAt offset i))
      (hpass : ¬fs.Passes inode (positionAt offset i)) :
      Ended inode offset buf n readcount ⟨some (-1),(List.range (i+1)).map (positionAt offset),
        (List.range i).map (positionAt offset),(List.range i).map (positionAt offset)⟩
  | copy {i : ℕ} (hi : i < n) (h : fs.Reached m inode offset buf i)
      (hlook : fs.Looks m inode (positionAt offset i))
      (hpass : fs.Passes inode (positionAt offset i))
      (hcopy : ¬(fs.Loads m inode (positionAt offset i) ∧ m.mapped (positionAt buf i) = true)) :
      Ended inode offset buf n readcount ⟨none,(List.range (i+1)).map (positionAt offset),
        (List.range (i+1)).map (positionAt offset),(List.range i).map (positionAt offset)⟩

variable {fs m} {inode offset buf length : ℕ}

theorem goes_succ (i : ℕ) :
    fs.Goes m inode ((offset+1) % 4294967296) ((buf+1) % 4294967296) i ↔
      fs.Goes m inode offset buf (i+1) := by
  simp only [Goes, positionAt_succ]

theorem reached_succ (h : fs.Goes m inode offset buf 0) (i : ℕ) :
    fs.Reached m inode ((offset+1) % 4294967296) ((buf+1) % 4294967296) i →
      fs.Reached m inode offset buf (i+1) := by
  intro hreached j hj
  cases j with
  | zero => exact h
  | succ j => exact (goes_succ j).mp (hreached j (by omega))

/-- The loop, in one of its four ends. -/
theorem readLoopIn_ended (n : ℕ) (hoffset : offset < 4294967296) (hbuf : buf < 4294967296)
    {readcount : ℤ} (hcount : i32 readcount = readcount) :
    fs.Ended m inode offset buf n readcount
      (fs.readLoopIn m inode n offset buf readcount) := by
  induction n generalizing offset buf readcount with
  | zero =>
    have hnone : fs.Reached m inode offset buf 0 := fun _ h => absurd h (Nat.not_lt_zero _)
    have hall : fs.Ended m inode offset buf 0 readcount _ := .all hnone
    rw [Nat.cast_zero, add_zero, hcount] at hall
    exact hall
  | succ n ih =>
    have hzero : positionAt offset 0 = offset := positionAt_zero hoffset
    have hstart : positionAt buf 0 = buf := positionAt_zero hbuf
    have hnone : fs.Reached m inode offset buf 0 := fun _ h => absurd h (Nat.not_lt_zero _)
    rw [readLoopIn]
    by_cases hlook : fs.Looks m inode offset
    · rw [if_neg (not_not.mpr hlook)]
      by_cases hpass : fs.Passes inode offset
      · have hguard : ¬fs.dataBlockNum inode (offset/fourKB) > fs.dataCount := hpass
        rw [if_neg hguard]
        by_cases hcopy : fs.Loads m inode offset ∧ m.mapped buf = true
        · have hgoes : fs.Goes m inode offset buf 0 := by
            rw [Goes, hzero, hstart]
            exact ⟨hlook,hpass,hcopy⟩
          have hrest := ih (Nat.mod_lt (offset+1) (by decide)) (Nat.mod_lt (buf+1) (by decide))
            (i32_of_range (i32_ge (readcount+1)) (i32_lt (readcount+1)))
          rw [if_neg (not_not.mpr hcopy)]
          dsimp only
          generalize fs.readLoopIn m inode n ((offset+1) % 4294967296) ((buf+1) % 4294967296)
            (i32 (readcount+1)) = r at hrest ⊢
          cases hrest with
          | all h =>
            have hcast : readcount+1+(n : ℤ) = readcount+(n+1 : ℕ) := by
              push_cast
              omega
            rw [← positions_succ hoffset, i32_i32_add, hcast]
            exact .all (reached_succ hgoes n h)
          | lookup hi h hlook' =>
            rw [positionAt_succ] at hlook'
            rw [← positions_succ hoffset, ← positions_succ hoffset]
            exact .lookup (by omega) (reached_succ hgoes _ h) hlook'
          | refused hi h hlook' hpass' =>
            rw [positionAt_succ] at hlook' hpass'
            rw [← positions_succ hoffset, ← positions_succ hoffset]
            exact .refused (by omega) (reached_succ hgoes _ h) hlook' hpass'
          | copy hi h hlook' hpass' hcopy' =>
            rw [positionAt_succ] at hlook' hpass' hcopy'
            rw [positionAt_succ] at hcopy'
            rw [← positions_succ hoffset, ← positions_succ hoffset]
            exact .copy (by omega) (reached_succ hgoes _ h) hlook' hpass' hcopy'
        · rw [if_pos hcopy]
          have hend : fs.Ended m inode offset buf (n+1) readcount _ := .copy (Nat.succ_pos n) hnone
            (hzero.symm ▸ hlook) (hzero.symm ▸ hpass) (by rwa [hzero, hstart])
          simpa [hzero] using hend
      · have hguard : fs.dataBlockNum inode (offset/fourKB) > fs.dataCount := not_not.mp hpass
        rw [if_pos hguard]
        have hend : fs.Ended m inode offset buf (n+1) readcount _ := .refused (Nat.succ_pos n) hnone
          (hzero.symm ▸ hlook) (hzero.symm ▸ hpass)
        simpa [hzero] using hend
    · rw [if_pos hlook]
      have hend : fs.Ended m inode offset buf (n+1) readcount _ := .lookup (Nat.succ_pos n) hnone
        (hzero.symm ▸ hlook)
      simpa [hzero] using hend

/-- A loop that does not fault does what it does with every address mapped. -/
theorem readLoopIn_value (n : ℕ) {readcount v : ℤ}
    (h : (fs.readLoopIn m inode n offset buf readcount).value = some v) :
    fs.readLoop inode n offset readcount =
      (v,(fs.readLoopIn m inode n offset buf readcount).stored.map (fs.fileByte inode)) := by
  induction n generalizing offset buf readcount with
  | zero =>
    obtain rfl := Option.some.inj h
    rfl
  | succ n ih =>
    rw [readLoop]
    by_cases hpass : fs.dataBlockNum inode (offset/fourKB) > fs.dataCount
    · rw [if_pos hpass]
      rw [readLoopIn, if_pos hpass] at h ⊢
      split_ifs at h ⊢
      obtain rfl := Option.some.inj h
      rfl
    · rw [if_neg hpass]
      rw [readLoopIn, if_neg hpass] at h ⊢
      split_ifs at h ⊢
      rw [ih h]
      rfl

theorem readDataIn_loop (h : ¬fs.EndsEarly m inode offset buf length) :
    fs.readDataIn m inode offset buf length =
      fs.readLoopIn m inode (fs.rounds inode offset length) offset buf 0 := by
  simp only [EndsEarly, TurnedAway, not_or] at h
  obtain ⟨hcount,hbuf,hnode,hinode,hzero,hend,hlarge⟩ := h
  unfold readDataIn
  rw [if_neg hcount, if_neg (not_or.mpr ⟨hinode,hbuf⟩), if_neg hzero, if_neg hnode,
    if_neg (by omega), if_neg (by omega), if_neg hlarge]

/-- So does a whole call. -/
theorem readDataIn_value {v : ℤ} (hbuf : buf ≠ 0)
    (h : (fs.readDataIn m inode offset buf length).value = some v) :
    fs.readData inode offset false length =
      (v,(fs.readDataIn m inode offset buf length).stored.map (fs.fileByte inode)) := by
  by_cases hearly : fs.EndsEarly m inode offset buf length
  · unfold readDataIn at h ⊢
    unfold readData
    by_cases hcount : m.Word (fs.modStart+4)
    · by_cases hnode : m.Word (fs.inodeAddr+fourKB*inode)
      · simp only [hcount, hnode, not_true_eq_false, if_false, Bool.false_eq_true, or_false,
          hbuf] at h ⊢
        unfold EndsEarly TurnedAway at hearly
        simp only [hcount, hnode, not_true_eq_false, false_or, hbuf] at hearly
        split_ifs at h ⊢ with hinode hzero hpast hend hlarge
        all_goals first
          | (obtain rfl := Option.some.inj h; rfl)
          | omega
      · simp only [hcount, hnode, not_true_eq_false, not_false_eq_true, if_false, if_true,
          Bool.false_eq_true, or_false, hbuf] at h ⊢
        split_ifs at h ⊢
        all_goals first
          | (obtain rfl := Option.some.inj h; rfl)
          | cases h
    · rw [if_pos hcount] at h
      cases h
  · have hturn : ¬fs.TurnedAway inode offset length := fun h => hearly (.inr (.inr (.inr h)))
    rw [readDataIn_loop hearly] at h ⊢
    rw [readData_eq_readLoop hturn, readLoopIn_value _ h]

/-- Whatever a call loads from the image is mapped. -/
structure Fetches (fs : FileSystem) (m : AddressMap) (inode offset buf length : ℕ) : Prop where
  count : m.Word (fs.modStart+4)
  node : inode < u32 fs.inodeCount → m.Word (fs.inodeAddr+fourKB*inode)
  data : ¬fs.TurnedAway inode offset length → ∀ i < fs.rounds inode offset length,
    fs.Reached m inode offset buf i → fs.Looks m inode (positionAt offset i) ∧
      (fs.Passes inode (positionAt offset i) → fs.Loads m inode (positionAt offset i))

/-- With its buffer mapped as well such a call does not fault. -/
theorem Fetches.value_isSome (h : fs.Fetches m inode offset buf length)
    (hoffset : offset < 4294967296) (hbuf : buf < 4294967296)
    (hmapped : ¬fs.TurnedAway inode offset length → ∀ i < fs.rounds inode offset length,
      m.mapped (positionAt buf i) = true) :
    (fs.readDataIn m inode offset buf length).value.isSome := by
  by_cases hearly : fs.EndsEarly m inode offset buf length
  · unfold readDataIn
    unfold EndsEarly TurnedAway at hearly
    rw [if_neg (not_not.mpr h.count)]
    by_cases hinode : inode ≥ u32 fs.inodeCount ∨ buf = 0
    · rw [if_pos hinode]
      rfl
    have hnode := h.node (Nat.lt_of_not_le fun hge => hinode (.inl hge))
    rw [if_neg hinode, if_neg (not_not.mpr hnode)]
    simp only [h.count, hnode, not_true_eq_false, false_or] at hearly
    split_ifs
    · rfl
    · rfl
    · rfl
    · rfl
    · omega
  · have hturn : ¬fs.TurnedAway inode offset length := fun h => hearly (.inr (.inr (.inr h)))
    rw [readDataIn_loop hearly]
    have hended : fs.Ended m inode offset buf (fs.rounds inode offset length) 0
        (fs.readLoopIn m inode (fs.rounds inode offset length) offset buf 0) :=
      readLoopIn_ended _ hoffset hbuf (i32_of_range (by decide) (by decide))
    generalize fs.readLoopIn m inode (fs.rounds inode offset length) offset buf 0 = r at hended ⊢
    cases hended with
    | all _ => rfl
    | lookup hi hreached hlook => exact absurd (h.data hturn _ hi hreached).1 hlook
    | refused _ _ _ _ => rfl
    | copy hi hreached _ hpass hcopy =>
      exact absurd ⟨(h.data hturn _ hi hreached).2 hpass,hmapped hturn _ hi⟩ hcopy

/-! ### What the ends have in common -/

section
variable {n : ℕ} {r : ReadRecord} (h : fs.Ended m inode offset buf n 0 r)
include h

end

/-! ### Safety -/

end FileSystem
end GameOfThreads
