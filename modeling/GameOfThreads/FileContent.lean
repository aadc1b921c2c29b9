import GameOfThreads.FileSystem
import GameOfThreads.Machine.Reader

/-! What read_data reads. On an image whose regular files are in order a read delivers a
chunk of the file's content, the concatenation of its data blocks cut to its length. -/
namespace GameOfThreads
open Machine

theorem flatMap_blocks {α : Type*} (f : ℕ → ℕ → α) (n m : ℕ) :
    (List.range n).flatMap (fun i => (List.range m).map (f i)) =
      (List.range (n*m)).map fun i => f (i/m) (i % m) := by
  induction n with
  | zero => simp
  | succ n ih =>
    rw [List.range_succ, List.flatMap_append, ih, Nat.succ_mul, List.range_add, List.map_append]
    congr 1
    rw [List.flatMap_singleton, List.map_map]
    apply List.map_congr_left
    intro i hi
    have hi : i < m := List.mem_range.mp hi
    rw [Function.comp_apply, Nat.mul_comm n m, Nat.mul_add_div (by omega), Nat.mul_add_mod,
      Nat.div_eq_of_lt hi, Nat.mod_eq_of_lt hi, Nat.add_zero]

theorem readDentryByName_mem {fs : FileSystem} {fname : Option (List UInt8)} {d : Dentry}
    (h : fs.readDentryByName fname = some d) : ∃ i < numDir, d = fs.directory i := by
  cases fname with
  | none => simp [FileSystem.readDentryByName] at h
  | some fname =>
    simp only [FileSystem.readDentryByName] at h
    split_ifs at h
    obtain ⟨i,hi,rfl⟩ := Option.map_eq_some_iff.mp h
    exact ⟨i,List.mem_range.mp (List.mem_of_find?_eq_some hi),rfl⟩

namespace FileSystem
variable (fs : FileSystem)

/-- The 4096 bytes of a data block. -/
def block (b : ℤ) : List UInt8 := (List.range fourKB).map (fs.dataByte b)

/-- The number of blocks that a file has data in. -/
def blockCount (inode : ℕ) : ℕ := ((fs.inodeLength inode).toNat+(fourKB-1))/fourKB

/-- The first bytes, as many as the length says, of the concatenation of a file's blocks. -/
def content (inode : ℕ) : List UInt8 :=
  ((List.range (fs.blockCount inode)).flatMap fun k => fs.block (fs.dataBlockNum inode k)).take
    (fs.inodeLength inode).toNat

/-- An inode that a regular file may have. -/
structure Proper (inode : ℤ) : Prop where
  start : 0 ≤ inode
  limit : inode < fs.inodeCount
  length_nonneg : 0 ≤ fs.inodeLength inode.toNat
  length_le : fs.inodeLength inode.toNat ≤ datbSize*fourKB
  blocks : ∀ k < fs.blockCount inode.toNat,
    0 ≤ fs.dataBlockNum inode.toNat k ∧ fs.dataBlockNum inode.toNat k < fs.dataCount

/-- Every entry for a regular file has a proper inode. -/
def WellFormed : Prop :=
  ∀ i < numDir, (fs.directory i).filetype = 2 → fs.Proper (fs.directory i).inodeNum

theorem inodeCount_lt : fs.inodeCount < 2147483648 := by
  unfold inodeCount field
  apply i32_lt

theorem inodeLength_lt (inode : ℕ) : fs.inodeLength inode < 2147483648 := by
  unfold inodeLength field
  apply i32_lt

variable {fs}

theorem content_eq (inode : ℕ) :
    fs.content inode = (List.range (fs.inodeLength inode).toNat).map (fs.fileByte inode) := by
  have hcover : (fs.inodeLength inode).toNat ≤ fs.blockCount inode*fourKB := by
    unfold blockCount fourKB
    omega
  simp only [content, block]
  rw [flatMap_blocks fun k => fs.dataByte (fs.dataBlockNum inode k), ← List.map_take,
    List.take_range, Nat.min_eq_left hcover]
  rfl

theorem content_length (inode : ℕ) :
    (fs.content inode).length = (fs.inodeLength inode).toNat := by
  rw [content_eq, List.length_map, List.length_range]

theorem content_chunk (inode position n : ℕ) :
    chunk (fs.content inode) position n =
      (List.range' position (min n ((fs.content inode).length-position))).map
        (fs.fileByte inode) := by
  rw [content_length, content_eq, chunk, ← List.map_drop, ← List.map_take,
    List.range_eq_range', List.drop_range', List.take_eq_take_min, List.length_range',
    List.take_range'_of_length_ge (Nat.min_le_right ..)]
  simp

/-- The loop delivers the bytes from its offset on while the block numbers are in range. -/
theorem readLoop_eq (inode : ℕ) (length : ℕ) (offset : ℕ) {readcount : ℤ}
    (hblocks : ∀ i < offset+length, ¬fs.dataBlockNum inode (i/fourKB) > fs.dataCount)
    (hoffset : offset+length < 4294967296) (h₀ : 0 ≤ readcount)
    (hcount : readcount+length < 2147483648) :
    fs.readLoop inode length offset readcount =
      (readcount+length,(List.range' offset length).map (fs.fileByte inode)) := by
  induction length generalizing offset readcount with
  | zero => simp [readLoop]
  | succ length ih =>
    have hblock := hblocks offset (by omega)
    have hwrap : (offset+1) % 4294967296 = offset+1 := Nat.mod_eq_of_lt (by omega)
    have hi32 : i32 (readcount+1) = readcount+1 := i32_of_range (by omega) (by omega)
    have hcount' : readcount+1+length < 2147483648 := by
      push_cast at hcount
      omega
    have hrest := ih (offset+1) (fun i hi => hblocks i (by omega)) (by omega) (by omega) hcount'
    simp only [readLoop, if_neg hblock, hwrap, hi32, hrest, List.range'_succ, List.map_cons]
    refine Prod.ext ?_ rfl
    push_cast
    omega

namespace Proper
variable {inode : ℤ} (h : fs.Proper inode)
include h

theorem u32_inode : u32 inode = inode.toNat := by
  have hcount := fs.inodeCount_lt
  have hlimit := h.limit
  apply u32_eq_toNat h.start
  omega

theorem u32_length : u32 (fs.inodeLength inode.toNat) = (fs.content inode.toNat).length := by
  have hlength := fs.inodeLength_lt inode.toNat
  rw [content_length]
  apply u32_eq_toNat h.length_nonneg
  omega

theorem length_bound : (fs.content inode.toNat).length ≤ datbSize*fourKB := by
  have := h.length_le
  rw [content_length]
  omega

theorem block_ok {i : ℕ} (hi : i < (fs.content inode.toNat).length) :
    ¬fs.dataBlockNum inode.toNat (i/fourKB) > fs.dataCount := by
  rw [content_length] at hi
  have hk : i/fourKB < fs.blockCount inode.toNat := by
    unfold blockCount fourKB
    omega
  have := (h.blocks _ hk).2
  omega

theorem inode_ok : ¬inode.toNat ≥ u32 fs.inodeCount := by
  have hcount := fs.inodeCount_lt
  have hstart := h.start
  have hlimit := h.limit
  rw [u32_eq_toNat (by omega) (by omega)]
  omega

theorem length_ok : ¬(fs.inodeLength inode.toNat).tdiv fourKB > datbSize := by
  have h₀ := h.length_nonneg
  have h₁ := h.length_le
  rw [Int.tdiv_eq_ediv_of_nonneg h₀]
  unfold datbSize fourKB at *
  omega

/-- The loop delivers any part of the content. -/
theorem readLoop_content {position m : ℕ}
    (hm : position+m ≤ (fs.content inode.toNat).length) :
    fs.readLoop inode.toNat m position 0 =
      ((m : ℤ),(List.range' position m).map (fs.fileByte inode.toNat)) := by
  have hbound := h.length_bound
  unfold datbSize fourKB at hbound
  rw [readLoop_eq inode.toNat m position (fun i hi => h.block_ok (by omega)) (by omega) le_rfl
    (by omega), zero_add]

/-- A read within a proper file delivers a chunk of the content and answers its length. -/
theorem readData_eq {position n : ℕ} (hposition : position ≤ (fs.content inode.toNat).length)
    (hn : n < 2147483648) :
    fs.readData (u32 inode) position false n =
      (((chunk (fs.content inode.toNat) position n).length : ℤ),
        chunk (fs.content inode.toNat) position n) := by
  have hbound := h.length_bound
  have hchunk : chunk (fs.content inode.toNat) position n = _ :=
    content_chunk inode.toNat position n
  have hlength := h.u32_length
  have hinode : ¬(inode.toNat ≥ u32 fs.inodeCount ∨ false = true) := by
    simp [h.inode_ok]
  have hcut : u32 (fs.inodeLength inode.toNat-position) =
      (fs.content inode.toNat).length-position := by
    have hlt := fs.inodeLength_lt inode.toNat
    rw [content_length] at hposition ⊢
    exact u32_sub h.length_nonneg (hlt.trans (by decide)) hposition
  have hloop : ∀ m, position+m ≤ (fs.content inode.toNat).length → _ := fun m hm =>
    h.readLoop_content hm
  rw [h.u32_inode, readData, if_neg hinode]
  simp only [hlength, if_neg h.length_ok, hcut, hchunk, List.length_map, List.length_range']
  generalize (fs.content inode.toNat).length = length at *
  unfold datbSize fourKB at hbound
  have hwrap : (n+position) % 4294967296 = n+position := Nat.mod_eq_of_lt (by omega)
  rw [hwrap]
  by_cases hzero : n = 0
  · simp [hzero]
  rw [if_neg hzero, if_neg (by omega)]
  by_cases hend : position = length
  · simp [hend]
  rw [if_neg hend]
  split_ifs with hcross
  · rw [hloop _ (by omega), Nat.min_eq_right (by omega)]
  · rw [hloop _ (by omega), Nat.min_eq_left (by omega)]

end Proper
end FileSystem
end GameOfThreads
