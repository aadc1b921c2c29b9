import GameOfThreads.Machine.BlockMove
import GameOfThreads.Machine.Word

/-! memset and memcpy, which store double words where they can. In every alignment and for every
length they come to the byte-wise fill and the byte-wise copy. -/
namespace GameOfThreads
open Machine

/-- The registers of the string instructions, and the memory. -/
structure StringState where
  eax : ℕ
  esi : ℕ
  edi : ℕ
  mem : ℕ → UInt8

namespace StringState

/-- A byte of EAX, the lowest first. -/
def accByte (m : StringState) (i : ℕ) : UInt8 := (m.eax/256^i % 256).toUInt8

/-- `movb %al, (%edi)` and the step of EDI. -/
def storeByte (m : StringState) : StringState :=
  { m with
    mem := Function.update m.mem m.edi (m.accByte 0)
    edi := (m.edi+1) % addressSpace }

/-- `stosl` -/
def stosl (m : StringState) : StringState :=
  { m with mem := store4 m.mem m.edi m.accByte, edi := (m.edi+4) % addressSpace }

/-- `movb (%esi), %al`, `movb %al, (%edi)` and the steps of both registers. -/
def copyByte (m : StringState) : StringState where
  eax := m.eax/256*256+(m.mem m.esi).toNat
  esi := (m.esi+1) % addressSpace
  edi := (m.edi+1) % addressSpace
  mem := Function.update m.mem m.edi (m.mem m.esi)

/-- `movsl` -/
def movsl (m : StringState) : StringState :=
  { m with
    mem := store4 m.mem m.edi fun i => m.mem ((m.esi+i) % addressSpace)
    esi := (m.esi+4) % addressSpace
    edi := (m.edi+4) % addressSpace }

/-- `testl $0x3, %edi` -/
def aligned (m : StringState) : Bool := m.edi % 4 = 0

end StringState

/-- The value that memset puts into EAX: one byte four times. -/
def fillWord (c : ℕ) : ℕ := c*16777216 ||| c*65536 ||| c*256 ||| c

/-- memset for a number of rounds: the pointer that it returns, and the memory. -/
def memset (fuel : ℕ) (mem : ℕ → UInt8) (s : UInt32) (c : ℤ) (n : UInt32) :
    Option (UInt32 × (ℕ → UInt8)) :=
  let start : StringState := ⟨fillWord (u8 c),0,s.toNat,mem⟩
  (loop (blockRound StringState.storeByte StringState.stosl StringState.aligned) fuel
    ⟨.top,n.toNat,0,start⟩).map fun m => (s,m.mem)

/-- memcpy for a number of rounds. -/
def memcpy (fuel : ℕ) (mem : ℕ → UInt8) (dest src n : UInt32) :
    Option (UInt32 × (ℕ → UInt8)) :=
  let start : StringState := ⟨0,src.toNat,dest.toNat,mem⟩
  (loop (blockRound StringState.copyByte StringState.movsl StringState.aligned) fuel
    ⟨.top,n.toNat,0,start⟩).map fun m => (dest,m.mem)

/-! ### memset -/

/-- All four bytes of EAX are the byte to set. -/
theorem fillWord_byte {c i : ℕ} (hc : c < 256) (hi : i < 4) : fillWord c/256^i % 256 = c := by
  have hall : ∀ c < 256, ∀ i < 4, fillWord c/256^i % 256 = c := by decide +kernel
  exact hall c hc i hi

/-- memset after `j` bytes. -/
structure Setting (mem : ℕ → UInt8) (s c j : ℕ) (m : StringState) : Prop where
  eax : m.eax = fillWord c
  edi : m.edi = (s+j) % addressSpace
  mem : Overlaid mem s j (fun _ => c.toUInt8) m.mem

section
variable {mem : ℕ → UInt8} {s c j : ℕ} {m : StringState}

theorem Setting.accByte (h : Setting mem s c j m) (hc : c < 256) {i : ℕ} (hi : i < 4) :
    m.accByte i = c.toUInt8 := by
  rw [StringState.accByte, h.eax, fillWord_byte hc hi]

theorem next_address (s j k : ℕ) :
    ((s+j) % addressSpace+k) % addressSpace = (s+(j+k)) % addressSpace := by
  unfold addressSpace
  omega

theorem store4_mod (mem : ℕ → UInt8) (a : ℕ) (b : ℕ → UInt8) :
    store4 mem (a % addressSpace) b = store4 mem a b := by
  unfold store4 addressSpace
  simp [Nat.add_mod]

theorem Setting.storeByte (h : Setting mem s c j m) (hc : c < 256) (hj : j < addressSpace) :
    Setting mem s c (j+1) m.storeByte := by
  refine ⟨h.eax,?_,?_⟩
  · rw [← next_address, ← h.edi]
    rfl
  · have hbyte := h.mem.byte hj (h.accByte hc (by omega : 0 < 4))
    rw [← h.edi] at hbyte
    exact hbyte

theorem Setting.stosl (h : Setting mem s c j m) (hc : c < 256) (hj : j+4 ≤ addressSpace) :
    Setting mem s c (j+4) m.stosl := by
  refine ⟨h.eax,?_,?_⟩
  · rw [← next_address, ← h.edi]
    rfl
  · have hdword := h.mem.dword hj fun i hi => h.accByte hc hi
    rw [← store4_mod, ← h.edi] at hdword
    exact hdword

end

theorem u8_lt (z : ℤ) : u8 z < 256 := by
  unfold u8
  omega

/-- memset ends, returns its pointer, and sets the bytes of its range and no others. -/
theorem memset_overlaid (mem : ℕ → UInt8) (s : UInt32) (c : ℤ) (n : UInt32) :
    ∃ mem', (∀ fuel > n.toNat+5, memset fuel mem s c n = some (s,mem')) ∧
      Overlaid mem s.toNat n.toNat (fun _ => (u8 c).toUInt8) mem' := by
  have hn : n.toNat < addressSpace := n.toNat_lt
  have hs : s.toNat % addressSpace = s.toNat := Nat.mod_eq_of_lt s.toNat_lt
  obtain ⟨m,hm,hset⟩ := block_rule StringState.aligned
    (I := Setting mem s.toNat (u8 c)) (n := n.toNat)
    (fun j m hj h => h.storeByte (u8_lt c) (by omega))
    (fun j m hj h => h.stosl (u8_lt c) (by omega))
    (d := ⟨fillWord (u8 c),0,s.toNat,mem⟩) ⟨rfl,hs.symm,.start ..⟩ (Nat.lt_succ_self _)
  refine ⟨m.mem,fun fuel hfuel => ?_,hset.mem⟩
  simp only [memset, loop_mono hm hfuel, Option.map_some]

/-! ### memcpy -/

/-- No byte of the source is one of the destination. -/
def RangesApart (dest src n : ℕ) : Prop :=
  ∀ i < n, ∀ j < n, (dest+i) % addressSpace ≠ (src+j) % addressSpace

/-- memcpy after `j` bytes. -/
structure Copying (mem : ℕ → UInt8) (dest src j : ℕ) (m : StringState) : Prop where
  esi : m.esi = (src+j) % addressSpace
  edi : m.edi = (dest+j) % addressSpace
  mem : Overlaid mem dest j (fun i => mem ((src+i) % addressSpace)) m.mem

section
variable {mem : ℕ → UInt8} {dest src n j : ℕ} {m : StringState}

/-- The source is as it was. -/
theorem Copying.source (h : Copying mem dest src j m) (hd : RangesApart dest src n) {k : ℕ}
    (hj : j ≤ n) (hk : k < n) : m.mem ((src+k) % addressSpace) = mem ((src+k) % addressSpace) :=
  h.mem.outside _ fun i hi => (hd i (by omega) k hk).symm

theorem Copying.copyByte (h : Copying mem dest src j m) (hd : RangesApart dest src n)
    (hn : n < addressSpace) (hj : j < n) : Copying mem dest src (j+1) m.copyByte := by
  refine ⟨?_,?_,?_⟩
  · rw [← next_address, ← h.esi]
    rfl
  · rw [← next_address, ← h.edi]
    rfl
  · have hread := h.source hd hj.le hj
    have hbyte := h.mem.byte (by omega) hread
    rw [← h.edi, ← h.esi] at hbyte
    exact hbyte

theorem Copying.movsl (h : Copying mem dest src j m) (hd : RangesApart dest src n)
    (hn : n < addressSpace) (hj : j+4 ≤ n) : Copying mem dest src (j+4) m.movsl := by
  refine ⟨?_,?_,?_⟩
  · rw [← next_address, ← h.esi]
    rfl
  · rw [← next_address, ← h.edi]
    rfl
  · have hread : ∀ i < 4, m.mem ((m.esi+i) % addressSpace) =
        mem ((src+(j+i)) % addressSpace) := by
      intro i hi
      rw [h.esi, next_address]
      exact h.source hd (by omega) (by omega)
    have hdword := h.mem.dword (by omega) hread
    rw [← store4_mod, ← h.edi] at hdword
    exact hdword

end

/-- memcpy ends, returns its pointer, and copies the bytes of its range and no others. -/
theorem memcpy_overlaid (mem : ℕ → UInt8) (dest src n : UInt32)
    (hd : RangesApart dest.toNat src.toNat n.toNat) :
    ∃ mem', (∀ fuel > n.toNat+5, memcpy fuel mem dest src n = some (dest,mem')) ∧
      Overlaid mem dest.toNat n.toNat (fun i => mem ((src.toNat+i) % addressSpace)) mem' := by
  have hn : n.toNat < addressSpace := n.toNat_lt
  have hdest : dest.toNat % addressSpace = dest.toNat := Nat.mod_eq_of_lt dest.toNat_lt
  have hsrc : src.toNat % addressSpace = src.toNat := Nat.mod_eq_of_lt src.toNat_lt
  obtain ⟨m,hm,hcopy⟩ := block_rule StringState.aligned
    (I := Copying mem dest.toNat src.toNat) (n := n.toNat)
    (fun j m hj h => h.copyByte hd hn hj) (fun j m hj h => h.movsl hd hn hj)
    (d := ⟨0,src.toNat,dest.toNat,mem⟩) ⟨hsrc.symm,hdest.symm,.start ..⟩ (Nat.lt_succ_self _)
  refine ⟨m.mem,fun fuel hfuel => ?_,hcopy.mem⟩
  simp only [memcpy, loop_mono hm hfuel, Option.map_some]

/-- Both routines equal their byte-wise meaning, memcpy for ranges that do not overlap. -/
theorem memory_routines_bytewise (mem : ℕ → UInt8) (s : UInt32) (c : ℤ) (n dest src len : UInt32)
    (hd : RangesApart dest.toNat src.toNat len.toNat) :
    (∃ mem', (∀ fuel > n.toNat+5, memset fuel mem s c n = some (s,mem')) ∧
      Overlaid mem s.toNat n.toNat (fun _ => (u8 c).toUInt8) mem') ∧
    (∃ mem', (∀ fuel > len.toNat+5, memcpy fuel mem dest src len = some (dest,mem')) ∧
      Overlaid mem dest.toNat len.toNat (fun i => mem ((src.toNat+i) % addressSpace)) mem') :=
  ⟨memset_overlaid mem s c n,memcpy_overlaid mem dest src len hd⟩

/-- Seven bytes from an odd address, and five from one that is aligned in another way. -/
theorem memory_routines_odd :
    (∃ mem', (∀ fuel > 12, memset fuel (fun _ => 0) 4097 (-1) 7 = some (4097,mem')) ∧
      Overlaid (fun _ => 0) 4097 7 (fun _ => 255) mem') ∧
    (∃ mem', (∀ fuel > 10, memcpy fuel (fun a => a.toUInt8) 8195 4098 5 = some (8195,mem')) ∧
      Overlaid (fun a => a.toUInt8) 8195 5 (fun i => ((4098+i) % addressSpace).toUInt8) mem') := by
  have hd : RangesApart (8195 : UInt32).toNat (4098 : UInt32).toNat (5 : UInt32).toNat := by
    have hall : ∀ i < 5, ∀ j < 5, (8195+i) % addressSpace ≠ (4098+j) % addressSpace := by
      decide +kernel
    exact hall
  exact ⟨(memory_routines_bytewise (fun _ => 0) 4097 (-1) 7 8195 4098 5 hd).1,
    (memory_routines_bytewise (fun a => a.toUInt8) 4097 (-1) 7 8195 4098 5 hd).2⟩

end GameOfThreads
