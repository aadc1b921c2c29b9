import GameOfThreads.Machine.Memory
import GameOfThreads.MemoryRoutines

/-! memmove, which goes downwards where that keeps the source from being overwritten, the fills by
words and by double words, and strncpy. -/
namespace GameOfThreads
open Machine

/-- The registers of a repeated move, the direction flag, and the memory. -/
structure MoveState where
  esi : ℕ
  edi : ℕ
  down : Bool
  mem : ℕ → UInt8

/-- A register one on, in the direction that the flag says. -/
def MoveState.advance (m : MoveState) (a : ℕ) : ℕ :=
  (a+if m.down then addressSpace-1 else 1) % addressSpace

/-- `movsb` -/
def MoveState.movsb (m : MoveState) : MoveState :=
  { m with
    mem := Function.update m.mem m.edi (m.mem m.esi)
    esi := m.advance m.esi
    edi := m.advance m.edi }

/-- The pointer that memmove returns, and what it leaves. -/
def memmove (mem : ℕ → UInt8) (dest src n : UInt32) : UInt32 × MoveState :=
  let start : MoveState :=
    if src.toNat ≥ dest.toNat then ⟨src.toNat,dest.toNat,false,mem⟩
    else
      { esi := (src.toNat+n.toNat+(addressSpace-1)) % addressSpace
        edi := (dest.toNat+n.toNat+(addressSpace-1)) % addressSpace
        down := true
        mem := mem }
  (dest,rep MoveState.movsb n.toNat start)

/-! ### memmove -/

/-- Going upwards, after `j` bytes. -/
structure MovedUp (mem : ℕ → UInt8) (dest src j : ℕ) (m : MoveState) : Prop where
  up : m.down = false
  esi : m.esi = (src+j) % addressSpace
  edi : m.edi = (dest+j) % addressSpace
  mem : Overlaid mem dest j (fun i => mem (src+i)) m.mem

/-- Going downwards, after `j` bytes of `n`. -/
structure MovedDown (mem : ℕ → UInt8) (dest src n j : ℕ) (m : MoveState) : Prop where
  down : m.down = true
  esi : m.esi = (src+(n-j)+(addressSpace-1)) % addressSpace
  edi : m.edi = (dest+(n-j)+(addressSpace-1)) % addressSpace
  mem : Overlaid mem (dest+(n-j)) j (fun i => mem (src+(n-j)+i)) m.mem

section
variable {mem : ℕ → UInt8} {dest src n j : ℕ} {m : MoveState}

/-- The source is overwritten behind the place that is read. -/
theorem MovedUp.movsb (h : MovedUp mem dest src j m) (hsrc : src+n ≤ addressSpace)
    (hdest : dest+n ≤ addressSpace) (hle : dest ≤ src) (hj : j < n) :
    MovedUp mem dest src (j+1) m.movsb := by
  have hadvance : ∀ a, m.advance a = (a+1) % addressSpace := by
    intro a
    simp only [MoveState.advance, h.up]
    rfl
  have hread : m.mem m.esi = mem (src+j) := by
    rw [h.esi, Nat.mod_eq_of_lt (by omega)]
    refine h.mem.outside _ fun i hi => ?_
    rw [Nat.mod_eq_of_lt (by omega)]
    omega
  refine ⟨h.up,?_,?_,?_⟩
  · exact (hadvance m.esi).trans (by rw [h.esi, next_address])
  · exact (hadvance m.edi).trans (by rw [h.edi, next_address])
  · have hbyte := h.mem.byte (by omega) hread
    rw [← h.edi] at hbyte
    exact hbyte

/-- The source is overwritten above the place that is read. -/
theorem MovedDown.movsb (h : MovedDown mem dest src n j m) (hsrc : src+n ≤ addressSpace)
    (hdest : dest+n ≤ addressSpace) (hlt : src < dest) (hj : j < n) :
    MovedDown mem dest src n (j+1) m.movsb := by
  have hadvance : ∀ a, m.advance a = (a+(addressSpace-1)) % addressSpace := by
    intro a
    simp only [MoveState.advance, h.down]
    rfl
  obtain ⟨k,rfl⟩ : ∃ k, n = j+1+k := ⟨n-(j+1),by omega⟩
  have hleft : j+1+k-j = k+1 := by omega
  have hleft' : j+1+k-(j+1) = k := by omega
  obtain ⟨hdown,hesi,hedi,hmem⟩ := h
  rw [hleft] at hesi hedi hmem
  have hplace : ∀ a, a+(k+1) ≤ addressSpace →
      (a+(k+1)+(addressSpace-1)) % addressSpace = a+k := by
    intro a ha
    unfold addressSpace at *
    omega
  rw [hplace src (by omega)] at hesi
  rw [hplace dest (by omega)] at hedi
  have hread : m.mem m.esi = mem (src+k) := by
    rw [hesi]
    refine hmem.outside _ fun i hi => ?_
    rw [Nat.mod_eq_of_lt (by omega)]
    omega
  refine ⟨hdown,?_,?_,?_⟩
  · rw [hleft', ← hesi]
    exact hadvance m.esi
  · rw [hleft', ← hedi]
    exact hadvance m.edi
  · rw [hleft']
    have hplaces : (fun i => mem (src+(k+1)+i)) = fun i => mem (src+k+(i+1)) := by
      funext i
      exact congrArg mem (by omega)
    rw [hplaces] at hmem
    have hbelow := Overlaid.below (s := dest+k) (f := fun i => mem (src+k+i)) hmem (by omega) hread
    have hspot : (dest+k) % addressSpace = m.edi := (Nat.mod_eq_of_lt (by omega)).trans hedi.symm
    rw [hspot] at hbelow
    exact hbelow

end

/-- For all ranges that do not wrap, whether and however they overlap: the destination gets the
bytes that the source had, nothing else changes, and the direction flag stays set where the
destination is above. -/
theorem memmove_overlaid (mem : ℕ → UInt8) (dest src n : UInt32)
    (hsrc : src.toNat+n.toNat ≤ addressSpace) (hdest : dest.toNat+n.toNat ≤ addressSpace) :
    (memmove mem dest src n).1 = dest ∧
      Overlaid mem dest.toNat n.toNat (fun i => mem (src.toNat+i)) (memmove mem dest src n).2.mem ∧
        (memmove mem dest src n).2.down = decide (src.toNat < dest.toNat) := by
  refine ⟨rfl,?_⟩
  have hs : src.toNat < addressSpace := src.toNat_lt
  have hd : dest.toNat < addressSpace := dest.toNat_lt
  unfold memmove
  dsimp only
  generalize n.toNat = len at *
  generalize src.toNat = s at *
  generalize dest.toNat = d at *
  split_ifs with hle
  · have hmoved : MovedUp mem d s (0+len) (rep MoveState.movsb len ⟨s,d,false,mem⟩) :=
      rep_steps (fun j m hj h => MovedUp.movsb h hsrc hdest hle hj) len (by omega)
        ⟨rfl,(Nat.mod_eq_of_lt hs).symm,(Nat.mod_eq_of_lt hd).symm,.start ..⟩
    rw [Nat.zero_add] at hmoved
    exact ⟨hmoved.mem,hmoved.up.trans (decide_eq_false (by omega)).symm⟩
  · have hmoved := rep_steps (I := MovedDown mem d s len)
      (fun j m hj h => MovedDown.movsb h hsrc hdest (by omega) hj) len
      (Nat.le_of_eq (Nat.zero_add _))
      (d := ⟨(s+len+(addressSpace-1)) % addressSpace,(d+len+(addressSpace-1)) % addressSpace,
        true,mem⟩) ⟨rfl,rfl,rfl,.start ..⟩
    rw [Nat.zero_add] at hmoved
    have hmem := hmoved.mem
    rw [Nat.sub_self] at hmem
    exact ⟨hmem,hmoved.down.trans (decide_eq_true (by omega)).symm⟩

/-- Three bytes moved up by one. -/
theorem memmove_overlaid_up : ((memmove (fun a => a.toUInt8) 65 64 3).2.mem 67,
    (memmove (fun a => a.toUInt8) 65 64 3).2.down) = (66,true) := by
  obtain ⟨-,hmem,hdown⟩ := memmove_overlaid (fun a => a.toUInt8) 65 64 3 (by decide) (by decide)
  exact Prod.ext (hmem.inside 2 (by decide)) hdown

/-! ### Fills -/

/-- `stosw` -/
def StringState.stosw (m : StringState) : StringState :=
  { m with
    mem := Function.update (Function.update m.mem m.edi (m.accByte 0))
      ((m.edi+1) % addressSpace) (m.accByte 1)
    edi := (m.edi+2) % addressSpace }

/-- A repeated store of a value. -/
def fill (store : StringState → StringState) (mem : ℕ → UInt8) (s : UInt32) (c : ℤ) (n : UInt32) :
    UInt32 × (ℕ → UInt8) :=
  (s,(rep store n.toNat ⟨u32 c,0,s.toNat,mem⟩).mem)

def memsetWord (mem : ℕ → UInt8) (s : UInt32) (c : ℤ) (n : UInt32) : UInt32 × (ℕ → UInt8) :=
  fill StringState.stosw mem s c n

def memsetDword (mem : ℕ → UInt8) (s : UInt32) (c : ℤ) (n : UInt32) : UInt32 × (ℕ → UInt8) :=
  fill StringState.stosl mem s c n

/-- The bytes of a value of `width` bytes, again and again. -/
def pattern (width v i : ℕ) : UInt8 := (v/256^(i % width) % 256).toUInt8

/-- After `j` values. -/
structure Filled (width : ℕ) (mem : ℕ → UInt8) (s v j : ℕ) (m : StringState) : Prop where
  eax : m.eax = v
  edi : m.edi = (s+width*j) % addressSpace
  mem : Overlaid mem s (width*j) (pattern width v) m.mem

section
variable {mem : ℕ → UInt8} {s v n j : ℕ} {m : StringState}

theorem Filled.accByte {width : ℕ} (h : Filled width mem s v j m) {i : ℕ} (hi : i < width) :
    m.accByte i = pattern width v (width*j+i) := by
  have hplace : (width*j+i) % width = i := by
    rw [Nat.mul_add_mod, Nat.mod_eq_of_lt hi]
  rw [StringState.accByte, pattern, h.eax, hplace]

theorem Filled.stosw (h : Filled 2 mem s v j m) (hn : 2*n ≤ addressSpace) (hj : j < n) :
    Filled 2 mem s v (j+1) m.stosw := by
  refine ⟨h.eax,?_,?_⟩
  · rw [show 2*(j+1) = 2*j+2 by omega, ← next_address, ← h.edi]
    rfl
  · have hlow := h.mem.byte (by omega) (h.accByte (i := 0) (by omega))
    have hhigh := hlow.byte (by omega) (h.accByte (i := 1) (by omega))
    rw [← next_address, ← h.edi] at hhigh
    exact hhigh

theorem Filled.stosl (h : Filled 4 mem s v j m) (hn : 4*n ≤ addressSpace) (hj : j < n) :
    Filled 4 mem s v (j+1) m.stosl := by
  refine ⟨h.eax,?_,?_⟩
  · rw [show 4*(j+1) = 4*j+4 by omega, ← next_address, ← h.edi]
    rfl
  · have hdword := h.mem.dword (by omega) fun i hi => h.accByte hi
    rw [← store4_mod, ← h.edi] at hdword
    exact hdword

end

/-- What the values of `width` bytes come to. -/
theorem fill_overlaid {width : ℕ} {store : StringState → StringState} {mem : ℕ → UInt8}
    {s : UInt32} {c : ℤ} {n : UInt32} (hstore : ∀ j m, j < n.toNat →
      Filled width mem s.toNat (u32 c) j m → Filled width mem s.toNat (u32 c) (j+1) (store m)) :
    (fill store mem s c n).1 = s ∧
      Overlaid mem s.toNat (width*n.toNat) (pattern width (u32 c)) (fill store mem s c n).2 := by
  have hs : s.toNat % addressSpace = s.toNat := Nat.mod_eq_of_lt s.toNat_lt
  have hfilled := rep_steps hstore n.toNat (Nat.le_of_eq (Nat.zero_add _))
    (d := ⟨u32 c,0,s.toNat,mem⟩) ⟨rfl,hs.symm,.start ..⟩
  rw [Nat.zero_add] at hfilled
  exact ⟨rfl,hfilled.mem⟩

/-- The fills store the low half of the value, and the value, the given number of times in a row
and change nothing else. -/
theorem memsets_overlaid (mem : ℕ → UInt8) (s : UInt32) (c : ℤ) (n : UInt32) :
    (2*n.toNat ≤ addressSpace → (memsetWord mem s c n).1 = s ∧
      Overlaid mem s.toNat (2*n.toNat) (pattern 2 (u32 c)) (memsetWord mem s c n).2) ∧
    (4*n.toNat ≤ addressSpace → (memsetDword mem s c n).1 = s ∧
      Overlaid mem s.toNat (4*n.toNat) (pattern 4 (u32 c)) (memsetDword mem s c n).2) :=
  ⟨fun hn => fill_overlaid fun _ _ hj h => h.stosw hn hj,
    fun hn => fill_overlaid fun _ _ hj h => h.stosl hn hj⟩

/-- Two blanks on the screen. -/
theorem memsets_overlaid_blanks : (memsetWord (fun _ => 0) 0xB8000 0x0720 2).2 0xB8003 = 7 := by
  obtain ⟨-,hmem⟩ := (memsets_overlaid (fun _ => 0) 0xB8000 0x0720 2).1 (by decide)
  exact hmem.inside 3 (by decide)

/-! ### strncpy -/

/-- One round of the loop that copies: the index and the destination. -/
def ncopyRound (src : ℕ → UInt8) (n : ℕ) (s : ℕ × (ℕ → UInt8)) :
    (ℕ × (ℕ → UInt8)) ⊕ (ℕ × (ℕ → UInt8)) :=
  if src s.1 ≠ 0 ∧ s.1 < n then .inl (s.1+1,Function.update s.2 s.1 (src s.1)) else .inr s

/-- One round of the loop that fills the rest. -/
def npadRound (n : ℕ) (s : ℕ × (ℕ → UInt8)) : (ℕ × (ℕ → UInt8)) ⊕ (ℕ → UInt8) :=
  if s.1 < n then .inl (s.1+1,Function.update s.2 s.1 0) else .inr s.2

/-- strncpy between two buffers, for a number of rounds of each loop. The index has its 32 bits
to itself as long as `n` is a positive int32_t. -/
def strncpy (fuel : ℕ) (dest src : ℕ → UInt8) (n : ℕ) : Option (ℕ → UInt8) :=
  (loop (ncopyRound src n) fuel (0,dest)).bind fun s => loop (npadRound n) fuel s

/-- The first `i` bytes of the destination are those of `f`. -/
def Front (dest f : ℕ → UInt8) (i : ℕ) (mem : ℕ → UInt8) : Prop :=
  ∀ a, mem a = if a < i then f a else dest a

section
variable {dest src f mem : ℕ → UInt8} {i n fuel : ℕ}

theorem Front.start (dest f : ℕ → UInt8) : Front dest f 0 dest :=
  fun a => (if_neg (Nat.not_lt_zero a)).symm

theorem Front.store (h : Front dest f i mem) {c : UInt8} (hc : c = f i) :
    Front dest f (i+1) (Function.update mem i c) := by
  intro a
  by_cases ha : a = i
  · subst ha
    rw [Function.update_self, hc, if_pos (Nat.lt_succ_self a)]
  · rw [Function.update_of_ne ha, h a]
    by_cases hlt : a < i
    · rw [if_pos hlt, if_pos (by omega)]
    · rw [if_neg hlt, if_neg (by omega)]

/-- The string in `src`, with zeros behind it. -/
def padded (src : ℕ → UInt8) (a : ℕ) : UInt8 := if ∀ j ≤ a, src j ≠ 0 then src a else 0

theorem padded_inside (h : ∀ j < i, src j ≠ 0) (hi : src i ≠ 0) : padded src i = src i := by
  refine if_pos fun j hj => ?_
  obtain hlt | rfl : j < i ∨ j = i := by omega
  · exact h j hlt
  · exact hi

/-- The first loop stops at the terminator or at the end of the buffer. -/
theorem ncopy_loop (dest src : ℕ → UInt8) (hfuel : n < fuel) :
    ∃ r, loop (ncopyRound src n) fuel (0,dest) = some r ∧ r.1 ≤ n ∧
      Front dest (padded src) r.1 r.2 ∧ (r.1 < n → src r.1 = 0) := by
  refine loop_rule (I := fun s => s.1 ≤ n ∧ Front dest (padded src) s.1 s.2 ∧ ∀ j < s.1, src j ≠ 0)
    (fun s => n-s.1) ?_ ?_ ⟨Nat.zero_le n,Front.start dest _,
      fun j hj => absurd hj (Nat.not_lt_zero j)⟩
    (show n-0 < fuel by omega)
  · rintro ⟨i,mem⟩ s' ⟨hle,hfront,hstring⟩ hround
    simp only [ncopyRound] at hround
    split_ifs at hround with hmore
    cases hround
    refine ⟨⟨hmore.2,hfront.store (padded_inside hstring hmore.1).symm,?_⟩,?_⟩
    · intro j hj
      obtain hlt | rfl : j < i ∨ j = i := by
        dsimp only at hj
        omega
      · exact hstring j hlt
      · exact hmore.1
    · dsimp only
      omega
  · rintro ⟨i,mem⟩ r ⟨hle,hfront,hstring⟩ hround
    simp only [ncopyRound] at hround
    split_ifs at hround with hmore
    cases hround
    refine ⟨hle,hfront,fun hlt => ?_⟩
    by_contra hbyte
    exact hmore ⟨hbyte,hlt⟩

/-- The second loop fills what is left. -/
theorem npad_loop (hi : i ≤ n) (hfront : Front dest f i mem) (hzero : ∀ a, i ≤ a → a < n → f a = 0)
    (hfuel : n < fuel) : ∃ r, loop (npadRound n) fuel (i,mem) = some r ∧ Front dest f n r := by
  refine loop_rule (I := fun s => i ≤ s.1 ∧ s.1 ≤ n ∧ Front dest f s.1 s.2) (fun s => n-s.1) ?_ ?_
    ⟨Nat.le_refl i,hi,hfront⟩ (show n-i < fuel by omega)
  · rintro ⟨j,mem⟩ s' ⟨hle,hn,hfront⟩ hround
    simp only [npadRound] at hround
    split_ifs at hround with hmore
    cases hround
    refine ⟨⟨Nat.le_succ_of_le hle,hmore,hfront.store (hzero j hle hmore).symm⟩,?_⟩
    dsimp only
    omega
  · rintro ⟨j,mem⟩ r ⟨hle,hn,hfront⟩ hround
    simp only [npadRound] at hround
    split_ifs at hround with hmore
    cases hround
    dsimp only at hn hfront
    rwa [show j = n by omega] at hfront

/-- strncpy ends and stores `n` bytes: the string as far as it goes, then zeros. A string of `n`
bytes and more gets no terminator. -/
theorem strncpy_padded (dest src : ℕ → UInt8) (n fuel : ℕ) (hfuel : n < fuel) :
    ∃ r, strncpy fuel dest src n = some r ∧
      ∀ a, r a = if a < n then (if ∀ j ≤ a, src j ≠ 0 then src a else 0) else dest a := by
  obtain ⟨⟨i,mem⟩,hcopy,hle,hfront,hstop⟩ := ncopy_loop dest src hfuel
  dsimp only at hle hfront hstop
  have hzero : ∀ a, i ≤ a → a < n → padded src a = 0 :=
    fun a hia han => if_neg fun h => h i hia (hstop (by omega))
  obtain ⟨r,hpad,hr⟩ := npad_loop hle hfront hzero hfuel
  refine ⟨r,?_,hr⟩
  rw [strncpy, hcopy]
  exact hpad

end

theorem strncpy_padded_short : ∃ r, strncpy 9 (fun _ => 7) (cstring (text "ls")) 4 = some r ∧
    (r 1,r 2,r 3,r 4) = (115,0,0,7) := by
  obtain ⟨r,hr,hbytes⟩ := strncpy_padded (fun _ => 7) (cstring (text "ls")) 4 9 (by decide)
  refine ⟨r,hr,?_⟩
  rw [hbytes, hbytes, hbytes, hbytes]
  decide +kernel

end GameOfThreads
