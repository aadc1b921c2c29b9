import GameOfThreads.DescriptorTable
import GameOfThreads.Machine.Strings

/-! The directory, listed and looked up. A listing stops at the directory count, may not pass
the inode count, and copies each entry into a local as a string; a lookup searches all 63
slots. What has to hold for them to agree. -/
namespace GameOfThreads
open Machine

/-- The name in slot `i` of the directory table. -/
def FileSystem.slotName (fs : FileSystem) (i : ℕ) : List UInt8 :=
  charsFrom (fs.directory i).filename 0 nameLen

/-- The bytes of a directory entry, and of the local that it is copied into. -/
def dentrySize : ℕ := 64

/-- The copy of slot `i` as a string runs past the end of an entry. -/
def FileSystem.Overlong (fs : FileSystem) (i : ℕ) : Prop :=
  ∀ j < dentrySize, (fs.directory i).bytes j ≠ 0

instance (fs : FileSystem) (i : ℕ) : Decidable (fs.Overlong i) :=
  inferInstanceAs (Decidable (∀ j < dentrySize, _))

/-- What a call of directory_read comes to: a value and the bytes stored, or a copy past the
end of its local, after which nothing more can be said. -/
inductive DirectoryResult
  | done (value : ℤ) (bytes : List UInt8)
  | overrun
  deriving DecidableEq

/-- directory_read with its local: the copy is made when the position has passed both
counts. -/
def directoryReadLocal (fs : FileSystem) (fd : ℤ) (nbytes : ℤ) (cpu : Cpu) (k : Kernel) :
    DirectoryResult × Kernel :=
  let position := u32 (k.des fd.toNat).filePosition
  if ¬(fd < fileStart ∨ fd > maxFile ∨ nbytes ≤ 0) ∧ position ≤ u32 fs.dirCount ∧
      position < u32 fs.inodeCount ∧ fs.Overlong position then (.overrun,k)
  else
    let r := directoryRead fs fd false nbytes cpu k
    (.done r.1.1 r.1.2,r.2)

/-- Calls of directory_read on one descriptor, with what the caller gets. -/
def directoryReads (fs : FileSystem) (fd : ℤ) : System Kernel (ℤ × Cpu) DirectoryResult where
  step k call := directoryReadLocal fs fd call.1 call.2 k

/-- A call with room for every name. -/
def Roomy (call : ℤ × Cpu) : Prop := 32 ≤ call.1 ∧ call.1 < 2147483648

/-- The caller has been given this name: its length is the value and its bytes come first. -/
def Names (out : DirectoryResult) (name : List UInt8) : Prop :=
  ∃ bytes, out = .done name.length bytes ∧ name <+: bytes

/-- The call has returned 0. -/
def Ends (out : DirectoryResult) : Prop := ∃ bytes, out = .done 0 bytes

/-- The calls give the names of the entries in order, each once, and then nothing. -/
def Listing (fs : FileSystem) (fd : ℤ) (k : Kernel) : Prop :=
  ∀ calls, (∀ c ∈ calls, Roomy c) → ∀ i m, ((directoryReads fs fd).trace k calls)[i]? = some m →
    (∀ j : ℕ, (j : ℤ) < fs.dirCount → (Names m.out (fs.slotName j) ↔ i = j)) ∧
    (fs.dirCount ≤ i → Ends m.out)

/-- The names found are those of the entries. -/
def LookupAgrees (fs : FileSystem) : Prop :=
  ∀ name : List UInt8, 0 ∉ name → name.length < 2147483648 →
    ((fs.readDentryByName (some name)).isSome ↔
      ∃ j : ℕ, (j : ℤ) < fs.dirCount ∧ fs.slotName j = name)

/-- What a call gives for a name. -/
def nameReply (name : List UInt8) : ℤ × List UInt8 :=
  (name.length,name ++ if name.length < nameLen then [noke] else [])

/-- A call that has given a name. -/
def named (name : List UInt8) : DirectoryResult := .done (nameReply name).1 (nameReply name).2

theorem named_names {name other : List UInt8} : Names (named name) other ↔ name = other := by
  constructor
  · rintro ⟨bytes,hout,hstart⟩
    obtain ⟨hlength,rfl⟩ := DirectoryResult.done.inj hout
    have hlength : other.length = name.length := by
      simp only [nameReply] at hlength
      omega
    have htake := List.prefix_iff_eq_take.mp hstart
    rw [htake, hlength, nameReply]
    simp
  · rintro rfl
    exact ⟨_,rfl,List.prefix_append ..⟩

theorem named_ends {name : List UInt8} : Ends (named name) ↔ name = [] := by
  constructor
  · rintro ⟨bytes,hout⟩
    have hlength : (name.length : ℤ) = 0 := (DirectoryResult.done.inj hout).1
    exact List.length_eq_zero_iff.mp (by omega)
  · rintro rfl
    exact ⟨_,rfl⟩

/-- The copy loop stops at the terminator or at the limit. -/
theorem copyName_eq (f : ℕ → UInt8) (n i : ℕ) :
    copyName f n i = ((i : ℤ)+(charsFrom f i n).length,
      charsFrom f i n ++ if (charsFrom f i n).length < n then [noke] else []) := by
  induction n generalizing i with
  | zero => simp [copyName]
  | succ n ih =>
    rw [copyName, charsFrom_succ]
    by_cases hnul : f i = 0
    · simp [hnul, noke]
    · have hnoke : f i ≠ noke := hnul
      rw [if_neg hnoke, if_neg hnul, ih]
      simp only [List.length_cons, List.cons_append, Nat.add_lt_add_iff_right]
      refine Prod.ext ?_ rfl
      push_cast
      omega

variable {fs : FileSystem} {fd : ℤ} {k : Kernel} {call : ℤ × Cpu}

/-- An entry read by its index has the name of the slot, whatever the result held before. -/
theorem readDentryByIndex_name {p : ℕ} {d e : Dentry} (he : fs.readDentryByIndex p d = some e) :
    charsFrom e.filename 0 nameLen = fs.slotName p := by
  unfold FileSystem.readDentryByIndex at he
  split_ifs at he
  obtain rfl := Option.some.inj he
  rw [FileSystem.slotName, ← charsFrom_strcpy d.bytes (fs.directory p).filename nameLen (by simp)]
  apply charsFrom_congr
  intro j hj
  unfold nameLen at hj
  exact if_neg (by omega)

/-- A successful call copies the name of the slot. -/
theorem copyName_slot {p : ℕ} {stack : ℕ → UInt8} {d : Dentry}
    (hd : fs.readDentryByIndex p ⟨stack⟩ = some d) :
    copyName d.filename nameLen 0 = nameReply (fs.slotName p) := by
  rw [copyName_eq, readDentryByIndex_name hd]
  simp [nameReply]

theorem copyName_length_le (f : ℕ → UInt8) (n i : ℕ) : (copyName f n i).2.length ≤ n := by
  have hchars := charsFrom_length_le f i n
  rw [copyName_eq, List.length_append]
  split_ifs with h
  · exact h
  · simpa using hchars

theorem nameLimit_le {nbytes : ℤ} (h : 0 < nbytes) (h' : nbytes < 2147483648) :
    nameLimit nbytes ≤ nbytes.toNat := by
  unfold nameLimit u32 nameLen
  split_ifs <;> omega

theorem nameLimit_roomy (h : Roomy call) : nameLimit call.1 = nameLen := by
  obtain ⟨hlow,hhigh⟩ := h
  unfold nameLimit u32 nameLen
  split_ifs <;> omega

/-! ### Where a run of calls stands -/

theorem readDentryByIndex_none {p : ℕ} {d : Dentry} (h : p ≥ u32 fs.inodeCount) :
    fs.readDentryByIndex p d = none := if_pos h

theorem readDentryByIndex_some {p : ℕ} (d : Dentry) (h : p < u32 fs.inodeCount) :
    ∃ e, fs.readDentryByIndex p d = some e := ⟨_,if_neg (Nat.not_le.mpr h)⟩

section
variable (hfd : fileStart ≤ fd) (hfd' : fd < maxFile) {nbytes : ℤ} (hn : 0 < nbytes) {p : ℕ}
  (hp : u32 (k.des fd.toNat).filePosition = p)
include hfd hfd' hn

theorem directoryRead_args : ¬(fd < fileStart ∨ fd > maxFile ∨ false = true ∨ nbytes ≤ 0) := by
  simp only [Bool.false_eq_true, false_or]
  omega

include hp

theorem directoryRead_past (cpu : Cpu) (hpast : p > u32 fs.dirCount) :
    directoryRead fs fd false nbytes cpu k = ((0,[]),k) := by
  rw [directoryRead, if_neg (directoryRead_args hfd hfd' hn)]
  simp only [hp, if_pos hpast]

theorem directoryRead_beyond (cpu : Cpu) (hwithin : p ≤ u32 fs.dirCount)
    (hbeyond : p ≥ u32 fs.inodeCount) :
    directoryRead fs fd false nbytes cpu k = ((-1,[]),k) := by
  rw [directoryRead, if_neg (directoryRead_args hfd hfd' hn)]
  simp only [hp, if_neg (Nat.not_lt.mpr hwithin), readDentryByIndex_none hbeyond]

theorem directoryRead_entry (cpu : Cpu) (hwithin : p ≤ u32 fs.dirCount)
    (hcount : p < u32 fs.inodeCount) :
    ∃ d, fs.readDentryByIndex p ⟨cpu.stack⟩ = some d ∧
      directoryRead fs fd false nbytes cpu k =
        (copyName d.filename (nameLimit nbytes) 0,
          k.setDes fd.toNat ((k.des fd.toNat).advance 1)) := by
  obtain ⟨d,hd⟩ := readDentryByIndex_some ⟨cpu.stack⟩ hcount
  refine ⟨d,hd,?_⟩
  rw [directoryRead, if_neg (directoryRead_args hfd hfd' hn)]
  simp only [hp, if_neg (Nat.not_lt.mpr hwithin), hd, FileDes.advance]

end

theorem Roomy.pos (h : Roomy call) : 0 < call.1 := lt_of_lt_of_le (by decide) h.1

theorem directoryRead_name (hfd : fileStart ≤ fd) (hfd' : fd < maxFile) (h : Roomy call) {p : ℕ}
    (hp : u32 (k.des fd.toNat).filePosition = p) (cpu : Cpu) (hwithin : p ≤ u32 fs.dirCount)
    (hcount : p < u32 fs.inodeCount) :
    directoryRead fs fd false call.1 cpu k =
      (nameReply (fs.slotName p),k.setDes fd.toNat ((k.des fd.toNat).advance 1)) := by
  obtain ⟨d,hd,hread⟩ := directoryRead_entry hfd hfd' h.pos hp cpu hwithin hcount
  rw [hread, nameLimit_roomy h, copyName_slot hd]

/-- A call at position `p` does not move on. -/
def FileSystem.Stuck (fs : FileSystem) (p : ℕ) : Prop :=
  p > u32 fs.dirCount ∨ p ≥ u32 fs.inodeCount ∨ fs.Overlong p

instance (fs : FileSystem) (p : ℕ) : Decidable (fs.Stuck p) :=
  inferInstanceAs (Decidable (_ ∨ _))

theorem exists_stuck (fs : FileSystem) : ∃ p, fs.Stuck p := ⟨_,.inl (Nat.lt_succ_self _)⟩

/-- The number of calls that move on. -/
def FileSystem.steps (fs : FileSystem) : ℕ := Nat.find (exists_stuck fs)

theorem steps_le {p : ℕ} (h : fs.Stuck p) : fs.steps ≤ p := Nat.find_min' _ h

theorem steps_stuck (fs : FileSystem) : fs.Stuck fs.steps := Nat.find_spec (exists_stuck fs)

theorem lt_steps_iff {p : ℕ} : p < fs.steps ↔ ∀ j ≤ p, ¬fs.Stuck j := Nat.lt_find_iff _ _

/-- What a call at position `p` gives. -/
def FileSystem.listed (fs : FileSystem) (p : ℕ) : DirectoryResult :=
  if p > u32 fs.dirCount then .done 0 []
  else if p ≥ u32 fs.inodeCount then .done (-1) []
  else if fs.Overlong p then .overrun
  else named (fs.slotName p)

section
variable (hfd : fileStart ≤ fd) (hfd' : fd < maxFile)
include hfd hfd'

/-- One call, at any position. -/
theorem directoryReads_step (hcall : Roomy call) {p : ℕ}
    (hp : u32 (k.des fd.toNat).filePosition = p) :
    (directoryReads fs fd).out k call = fs.listed p ∧
      (directoryReads fs fd).next k call =
        if fs.Stuck p then k else k.setDes fd.toNat ((k.des fd.toNat).advance 1) := by
  have hargs : ¬(fd < fileStart ∨ fd > maxFile ∨ call.1 ≤ 0) := by
    have hpos := hcall.pos
    omega
  have hout : (directoryReads fs fd).out k call = (directoryReadLocal fs fd call.1 call.2 k).1 :=
    rfl
  have hnext : (directoryReads fs fd).next k call =
      (directoryReadLocal fs fd call.1 call.2 k).2 := rfl
  rw [hout, hnext]
  simp only [directoryReadLocal, hp, FileSystem.listed]
  by_cases hpast : p > u32 fs.dirCount
  · have hstuck : fs.Stuck p := .inl hpast
    rw [if_neg fun h => Nat.not_le.mpr hpast h.2.1, if_pos hpast, if_pos hstuck,
      directoryRead_past hfd hfd' hcall.pos hp call.2 hpast]
    exact ⟨rfl,rfl⟩
  have hwithin := Nat.not_lt.mp hpast
  by_cases hbeyond : p ≥ u32 fs.inodeCount
  · have hstuck : fs.Stuck p := .inr (.inl hbeyond)
    rw [if_neg fun h => Nat.not_lt.mpr hbeyond h.2.2.1, if_neg hpast, if_pos hbeyond,
      if_pos hstuck, directoryRead_beyond hfd hfd' hcall.pos hp call.2 hwithin hbeyond]
    exact ⟨rfl,rfl⟩
  have hcount := Nat.not_le.mp hbeyond
  by_cases hlong : fs.Overlong p
  · have hstuck : fs.Stuck p := .inr (.inr hlong)
    rw [if_pos ⟨hargs,hwithin,hcount,hlong⟩, if_neg hpast, if_neg hbeyond, if_pos hlong,
      if_pos hstuck]
    exact ⟨rfl,rfl⟩
  · have hfree : ¬fs.Stuck p := not_or.mpr ⟨hpast,not_or.mpr ⟨hbeyond,hlong⟩⟩
    rw [if_neg fun h => hlong h.2.2.2, if_neg hpast, if_neg hbeyond, if_neg hlong,
      if_neg hfree, directoryRead_name hfd hfd' hcall hp call.2 hwithin hcount]
    exact ⟨rfl,rfl⟩

end

section
variable (hfd : fileStart ≤ fd) (hfd' : fd < maxFile) (h₀ : 0 ≤ fs.dirCount)
  (h₆₃ : fs.dirCount ≤ numDir) (hk : (k.des fd.toNat).filePosition = 0)

include h₀ h₆₃ in
theorem dirCount_u32 : u32 fs.dirCount = fs.dirCount.toNat :=
  u32_eq_toNat h₀ (h₆₃.trans_lt (by decide))

include h₀ h₆₃ in
theorem steps_bound : fs.steps ≤ 64 := by
  have hdir : fs.dirCount.toNat ≤ numDir := Int.toNat_le.mpr h₆₃
  have hstuck : fs.Stuck (u32 fs.dirCount+1) := .inl (Nat.lt_succ_self _)
  have hle := steps_le hstuck
  rw [dirCount_u32 h₀ h₆₃] at hle
  exact hle.trans (Nat.succ_le_succ hdir)

include hfd hfd' h₀ h₆₃ hk

theorem directoryReads_position {calls : List (ℤ × Cpu)} (hcalls : ∀ c ∈ calls, Roomy c) :
    (((directoryReads fs fd).run k calls).des fd.toNat).filePosition =
      (min calls.length fs.steps : ℕ) := by
  induction calls using List.reverseRecOn with
  | nil => simpa using hk
  | append_singleton calls call ih =>
    have hposition := ih fun c hc => hcalls c (by simp [hc])
    have hcall : Roomy call := hcalls call (by simp)
    have hbound := steps_bound h₀ h₆₃
    rw [System.run_snoc, List.length_append, List.length_singleton]
    generalize (directoryReads fs fd).run k calls = k' at hposition ⊢
    have hu : u32 (k'.des fd.toNat).filePosition = min calls.length fs.steps := by
      rw [hposition]
      exact u32_natCast (by omega)
    obtain ⟨-,hnext⟩ := directoryReads_step hfd hfd' hcall hu
    have hfree : calls.length < fs.steps → ¬fs.Stuck calls.length := fun hlt =>
      lt_steps_iff.mp hlt _ le_rfl
    have hstuck := steps_stuck fs
    rw [hnext]
    generalize fs.steps = n at *
    by_cases hlt : calls.length < n
    · have hadvance : ((k'.des fd.toNat).advance 1).filePosition =
          i32 ((k'.des fd.toNat).filePosition+1) := rfl
      rw [min_eq_left hlt.le] at hposition ⊢
      rw [if_neg (hfree hlt), setDes_des, hadvance, hposition,
        i32_of_range (by omega) (by omega), min_eq_left (Nat.succ_le_of_lt hlt)]
      rfl
    · have hle := Nat.le_of_not_lt hlt
      rw [min_eq_right hle] at hposition ⊢
      rw [if_pos hstuck, hposition, min_eq_right (hle.trans (Nat.le_succ _))]

theorem directoryReads_out {calls : List (ℤ × Cpu)} (hcalls : ∀ c ∈ calls, Roomy c) {i : ℕ}
    {m : Move Kernel (ℤ × Cpu) DirectoryResult}
    (hm : ((directoryReads fs fd).trace k calls)[i]? = some m) :
    m.out = fs.listed (min i fs.steps) := by
  rw [System.trace_getElem?] at hm
  obtain ⟨call,hcall,rfl⟩ := Option.map_eq_some_iff.mp hm
  have hmem : call ∈ calls := List.mem_of_getElem? hcall
  have hlength : i < calls.length := (List.getElem?_eq_some_iff.mp hcall).1
  have htake : ∀ c ∈ calls.take i, Roomy c := fun c hc => hcalls c (List.mem_of_mem_take hc)
  have hposition := directoryReads_position hfd hfd' h₀ h₆₃ hk htake
  have hbound := steps_bound h₀ h₆₃
  rw [List.length_take, Nat.min_eq_left hlength.le] at hposition
  refine (directoryReads_step hfd hfd' (hcalls call hmem) ?_).1
  rw [hposition]
  exact u32_natCast (by omega)

/-- A listing is right when every call's answer is. -/
theorem listing_iff_listed :
    Listing fs fd k ↔ ∀ i : ℕ,
      (∀ j : ℕ, (j : ℤ) < fs.dirCount →
        (Names (fs.listed (min i fs.steps)) (fs.slotName j) ↔ i = j)) ∧
      (fs.dirCount ≤ i → Ends (fs.listed (min i fs.steps))) := by
  constructor
  · intro h i
    have hcalls : ∀ c ∈ List.replicate (i+1) ((32,⟨0,0,fun _ => 0⟩) : ℤ × Cpu), Roomy c := by
      intro c hc
      rw [List.eq_of_mem_replicate hc]
      exact ⟨le_rfl,by decide⟩
    have hlast : i < ((directoryReads fs fd).trace k
        (List.replicate (i+1) ((32,⟨0,0,fun _ => 0⟩) : ℤ × Cpu))).length := by
      simp
    have hm := List.getElem?_eq_getElem hlast
    have hi := h _ hcalls i _ hm
    rwa [directoryReads_out hfd hfd' h₀ h₆₃ hk hcalls hm] at hi
  · intro h calls hcalls i m hm
    rw [directoryReads_out hfd hfd' h₀ h₆₃ hk hcalls hm]
    exact h i

omit hfd hfd' hk in
theorem listed_past {p : ℕ} (hp : fs.dirCount < p) : fs.listed p = .done 0 [] := by
  have hdir := dirCount_u32 h₀ h₆₃
  rw [FileSystem.listed, if_pos (by omega)]

omit hfd hfd' h₀ h₆₃ hk in
theorem listed_free {p : ℕ} (hp : ¬fs.Stuck p) : fs.listed p = named (fs.slotName p) := by
  obtain ⟨hpast,hbeyond,hlong⟩ := by simpa only [FileSystem.Stuck, not_or] using hp
  rw [FileSystem.listed, if_neg hpast, if_neg hbeyond, if_neg hlong]

omit hfd hfd' hk in
/-- A call that is stuck among the entries gives neither a name nor the end. -/
theorem listed_stuck {p : ℕ} (hp : fs.Stuck p) (hdir : (p : ℤ) ≤ fs.dirCount)
    {out : DirectoryResult} (hout : fs.listed p = out) :
    ¬Ends out ∧ ∀ name, ¬Names out name := by
  have hcount := dirCount_u32 h₀ h₆₃
  have hpast : ¬p > u32 fs.dirCount := by omega
  subst hout
  rw [FileSystem.listed, if_neg hpast]
  split_ifs with hbeyond hlong
  · constructor
    · rintro ⟨bytes,h⟩
      cases h
    · rintro name ⟨bytes,h,-⟩
      have hvalue := (DirectoryResult.done.inj h).1
      omega
  · exact ⟨by rintro ⟨_,⟨⟩⟩,by rintro _ ⟨_,⟨⟩,-⟩⟩
  · exact absurd hp (not_or.mpr ⟨hpast,not_or.mpr ⟨hbeyond,hlong⟩⟩)

/-- For entries with names of their own the listing is right exactly when the inode count
is above the directory count, the next slot has no name, and no entry is too long. -/
theorem listing_iff
    (hnames : ∀ j : ℕ, (j : ℤ) < fs.dirCount → fs.slotName j ≠ [])
    (hdistinct : ∀ i j : ℕ, (i : ℤ) < fs.dirCount → (j : ℤ) < fs.dirCount →
      fs.slotName i = fs.slotName j → i = j) :
    Listing fs fd k ↔ fs.dirCount < u32 fs.inodeCount ∧ fs.slotName fs.dirCount.toNat = [] ∧
      ∀ j : ℕ, (j : ℤ) < fs.dirCount → ¬fs.Overlong j := by
  rw [listing_iff_listed hfd hfd' h₀ h₆₃ hk]
  obtain ⟨d,hd⟩ := Int.eq_ofNat_of_zero_le h₀
  have hcount : u32 fs.dirCount = d := by rw [dirCount_u32 h₀ h₆₃, hd, Int.toNat_natCast]
  have htoNat : fs.dirCount.toNat = d := by rw [hd, Int.toNat_natCast]
  constructor
  · intro h
    -- a call that is stuck at the end or before it answers wrongly
    have hfree : ∀ p ≤ d, ¬fs.Stuck p := by
      by_contra hstuck
      push Not at hstuck
      obtain ⟨p,hp,hstuck⟩ := hstuck
      have hle := (steps_le hstuck).trans hp
      have hlast := h fs.steps
      have hstuck := steps_stuck fs
      rw [min_self] at hlast
      generalize fs.steps = n at hle hlast hstuck
      obtain ⟨hend,hname⟩ := listed_stuck h₀ h₆₃ hstuck (by omega) rfl
      obtain heq | hlt : n = d ∨ n < d := by omega
      · exact hend (hlast.2 (by omega))
      · exact hname _ ((hlast.1 n (by omega)).mpr rfl)
    have hlast := lt_steps_iff.mpr hfree
    obtain ⟨-,hbeyond,-⟩ := by simpa only [FileSystem.Stuck, not_or] using hfree d le_rfl
    refine ⟨by omega,?_,?_⟩
    · have hend := (h d).2 (by omega)
      rw [min_eq_left hlast.le, listed_free (hfree d le_rfl), named_ends] at hend
      rw [htoNat, hend]
    · intro j hj hlong
      exact hfree j (by omega) (.inr (.inr hlong))
  · rintro ⟨hn,hnext,hlong⟩ i
    rw [htoNat] at hnext
    have hempty : ¬fs.Overlong d := by
      intro hlong
      have hfirst : (fs.directory d).filename 0 = 0 := by
        by_contra hne
        rw [FileSystem.slotName, nameLen, charsFrom_succ, if_neg hne] at hnext
        cases hnext
      exact hlong 0 (by decide) hfirst
    have hfree : ∀ p ≤ d, ¬fs.Stuck p := by
      rintro p hp (hpast | hbeyond | hover)
      · omega
      · omega
      · obtain rfl | hlt : p = d ∨ p < d := by omega
        · exact hempty hover
        · exact hlong p (by omega) hover
    have hlast := lt_steps_iff.mpr hfree
    have hsteps : fs.steps ≤ d+1 := hcount ▸ steps_le (.inl (Nat.lt_succ_self _))
    generalize fs.steps = n at hlast hsteps
    by_cases hi : i ≤ d
    · rw [min_eq_left (hi.trans hlast.le), listed_free (hfree i hi)]
      simp only [named_names, named_ends]
      constructor
      · intro j hj
        constructor
        · intro hname
          obtain rfl | hi : i = d ∨ i < d := by omega
          · exact absurd (hname.symm.trans hnext) (hnames j hj)
          · exact hdistinct i j (by omega) hj hname
        · rintro rfl
          rfl
      · intro hend
        obtain rfl : i = d := by omega
        exact hnext
    · rw [show min i n = d+1 by omega, listed_past h₀ h₆₃ (by omega)]
      constructor
      · intro j hj
        constructor
        · rintro ⟨bytes,hname,-⟩
          have hvalue := (DirectoryResult.done.inj hname).1
          exact absurd (List.length_eq_zero_iff.mp (by omega)) (hnames j hj)
        · rintro rfl
          omega
      · exact fun _ => ⟨[],rfl⟩

end

/-! ### Lookup -/

/-- What the loop of read_dentry_by_name asks of slot `i`, once the length of the name is
accepted. -/
def FileSystem.Answers (fs : FileSystem) (name : List UInt8) (i : ℕ) : Prop :=
  ¬(i32 (strlen name) > nameLen ∨ i32 (strlen name) = 0) ∧
    strncmp (fs.directory i).filename (cstring name) nameLen = 0

instance (fs : FileSystem) (name : List UInt8) (i : ℕ) : Decidable (fs.Answers name i) :=
  inferInstanceAs (Decidable (_ ∧ _))

theorem readDentryByName_eq (fs : FileSystem) (name : List UInt8) :
    fs.readDentryByName (some name) =
      ((List.range numDir).find? fun i => fs.Answers name i).map fs.directory := by
  simp only [FileSystem.readDentryByName]
  by_cases hlength : i32 (strlen name) > nameLen ∨ i32 (strlen name) = 0
  · have hnone : ((List.range numDir).find? fun i => fs.Answers name i) = none := by
      rw [List.find?_eq_none]
      intro i _ hanswers
      exact (of_decide_eq_true hanswers).1 hlength
    rw [if_pos hlength, hnone]
    rfl
  · have hsame : (fun i => decide (strncmp (fs.directory i).filename (cstring name) nameLen = 0)) =
        fun i => decide (fs.Answers name i) := by
      funext i
      exact decide_eq_decide.mpr ⟨fun h => ⟨hlength,h⟩,fun h => h.2⟩
    rw [if_neg hlength, hsame]

theorem slotName_length_le (fs : FileSystem) (i : ℕ) : (fs.slotName i).length ≤ nameLen :=
  charsFrom_length_le (fs.directory i).filename 0 nameLen

theorem slotName_no_nul (fs : FileSystem) (i : ℕ) : 0 ∉ fs.slotName i :=
  charsFrom_no_nul (fs.directory i).filename 0 nameLen

/-- A slot answers to its own name in full and to no other. -/
theorem answers_iff {name : List UInt8} (hnul : 0 ∉ name) (hlength : name.length < 2147483648)
    {i : ℕ} : fs.Answers name i ↔ name ≠ [] ∧ fs.slotName i = name := by
  have hstrlen : i32 (strlen name) = name.length := by
    rw [strlen_eq_length hnul]
    exact i32_of_range (by omega) (by omega)
  have hempty : (name.length : ℤ) = 0 ↔ name = [] := by
    rw [Int.natCast_eq_zero, List.length_eq_zero_iff]
  rw [FileSystem.Answers, hstrlen, hempty, not_or]
  constructor
  · rintro ⟨⟨hlong,hne⟩,hcmp⟩
    have hfits : name.length ≤ nameLen := by omega
    rw [strncmp, strncmpFrom_eq_zero_iff, charsFrom_cstring hnul hfits] at hcmp
    exact ⟨hne,hcmp⟩
  · rintro ⟨hne,rfl⟩
    have hfits := slotName_length_le fs i
    refine ⟨⟨by omega,hne⟩,?_⟩
    rw [strncmp, strncmpFrom_eq_zero_iff, charsFrom_cstring hnul hfits]
    rfl

/-- A name is found exactly when some slot holds it. -/
theorem readDentryByName_isSome {name : List UInt8} (hnul : 0 ∉ name)
    (hlength : name.length < 2147483648) :
    (fs.readDentryByName (some name)).isSome ↔
      name ≠ [] ∧ ∃ i < numDir, fs.slotName i = name := by
  rw [readDentryByName_eq, Option.isSome_map, List.find?_isSome]
  simp only [List.mem_range, decide_eq_true_eq, answers_iff hnul hlength]
  constructor
  · rintro ⟨i,hi,hne,hname⟩
    exact ⟨hne,i,hi,hname⟩
  · rintro ⟨hne,i,hi,hname⟩
    exact ⟨i,hi,hne,hname⟩

/-- The names found are those of the entries exactly when every other slot is without a name
or repeats one of theirs. -/
theorem lookupAgrees_iff (h₆₃ : fs.dirCount ≤ numDir)
    (hnames : ∀ j : ℕ, (j : ℤ) < fs.dirCount → fs.slotName j ≠ []) :
    LookupAgrees fs ↔ ∀ i < numDir, fs.slotName i = [] ∨
      ∃ j : ℕ, (j : ℤ) < fs.dirCount ∧ fs.slotName j = fs.slotName i := by
  have hlength : ∀ i, (fs.slotName i).length < 2147483648 := fun i =>
    (slotName_length_le fs i).trans_lt (by decide)
  have hnul := slotName_no_nul fs
  constructor
  · intro h i hi
    by_cases hempty : fs.slotName i = []
    · exact Or.inl hempty
    · have hfound := (readDentryByName_isSome (hnul i) (hlength i)).mpr ⟨hempty,i,hi,rfl⟩
      exact Or.inr ((h _ (hnul i) (hlength i)).mp hfound)
  · intro h name hname hshort
    rw [readDentryByName_isSome hname hshort]
    constructor
    · rintro ⟨hne,i,hi,rfl⟩
      exact (h i hi).resolve_left hne
    · rintro ⟨j,hj,rfl⟩
      exact ⟨hnames j hj,j,by omega,rfl⟩

/-- The listing of a fresh descriptor is complete and agrees with lookup exactly when the
inode count is above the directory count, the slot after the last entry has no name, every
entry has a NUL in it, and the other slots have no names but those of entries. -/
theorem directory_iff (hfd : fileStart ≤ fd) (hfd' : fd < maxFile) (h₀ : 0 ≤ fs.dirCount)
    (h₆₃ : fs.dirCount ≤ numDir) (hk : (k.des fd.toNat).filePosition = 0)
    (hnames : ∀ j : ℕ, (j : ℤ) < fs.dirCount → fs.slotName j ≠ [])
    (hdistinct : ∀ i j : ℕ, (i : ℤ) < fs.dirCount → (j : ℤ) < fs.dirCount →
      fs.slotName i = fs.slotName j → i = j) :
    Listing fs fd k ∧ LookupAgrees fs ↔
      fs.dirCount < u32 fs.inodeCount ∧ fs.slotName fs.dirCount.toNat = [] ∧
        (∀ j : ℕ, (j : ℤ) < fs.dirCount → ¬fs.Overlong j) ∧
        ∀ i < numDir, fs.slotName i = [] ∨
          ∃ j : ℕ, (j : ℤ) < fs.dirCount ∧ fs.slotName j = fs.slotName i := by
  rw [listing_iff hfd hfd' h₀ h₆₃ hk hnames hdistinct, lookupAgrees_iff h₆₃ hnames, and_assoc,
    and_assoc]

/-- A directory with the one entry `a`, and some number of inodes. -/
def oneEntryImage (inodes : UInt8) : FileSystem where
  mem a := if a = 0 then 1 else if a = 4 then inodes else if a = 64 then 97 else 0
  modStart := 0

/-- The directory has just been opened on every descriptor. -/
def freshKernel : Kernel :=
  staticStorage (fun _ =>
    { fileDesArray := fun _ => ⟨.directoryOps,0,0,1⟩
      pidNum := 0, thisEsp := 0, thisEbp := 0, haltStat := 0, parentPidNum := 0, parEsp := 0
      parEbp := 0, args := fun _ => 0 }) fun _ => 0

/-- Two calls of directory_read with room for every name. -/
def twoCalls : List (ℤ × Cpu) := List.replicate 2 (32,⟨0,0,fun _ => 0⟩)

/-- With as many inodes as entries the call after the last entry is an error. -/
theorem oneEntryImage_not_listed :
    ((directoryReads (oneEntryImage 1) 2).trace freshKernel twoCalls).map (·.out) =
        [.done 1 [97,0],.done (-1) []] ∧
      (oneEntryImage 1).dirCount = 1 ∧ (oneEntryImage 1).inodeCount = 1 ∧
      (oneEntryImage 1).slotName 0 = [97] ∧
      ¬(Listing (oneEntryImage 1) 2 freshKernel ∧ LookupAgrees (oneEntryImage 1)) := by
  have hout : ((directoryReads (oneEntryImage 1) 2).trace freshKernel twoCalls).map (·.out) =
      [.done 1 [97,0],.done (-1) []] := by decide +kernel
  have hdir : (oneEntryImage 1).dirCount = 1 := by decide +kernel
  refine ⟨hout,hdir,by decide +kernel,by decide +kernel,?_⟩
  rintro ⟨hlisting,-⟩
  have hroomy : ∀ c ∈ twoCalls, Roomy c := by
    intro c hc
    rw [List.eq_of_mem_replicate hc]
    exact ⟨le_rfl,by decide⟩
  have hsecond : (((directoryReads (oneEntryImage 1) 2).trace freshKernel twoCalls).map
      (·.out))[1]? = some (.done (-1) []) := by rw [hout]; rfl
  rw [List.getElem?_map] at hsecond
  obtain ⟨m,hm,hvalue⟩ := Option.map_eq_some_iff.mp hsecond
  obtain ⟨bytes,hzero⟩ := (hlisting twoCalls hroomy 1 m hm).2 (by simp [hdir])
  simp [hvalue] at hzero

theorem directory_iff_oneEntry :
    Listing (oneEntryImage 2) 2 freshKernel ∧ LookupAgrees (oneEntryImage 2) := by
  have hdir : (oneEntryImage 2).dirCount = 1 := by decide +kernel
  have hfirst : ∀ j : ℕ, (j : ℤ) < (oneEntryImage 2).dirCount → j = 0 := by
    intro j hj
    omega
  apply (directory_iff (by decide) (by decide) (by decide +kernel) (by decide +kernel)
    rfl ?_ ?_).mpr
  · have hothers : ∀ i < numDir, (oneEntryImage 2).slotName i = [] ∨ i = 0 := by decide +kernel
    refine ⟨by decide +kernel,by decide +kernel,?_,?_⟩
    · intro j hj
      rw [hfirst j hj]
      decide +kernel
    intro i hi
    obtain hempty | rfl := hothers i hi
    · exact Or.inl hempty
    · exact Or.inr ⟨0,by decide +kernel,rfl⟩
  · intro j hj
    rw [hfirst j hj]
    decide +kernel
  · intro i j hi hj _
    rw [hfirst i hi, hfirst j hj]

end GameOfThreads
