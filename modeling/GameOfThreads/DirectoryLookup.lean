import GameOfThreads.Directory

/-! The two readers of directory entries with the result that they write. A lookup by name
copies the 64 bytes of the first slot with that name; a read by index copies a string, which may
run on past the name, and then sets the two fields behind it. -/
namespace GameOfThreads
open Machine

/-- The copy of an entry over another. -/
def Dentry.copyTo (d result : Dentry) : Dentry :=
  ⟨fun j => if j < dentrySize then d.bytes j else result.bytes j⟩

/-- read_dentry_by_name with its result parameter. -/
def FileSystem.storeDentry (fs : FileSystem) (fname : Option (List UInt8)) (result : Dentry) :
    ℤ × Dentry :=
  match fs.readDentryByName fname with
  | some d => (0,d.copyTo result)
  | none => (-1,result)

/-- The characters of the name of an entry. -/
def Dentry.name (d : Dentry) : List UInt8 := charsFrom d.filename 0 nameLen

namespace Dentry
variable {d result : Dentry}

theorem copyTo_byte {j : ℕ} (hj : j < dentrySize) : (d.copyTo result).bytes j = d.bytes j :=
  if_pos hj

theorem word_congr {f g : ℕ → UInt8} {a : ℕ} (h : ∀ j, a ≤ j → j < a+4 → f j = g j) :
    word f a = word g a := by
  unfold word
  rw [h a le_rfl (by omega), h (a+1) (by omega) (by omega), h (a+2) (by omega) (by omega),
    h (a+3) (by omega) (by omega)]

/-- Two entries with the same first 40 bytes are the same to a reader of their fields. -/
theorem filetype_congr (h : ∀ j, 32 ≤ j → j < 40 → d.bytes j = result.bytes j) :
    d.filetype = result.filetype := by
  rw [filetype, filetype, word_congr fun j hlow hhigh => h j hlow (by omega)]

theorem inodeNum_congr (h : ∀ j, 32 ≤ j → j < 40 → d.bytes j = result.bytes j) :
    d.inodeNum = result.inodeNum := by
  rw [inodeNum, inodeNum, word_congr fun j hlow hhigh => h j (by omega) hhigh]

theorem copyTo_name : (d.copyTo result).name = d.name := by
  apply charsFrom_congr
  intro j hj
  unfold nameLen at hj
  exact copyTo_byte (show j < dentrySize by unfold dentrySize; omega)

end Dentry

/-- A directory whose only entry has a name of 32 bytes, without a terminator, and the file
type 2. -/
def longNameImage : FileSystem where
  mem a := if a = 4 then 1 else if 64 ≤ a ∧ a < 96 then 97 else if a = 96 then 2 else 0
  modStart := 0

theorem longNameImage_slots : longNameImage.slotName 0 = List.replicate 32 97 ∧
    ∀ i < numDir, i ≠ 0 → longNameImage.slotName i = [] := by decide +kernel

section
variable {fs : FileSystem} {name : List UInt8}

/-! ### By name -/

theorem storeDentry_some {d : Dentry} (h : fs.readDentryByName (some name) = some d)
    (result : Dentry) : fs.storeDentry (some name) result = (0,d.copyTo result) := by
  rw [FileSystem.storeDentry, h]

theorem storeDentry_none (h : fs.readDentryByName (some name) = none) (result : Dentry) :
    fs.storeDentry (some name) result = (-1,result) := by
  rw [FileSystem.storeDentry, h]

theorem storeDentry_value (result : Dentry) :
    (fs.storeDentry (some name) result).1 = 0 ↔ (fs.readDentryByName (some name)).isSome := by
  cases h : fs.readDentryByName (some name) with
  | none =>
    rw [storeDentry_none h]
    simp
  | some d =>
    rw [storeDentry_some h]
    simp

/-- The first slot with the name is the one found. -/
theorem storeDentry_first (hnul : 0 ∉ name) (hlength : name.length < 2147483648) (hne : name ≠ [])
    {i : ℕ} (hi : i < numDir) (hname : fs.slotName i = name)
    (hfirst : ∀ j < i, fs.slotName j ≠ name) (result : Dentry) :
    fs.storeDentry (some name) result = (0,(fs.directory i).copyTo result) := by
  have hfind : ((List.range numDir).find? fun i => fs.Answers name i) = some i := by
    rw [List.find?_range_eq_some]
    refine ⟨?_,List.mem_range.mpr hi,?_⟩
    · exact decide_eq_true ((answers_iff hnul hlength).mpr ⟨hne,hname⟩)
    · intro j hj
      have hnot : ¬fs.Answers name j := fun h => hfirst j hj ((answers_iff hnul hlength).mp h).2
      simpa using hnot
  apply storeDentry_some
  rw [readDentryByName_eq, hfind]
  rfl

/-- A lookup succeeds exactly for a name of 1 to 32 bytes that a slot holds in full. It then
gives the entry of the first such slot, and otherwise it leaves the result alone; a proper
prefix or extension of a stored name is not taken for it. -/
theorem lookup_exact (fs : FileSystem) {name : List UInt8} (hnul : 0 ∉ name)
    (hlength : name.length < 2147483648) (result : Dentry) :
    ((fs.storeDentry (some name) result).1 = 0 ↔
      1 ≤ name.length ∧ name.length ≤ nameLen ∧ ∃ i < numDir, fs.slotName i = name) ∧
    (∀ i < numDir, name ≠ [] → fs.slotName i = name → (∀ j < i, fs.slotName j ≠ name) →
      fs.storeDentry (some name) result = (0,(fs.directory i).copyTo result)) ∧
    ((fs.storeDentry (some name) result).1 ≠ 0 →
      fs.storeDentry (some name) result = (-1,result)) ∧
    ∀ i, (name <+: fs.slotName i ∨ fs.slotName i <+: name) → name ≠ fs.slotName i →
      ¬fs.Answers name i := by
  refine ⟨?_,?_,?_,?_⟩
  · rw [storeDentry_value, readDentryByName_isSome hnul hlength, ← List.length_pos_iff]
    constructor
    · rintro ⟨hpos,i,hi,rfl⟩
      exact ⟨hpos,slotName_length_le fs i,i,hi,rfl⟩
    · rintro ⟨hpos,-,hslot⟩
      exact ⟨hpos,hslot⟩
  · intro i hi hne hname hfirst
    exact storeDentry_first hnul hlength hne hi hname hfirst result
  · intro hfail
    rw [ne_eq, storeDentry_value, Option.not_isSome_iff_eq_none] at hfail
    exact storeDentry_none hfail result
  · intro i _ hne hanswers
    exact hne ((answers_iff hnul hlength).mp hanswers).2.symm

/-- The name of 32 bytes is found, and with one byte less it is not. -/
theorem lookup_exact_long :
    let result : Dentry := ⟨fun _ => 7⟩
    longNameImage.storeDentry (some (List.replicate 32 97)) result =
      (0,(longNameImage.directory 0).copyTo result) ∧
    longNameImage.storeDentry (some (List.replicate 31 97)) result = (-1,result) := by
  intro result
  obtain ⟨hfirst,hothers⟩ := longNameImage_slots
  have hfull : (0 : UInt8) ∉ List.replicate 32 97 := by decide
  have hshort : (0 : UInt8) ∉ List.replicate 31 97 := by decide
  obtain ⟨-,hfound,-,-⟩ := lookup_exact longNameImage hfull (by decide) result
  obtain ⟨hvalue,-,hfail,-⟩ := lookup_exact longNameImage hshort (by decide) result
  refine ⟨hfound 0 (by decide) (by decide) hfirst nofun,hfail ?_⟩
  rw [ne_eq, hvalue]
  rintro ⟨-,-,i,hi,hname⟩
  by_cases h : i = 0
  · rw [h, hfirst] at hname
    exact absurd hname (by decide)
  · rw [hothers i hi h] at hname
    exact absurd hname (by decide)

/-! ### By index -/

/-- With a file type of 0, 1 or 2 there is a NUL right behind the name and the type's first
byte. -/
theorem filetype_nul {d : Dentry} (h : d.filetype = 0 ∨ d.filetype = 1 ∨ d.filetype = 2) :
    d.bytes 33 = 0 := by
  have hbyte := (d.bytes 32).toNat_lt
  have hsecond := (d.bytes 33).toNat_lt
  have hthird := (d.bytes 34).toNat_lt
  have hfourth := (d.bytes 35).toNat_lt
  unfold Dentry.filetype word i32 at h
  simp only [Nat.reduceAdd] at h
  apply UInt8.toNat_inj.mp
  rw [UInt8.toNat_zero]
  split_ifs at h <;> omega

/-- A string copy writes no further than the first NUL of its source. -/
theorem strcpy_beyond (dest : ℕ → UInt8) {src : ℕ → UInt8} {n i : ℕ} (hnul : src n = 0)
    (hi : n < i) : strcpy dest src i = dest i := if_neg fun h => h n hi hnul

theorem readDentryByIndex_fields {i : ℕ} {d e : Dentry} (he : fs.readDentryByIndex i d = some e)
    {j : ℕ} (hlow : 32 ≤ j) (hhigh : j < 40) : e.bytes j = (fs.directory i).bytes j := by
  unfold FileSystem.readDentryByIndex at he
  split_ifs at he
  obtain rfl := Option.some.inj he
  exact if_pos ⟨hlow,hhigh⟩

/-- What lies behind the two fields stays. -/
theorem readDentryByIndex_rest {i : ℕ} {d e : Dentry} (he : fs.readDentryByIndex i d = some e)
    (htype : (fs.directory i).bytes 33 = 0) {j : ℕ} (hj : 40 ≤ j) : e.bytes j = d.bytes j := by
  unfold FileSystem.readDentryByIndex at he
  split_ifs at he
  obtain rfl := Option.some.inj he
  have hfields : ¬(32 ≤ j ∧ j < 40) := by omega
  have hname : strcpy d.bytes (fs.directory i).filename j = d.bytes j :=
    strcpy_beyond d.bytes htype (by omega)
  exact (if_neg hfields).trans hname

/-- An entry whose name no slot before it has is read by index as it is looked up by its name,
and the read by index writes nothing behind the inode number. -/
theorem readers_agree (fs : FileSystem)
    (htypes : ∀ j < numDir, (fs.directory j).filetype = 0 ∨ (fs.directory j).filetype = 1 ∨
      (fs.directory j).filetype = 2)
    {i : ℕ} (hi : i < numDir) (hcount : i < u32 fs.inodeCount) (hname : fs.slotName i ≠ [])
    (hfirst : ∀ j < i, fs.slotName j ≠ fs.slotName i) (d result : Dentry) :
    ∃ byIndex byName, fs.readDentryByIndex i d = some byIndex ∧
      fs.storeDentry (some (fs.slotName i)) result = (0,byName) ∧
      byIndex.name = byName.name ∧ byIndex.filetype = byName.filetype ∧
      byIndex.inodeNum = byName.inodeNum ∧ ∀ j, 40 ≤ j → byIndex.bytes j = d.bytes j := by
  obtain ⟨byIndex,hindex⟩ := readDentryByIndex_some d hcount
  have hlength : (fs.slotName i).length < 2147483648 :=
    (slotName_length_le fs i).trans_lt (by decide)
  have hlookup := storeDentry_first (slotName_no_nul fs i) hlength hname hi rfl hfirst result
  have hfields : ∀ j, 32 ≤ j → j < 40 →
      byIndex.bytes j = ((fs.directory i).copyTo result).bytes j := by
    intro j hlow hhigh
    have hsize : j < dentrySize := by
      unfold dentrySize
      omega
    rw [readDentryByIndex_fields hindex hlow hhigh, Dentry.copyTo_byte hsize]
  refine ⟨byIndex,(fs.directory i).copyTo result,hindex,hlookup,?_,?_,?_,?_⟩
  · rw [Dentry.copyTo_name]
    exact readDentryByIndex_name hindex
  · exact Dentry.filetype_congr hfields
  · exact Dentry.inodeNum_congr hfields
  · intro j hj
    exact readDentryByIndex_rest hindex (filetype_nul (htypes i hi)) hj

theorem readers_agree_long : ∃ byIndex byName,
    longNameImage.readDentryByIndex 0 ⟨fun _ => 7⟩ = some byIndex ∧
      longNameImage.storeDentry (some (longNameImage.slotName 0)) ⟨fun _ => 8⟩ = (0,byName) ∧
      byIndex.name = byName.name ∧ byIndex.filetype = byName.filetype ∧
      byIndex.inodeNum = byName.inodeNum ∧ ∀ j, 40 ≤ j → byIndex.bytes j = 7 := by
  have htypes : ∀ j < numDir, (longNameImage.directory j).filetype = 0 ∨
      (longNameImage.directory j).filetype = 1 ∨ (longNameImage.directory j).filetype = 2 := by
    decide +kernel
  have hname : longNameImage.slotName 0 ≠ [] := by
    rw [longNameImage_slots.1]
    decide
  exact readers_agree longNameImage htypes (by decide) (by decide +kernel) hname nofun _ _

end

end GameOfThreads
