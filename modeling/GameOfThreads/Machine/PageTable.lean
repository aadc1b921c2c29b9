import Mathlib.Logic.Function.Basic
import Mathlib.Data.Nat.Notation

/-! Two-level translation of addresses, with pages of 4 kB and of 4 MB, behind a buffer of the
translations met before. An entry is a number with its flags below the number of a frame. -/
namespace GameOfThreads.Machine

def smallPage : ℕ := 0x1000
def largePage : ℕ := 0x400000

/-- Who makes an access, and whether it is a store. -/
structure Access where
  user : Bool
  write : Bool
  deriving DecidableEq, Repr

/-- Where a page lies, and what user code may do with it. -/
structure Mapping where
  frame : ℕ
  user : Bool
  writable : Bool
  deriving DecidableEq, Repr

/-- The kernel may do everything: the flags bind user code only. -/
def Mapping.allows (acc : Access) (m : Mapping) : Bool :=
  !acc.user || m.user && (!acc.write || m.writable)

/-- The directory, and the tables by the numbers of the frames that they lie in. -/
structure PageMap where
  directory : ℕ → ℕ
  table : ℕ → ℕ → ℕ

namespace PageMap
variable (M : PageMap)

def setDirectory (i entry : ℕ) : PageMap :=
  { M with directory := Function.update M.directory i entry }

def setTable (frame i entry : ℕ) : PageMap :=
  { M with table := Function.update M.table frame (Function.update (M.table frame) i entry) }

/-- The way from a page through the directory and, for a small page, a table. -/
def walk (page : ℕ) : Option Mapping :=
  let entry := M.directory (page/1024 % 1024)
  if entry % 2 = 0 then none
  else if entry/128 % 2 = 1 then
    some ⟨entry/largePage*1024+page % 1024,entry/4 % 2 = 1,entry/2 % 2 = 1⟩
  else
    let low := M.table (entry/smallPage) (page % 1024)
    if low % 2 = 0 then none
    else some ⟨low/smallPage,entry/4 % 2 = 1 ∧ low/4 % 2 = 1,entry/2 % 2 = 1 ∧ low/2 % 2 = 1⟩

/-- The physical address that an access goes to, unless it faults. -/
def translate (acc : Access) (a : ℕ) : Option ℕ :=
  ((M.walk (a/smallPage)).filter (Mapping.allows acc)).map fun m =>
    m.frame*smallPage+a % smallPage

variable {M} {page : ℕ} {acc : Access}

theorem walk_absent (h : M.directory (page/1024 % 1024) % 2 = 0) : M.walk page = none := by
  simp only [walk, if_pos h]

theorem walk_large {entry : ℕ} (h : M.directory (page/1024 % 1024) = entry)
    (hpresent : entry % 2 = 1) (hlarge : entry/128 % 2 = 1) :
    M.walk page =
      some ⟨entry/largePage*1024+page % 1024,entry/4 % 2 = 1,entry/2 % 2 = 1⟩ := by
  have hhere : ¬entry % 2 = 0 := by omega
  simp only [walk, h, if_neg hhere, if_pos hlarge]

theorem walk_small {entry low : ℕ} (h : M.directory (page/1024 % 1024) = entry)
    (hpresent : entry % 2 = 1) (hsmall : entry/128 % 2 = 0)
    (hlow : M.table (entry/smallPage) (page % 1024) = low) :
    M.walk page = if low % 2 = 0 then none else some ⟨low/smallPage,
      entry/4 % 2 = 1 ∧ low/4 % 2 = 1,entry/2 % 2 = 1 ∧ low/2 % 2 = 1⟩ := by
  have hhere : ¬entry % 2 = 0 := by omega
  have hbelow : ¬entry/128 % 2 = 1 := by omega
  simp only [walk, h, if_neg hhere, if_neg hbelow, hlow]

theorem translate_eq_some {a p : ℕ} : M.translate acc a = some p ↔
    ∃ m, M.walk (a/smallPage) = some m ∧ m.allows acc ∧ m.frame*smallPage+a % smallPage = p := by
  simp [translate, Option.map_eq_some_iff, Option.filter_eq_some_iff, and_assoc]

theorem translate_of_walk {a : ℕ} {m : Mapping} (h : M.walk (a/smallPage) = some m)
    (hm : m.allows acc) : M.translate acc a = some (m.frame*smallPage+a % smallPage) :=
  translate_eq_some.mpr ⟨m,h,hm,rfl⟩

theorem translate_of_absent {a : ℕ} (h : M.walk (a/smallPage) = none) :
    M.translate acc a = none := by
  simp [translate, h]

/-- What user code reaches the kernel reaches as well, at the same place. -/
theorem translate_kernel {a p : ℕ} (h : M.translate acc a = some p) (write : Bool) :
    M.translate ⟨false,write⟩ a = some p := by
  obtain ⟨m,hm,-,rfl⟩ := translate_eq_some.mp h
  exact translate_of_walk hm rfl

end PageMap

/-! ### The buffer of translations -/

/-- Page tables, and the translations that the processor has kept. -/
structure Mmu where
  map : PageMap
  tlb : ℕ → Option Mapping

namespace Mmu
variable (u : Mmu)

/-- A translation kept is taken as it is; without one the tables are walked. -/
def lookup (page : ℕ) : Option Mapping :=
  match u.tlb page with
  | some m => some m
  | none => u.map.walk page

/-- An access, after which its translation may be kept. -/
def access (acc : Access) (a : ℕ) : Option ℕ × Mmu :=
  let m := u.lookup (a/smallPage)
  ((m.filter (Mapping.allows acc)).map fun m => m.frame*smallPage+a % smallPage,
    { u with tlb := Function.update u.tlb (a/smallPage) m })

/-- A translation is dropped, as the processor may do at any time. -/
def evict (page : ℕ) : Mmu := { u with tlb := Function.update u.tlb page none }

/-- A store to the tables: the translations kept stay. -/
def change (f : PageMap → PageMap) : Mmu := { u with map := f u.map }

/-- The base of the directory is loaded again: no translation is kept. -/
def flush : Mmu := { u with tlb := fun _ => none }

/-- The translations kept are those of the tables. -/
def Current : Prop := ∀ page m, u.tlb page = some m → u.map.walk page = some m

variable {u}

theorem Current.lookup (h : u.Current) (page : ℕ) : u.lookup page = u.map.walk page := by
  unfold Mmu.lookup
  cases hkept : u.tlb page with
  | none => rfl
  | some m => exact (h page m hkept).symm

theorem Current.evict (h : u.Current) (page : ℕ) : (u.evict page).Current := by
  intro page' m hm
  simp only [Mmu.evict] at hm ⊢
  by_cases hpage : page' = page
  · subst hpage
    rw [Function.update_self] at hm
    cases hm
  · rw [Function.update_of_ne hpage] at hm
    exact h page' m hm

/-- With current translations an access goes where the tables say, and stays current. -/
theorem Current.access (h : u.Current) (acc : Access) (a : ℕ) :
    (u.access acc a).1 = u.map.translate acc a ∧ (u.access acc a).2.Current := by
  simp only [Mmu.access, h.lookup]
  refine ⟨rfl,?_⟩
  intro page m hm
  dsimp only at hm ⊢
  by_cases hpage : page = a/smallPage
  · subst hpage
    rwa [Function.update_self] at hm
  · rw [Function.update_of_ne hpage] at hm
    exact h page m hm

theorem flush_current (u : Mmu) : u.flush.Current := by
  rintro page m ⟨⟩

@[simp] theorem access_map (acc : Access) (a : ℕ) : (u.access acc a).2.map = u.map := rfl
@[simp] theorem evict_map (page : ℕ) : (u.evict page).map = u.map := rfl
@[simp] theorem flush_map : u.flush.map = u.map := rfl
@[simp] theorem change_map (f : PageMap → PageMap) : (u.change f).map = f u.map := rfl

end Mmu
end GameOfThreads.Machine
