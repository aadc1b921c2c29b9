import GameOfThreads.Machine.PageTable
import GameOfThreads.ProcessInvariants
import GameOfThreads.VideoWindow

/-! The page tables: what init_paging stores, the three routines that change an entry later,
and the tables that a state of the kernel stands for. -/
namespace GameOfThreads
open Machine

def fPresent : ℕ := 0x01
def fWE : ℕ := 0x02
def fUsr : ℕ := 0x04
def fMB4Pg : ℕ := 0x80
def pdirEnt : ℕ := 1024
def userEnt : ℕ := 32
def vidPage : ℕ := 33
def videoInd : ℕ := 184

/-- Where the linker has put the arrays: on pages of their own in the image of the kernel. -/
structure PageArrays where
  pageTabArray : ℕ
  pageTabArrayVideo : ℕ
  aligned : pageTabArray % pagesSize = 0
  alignedVideo : pageTabArrayVideo % pagesSize = 0
  apart : pageTabArray ≠ pageTabArrayVideo
  image : fourMB ≤ pageTabArray ∧ pageTabArray+pagesSize ≤ eightMB
  imageVideo : fourMB ≤ pageTabArrayVideo ∧ pageTabArrayVideo+pagesSize ≤ eightMB

namespace PageArrays
variable (A : PageArrays)

/-- The frames that the two tables fill. -/
def tab : ℕ := A.pageTabArray/pagesSize
def video : ℕ := A.pageTabArrayVideo/pagesSize

theorem tab_ne_video : A.tab ≠ A.video := by
  have := A.aligned
  have := A.alignedVideo
  have := A.apart
  unfold tab video
  unfold pagesSize at *
  omega

end PageArrays

/-- The stores of init_paging. -/
def initTables (A : PageArrays) (M : PageMap) : PageMap :=
  let M := (List.range pdirEnt).foldl (fun M i =>
    let M := M.setDirectory i fWE
    let M := M.setTable A.tab i ((i <<< 12) ||| fWE)
    M.setTable A.video i 0) M
  let M := M.setDirectory 0 ((A.pageTabArray &&& 0xFFFFF000) ||| fPresent)
  let M := M.setDirectory 1 (fourMB ||| fPresent ||| fMB4Pg ||| fWE)
  let M := M.setTable A.tab videoInd (videoAddr ||| fPresent ||| fWE)
  let M := M.setDirectory vidPage (A.pageTabArrayVideo ||| fWE ||| fPresent ||| fUsr)
  M.setTable A.video 0 (videoAddr ||| fWE ||| fPresent ||| fUsr)

/-- The routines that store to the tables, and what else happens to the memory unit. -/
inductive PagingCall
  | setPageExecute (pid : ℕ)
  | mapTermToBuf (term : ℕ)
  | mapTermToVid (term : ℕ)
  | access (acc : Access) (a : ℕ)
  | evict (page : ℕ)

/-- The stores alone. -/
def PagingCall.stores (A : PageArrays) (M : PageMap) : PagingCall → PageMap
  | .setPageExecute pid => M.setDirectory userEnt (userEntry pid)
  | .mapTermToBuf term => M.setTable A.video term (bufferEntry term)
  | .mapTermToVid term => M.setTable A.video term videoEntry
  | _ => M

/-- A processor that walks the tables at every access. -/
def tables (A : PageArrays) : System PageMap PagingCall (Option ℕ) where
  step M
    | .access acc a => (M.translate acc a,M)
    | call => (none,call.stores A M)

/-- The processor with its buffer of translations; each routine ends with flush_tlb. -/
def mmu (A : PageArrays) : System Mmu PagingCall (Option ℕ) where
  step u
    | .access acc a => u.access acc a
    | .evict page => (none,u.evict page)
    | call => (none,(u.change fun M => call.stores A M).flush)

/-- init_paging loads the base of the directory after its stores. -/
def initPaging (A : PageArrays) (u : Mmu) : Mmu := (u.change (initTables A)).flush

/-- The two processors agree on an access, and go on in step. -/
theorem mmu_step (A : PageArrays) {u : Mmu} (h : u.Current) (call : PagingCall) :
    (mmu A).out u call = (tables A).out u.map call ∧
      ((mmu A).next u call).map = (tables A).next u.map call ∧ ((mmu A).next u call).Current := by
  cases call with
  | access acc a => exact ⟨(h.access acc a).1,rfl,(h.access acc a).2⟩
  | evict page => exact ⟨rfl,rfl,h.evict page⟩
  | setPageExecute pid => exact ⟨rfl,rfl,Mmu.flush_current _⟩
  | mapTermToBuf term => exact ⟨rfl,rfl,Mmu.flush_current _⟩
  | mapTermToVid term => exact ⟨rfl,rfl,Mmu.flush_current _⟩

/-- From init_paging on, whatever the buffer held before and keeps or drops later, every
access between the calls goes where the tables say at that moment. -/
theorem accesses_current (A : PageArrays) (u : Mmu) (calls : List PagingCall) :
    ((mmu A).trace (initPaging A u) calls).map Move.out =
      ((tables A).trace (initTables A u.map) calls).map Move.out := by
  refine System.outputs_eq (R := fun (u : Mmu) M => u.map = M ∧ u.Current) ?_
    ⟨rfl,Mmu.flush_current _⟩ calls
  rintro u _ call ⟨rfl,hcurrent⟩
  obtain ⟨hout,hmap,hnext⟩ := mmu_step A hcurrent call
  exact ⟨hout,hmap,hnext⟩

/-! ### The entries -/

theorem or_flags {n : ℕ} (h : n % pagesSize = 0) {flags : ℕ} (hflags : flags < pagesSize) :
    n ||| flags = n+flags := by
  obtain ⟨m,rfl⟩ := Nat.dvd_of_mod_eq_zero h
  exact (Nat.two_pow_add_eq_or_of_lt (i := 12) hflags m).symm

theorem and_frame {n : ℕ} (h : n % pagesSize = 0) (hn : n < 4294967296) :
    n &&& 0xFFFFF000 = n := by
  apply Nat.eq_of_testBit_eq
  intro i
  rw [Nat.testBit_and]
  by_cases hlow : i < 12
  · have hbit : n.testBit i = false := by
      obtain ⟨m,rfl⟩ := Nat.dvd_of_mod_eq_zero h
      rw [show pagesSize*m = 2^12*m from rfl, Nat.testBit_two_pow_mul]
      simp
      omega
    rw [hbit, Bool.false_and]
  · by_cases hhigh : i < 32
    · have hmask : Nat.testBit 0xFFFFF000 i = true := by interval_cases i <;> decide
      rw [hmask, Bool.and_true]
    · have hbit : n.testBit i = false := by
        apply Nat.testBit_lt_two_pow
        exact hn.trans_le (Nat.pow_le_pow_right (n := 2) (i := 32) (by decide) (by omega))
      rw [hbit, Bool.false_and]

/-- The entries that the loop has reached. -/
def Cleared (A : PageArrays) (n : ℕ) (M : PageMap) : Prop :=
  ∀ i < n, M.directory i = 2 ∧ M.table A.tab i = i*pagesSize+2 ∧ M.table A.video i = 0

theorem cleared_loop (A : PageArrays) (M : PageMap) :
    Cleared A pdirEnt ((List.range pdirEnt).foldl (fun M i =>
      let M := M.setDirectory i fWE
      let M := M.setTable A.tab i ((i <<< 12) ||| fWE)
      M.setTable A.video i 0) M) := by
  refine foldl_range_rule (P := Cleared A) (fun i hi => absurd hi (by omega)) _ ?_
  intro n _ M hM i hi
  have hentry : (n <<< 12) ||| fWE = n*pagesSize+2 := by
    rw [Nat.shiftLeft_eq]
    exact or_flags (Nat.mul_mod_left ..) (by decide)
  have hapart := A.tab_ne_video
  simp only [PageMap.setDirectory, PageMap.setTable, Function.update_self,
    Function.update_of_ne hapart, Function.update_of_ne hapart.symm, hentry]
  by_cases hin : i = n
  · subst hin
    simp only [Function.update_self]
    exact ⟨rfl,trivial,trivial⟩
  · simp only [Function.update_of_ne hin]
    exact hM i (by omega)

/-- The entries that init_paging leaves. -/
structure Initial (A : PageArrays) (M : PageMap) : Prop where
  directory : ∀ i < pdirEnt, M.directory i =
    if i = 0 then A.pageTabArray+1 else if i = 1 then fourMB+0x83
    else if i = vidPage then A.pageTabArrayVideo+7 else 2
  tab : ∀ i < pdirEnt, M.table A.tab i =
    if i = videoInd then videoAddr+3 else i*pagesSize+2
  video : ∀ i < pdirEnt, M.table A.video i = if i = 0 then videoEntry else 0

theorem initTables_initial (A : PageArrays) (M : PageMap) : Initial A (initTables A M) := by
  have hloop := cleared_loop A M
  have hapart := A.tab_ne_video
  have hlow : (A.pageTabArray &&& 0xFFFFF000) ||| fPresent = A.pageTabArray+1 := by
    have himage := A.image.2
    unfold eightMB at himage
    rw [and_frame A.aligned (by omega)]
    exact or_flags A.aligned (by decide)
  have hvid : A.pageTabArrayVideo ||| fWE ||| fPresent ||| fUsr = A.pageTabArrayVideo+7 := by
    rw [Nat.or_assoc, Nat.or_assoc]
    exact or_flags A.alignedVideo (by decide)
  simp only [initTables, hlow, hvid]
  generalize (List.range pdirEnt).foldl _ M = M' at *
  constructor
  · intro i hi
    obtain ⟨hdir,-,-⟩ := hloop i hi
    simp only [PageMap.setDirectory, PageMap.setTable, Function.update_apply, hdir]
    split_ifs <;> first | rfl | (unfold vidPage at *; omega)
  · intro i hi
    obtain ⟨-,htab,-⟩ := hloop i hi
    simp only [PageMap.setDirectory, PageMap.setTable, Function.update_self,
      Function.update_of_ne hapart, Function.update_apply, htab]
    split_ifs <;> rfl
  · intro i hi
    obtain ⟨-,-,hvideo⟩ := hloop i hi
    simp only [PageMap.setDirectory, PageMap.setTable, Function.update_self,
      Function.update_of_ne hapart.symm, Function.update_apply, hvideo]
    split_ifs <;> rfl

/-! ### The tables of a state -/

/-- What changes after init_paging is the user entry of the directory and the second table. -/
def Kernel.pageMap (A : PageArrays) (k : Kernel) : PageMap :=
  let M := initTables A ⟨fun _ => 0,fun _ _ => 0⟩
  { directory := Function.update M.directory userEnt k.pageDirUser
    table := Function.update M.table A.video k.video.pageTabArrayVideo }

theorem setPageExecute_pageMap (A : PageArrays) (pid : ℕ) (k : Kernel) :
    (setPageExecute pid k).pageMap A =
      PagingCall.stores A (k.pageMap A) (.setPageExecute pid) := by
  simp only [Kernel.pageMap, setPageExecute, PagingCall.stores, PageMap.setDirectory,
    Function.update_idem]

theorem setPage_pageMap (A : PageArrays) (term entry : ℕ) (k : Kernel) :
    Kernel.pageMap A { k with video := k.video.setPage term entry } =
      (k.pageMap A).setTable A.video term entry := by
  simp only [Kernel.pageMap, Video.setPage, PageMap.setTable, Function.update_self,
    Function.update_idem]

section
variable (A : PageArrays) (k : Kernel) {page : ℕ}

theorem pageMap_directory {i : ℕ} (hi : i < pdirEnt) : (k.pageMap A).directory i =
    if i = userEnt then k.pageDirUser else if i = 0 then A.pageTabArray+1
    else if i = 1 then fourMB+0x83 else if i = vidPage then A.pageTabArrayVideo+7 else 2 := by
  rw [← (initTables_initial A ⟨fun _ => 0,fun _ _ => 0⟩).directory i hi, ← Function.update_apply]
  rfl

theorem pageMap_tab {i : ℕ} (hi : i < pdirEnt) : (k.pageMap A).table A.tab i =
    if i = videoInd then videoAddr+3 else i*pagesSize+2 := by
  rw [← (initTables_initial A ⟨fun _ => 0,fun _ _ => 0⟩).tab i hi]
  exact congrFun (Function.update_of_ne A.tab_ne_video _ _) i

theorem pageMap_video (i : ℕ) : (k.pageMap A).table A.video i = k.video.pageTabArrayVideo i :=
  congrFun (Function.update_self ..) i

/-- The first 4 MB hold nothing but the adapter, which is the kernel's. -/
theorem walk_low (hpage : page/1024 = 0) :
    (k.pageMap A).walk page = if page = videoInd then some ⟨videoInd,false,false⟩ else none := by
  have hindex : page/1024 % 1024 = 0 := by omega
  have halign := A.aligned
  have hentry := pageMap_directory A k (i := page/1024 % 1024) (Nat.mod_lt _ (by decide))
  rw [hindex, if_neg (by decide), if_pos rfl] at hentry
  have hlow := pageMap_tab A k (i := page % 1024) (Nat.mod_lt _ (by decide))
  have hplace : (A.pageTabArray+1)/smallPage = A.tab := by
    unfold PageArrays.tab
    unfold pagesSize smallPage at *
    omega
  have hin : page % 1024 = page := by omega
  unfold pagesSize at halign
  rw [PageMap.walk_small (hindex ▸ hentry) (by omega) (by omega) (by rw [hplace, hlow]), hin]
  by_cases hvideo : page = videoInd
  · subst hvideo
    have huser : (A.pageTabArray+1)/4 % 2 = 0 := by omega
    have hwrite : (A.pageTabArray+1)/2 % 2 = 0 := by omega
    simp only [if_true, huser, hwrite]
    rfl
  · have habsent : (page*pagesSize+2) % 2 = 0 := by
      unfold pagesSize
      omega
    rw [if_neg hvideo, if_neg hvideo, if_pos habsent]

/-- The next 4 MB are the kernel, in place. -/
theorem walk_kernel (hpage : page/1024 = 1) :
    (k.pageMap A).walk page = some ⟨page,false,true⟩ := by
  have hindex : page/1024 % 1024 = 1 := by omega
  have hentry := pageMap_directory A k (i := page/1024 % 1024) (Nat.mod_lt _ (by decide))
  rw [hindex, if_neg (by decide), if_neg (by decide), if_pos rfl] at hentry
  rw [PageMap.walk_large (hindex ▸ hentry) (by decide) (by decide)]
  have hframe : (fourMB+0x83)/largePage*1024+page % 1024 = page := by
    unfold fourMB largePage
    omega
  rw [hframe]
  rfl

/-- The 4 MB from 128 MB on are the frame of a process. -/
theorem walk_user {p : ℕ} (hp : p < maxNumProc) (huser : k.pageDirUser = userEntry p)
    (hpage : page/1024 = userEnt) :
    (k.pageMap A).walk page = some ⟨(2+p)*1024+page % 1024,true,true⟩ := by
  have hindex : page/1024 % 1024 = userEnt := by
    unfold userEnt at *
    omega
  have hentry := pageMap_directory A k (i := page/1024 % 1024) (Nat.mod_lt _ (by decide))
  rw [hindex, if_pos rfl, huser, userEntry_eq hp] at hentry
  unfold maxNumProc at hp
  unfold eightMB fourMB at hentry
  rw [PageMap.walk_large (hindex ▸ hentry) (by omega) (by omega)]
  have hframe : (0x800000+0x400000*p+0x87)/largePage = 2+p := by
    unfold largePage
    omega
  have hflag : (0x800000+0x400000*p+0x87)/4 % 2 = 1 := by omega
  have hwrite : (0x800000+0x400000*p+0x87)/2 % 2 = 1 := by omega
  simp only [hframe, hflag, hwrite, decide_true]

/-- The 4 MB after these are the pages of the second table. -/
theorem walk_window (hpage : page/1024 = vidPage) :
    (k.pageMap A).walk page = if k.video.pageTabArrayVideo (page % 1024) % 2 = 0 then none
      else some ⟨k.video.pageTabArrayVideo (page % 1024)/pagesSize,
        k.video.pageTabArrayVideo (page % 1024)/4 % 2 = 1,
        k.video.pageTabArrayVideo (page % 1024)/2 % 2 = 1⟩ := by
  have hindex : page/1024 % 1024 = vidPage := by
    unfold vidPage at *
    omega
  have halign := A.alignedVideo
  have hentry := pageMap_directory A k (i := page/1024 % 1024) (Nat.mod_lt _ (by decide))
  rw [hindex, if_neg (by decide), if_neg (by decide), if_neg (by decide), if_pos rfl] at hentry
  have hplace : (A.pageTabArrayVideo+7)/smallPage = A.video := by
    unfold PageArrays.video
    unfold pagesSize smallPage at *
    omega
  unfold pagesSize at halign
  rw [PageMap.walk_small (hindex ▸ hentry) (by omega) (by omega)
    (by rw [hplace, pageMap_video])]
  have huser : (A.pageTabArrayVideo+7)/4 % 2 = 1 := by omega
  have hwrite : (A.pageTabArrayVideo+7)/2 % 2 = 1 := by omega
  simp only [huser, hwrite, true_and]
  rfl

/-- Nothing else is mapped. -/
theorem walk_rest (hpage : page < 1024*1024) (h₀ : page/1024 ≠ 0) (h₁ : page/1024 ≠ 1)
    (huser : page/1024 ≠ userEnt) (hvideo : page/1024 ≠ vidPage) :
    (k.pageMap A).walk page = none := by
  have hindex : page/1024 % 1024 = page/1024 := by omega
  apply PageMap.walk_absent
  rw [pageMap_directory A k (i := page/1024 % 1024) (Nat.mod_lt _ (by decide)), hindex,
    if_neg huser, if_neg h₀, if_neg h₁, if_neg hvideo]

end

/-- The user page is open to everything. -/
theorem user_page (A : PageArrays) {k : Kernel} {p a : ℕ} (acc : Access) (hp : p < maxNumProc)
    (huser : k.pageDirUser = userEntry p) (ha : a/fourMB = userEnt) :
    (k.pageMap A).translate acc a = some (eightMB+fourMB*p+a % fourMB) := by
  have hindex : a/smallPage/1024 = a/fourMB := Nat.div_div_eq_div_mul ..
  have hwalk := walk_user A k hp huser (hindex.trans ha)
  rw [PageMap.translate_of_walk hwalk (by simp [Mapping.allows])]
  exact congrArg some (show ((2+p)*1024+a/0x1000 % 1024)*0x1000+a % 0x1000 =
    0x800000+0x400000*p+a % 0x400000 by omega)

/-- Outside the kernel and the user page the addresses of the screen routines are those of the
tables. -/
theorem translate_video (A : PageArrays) (k : Kernel) (write : Bool) {a : ℕ}
    (ha : a < 4294967296) (hkernel : a/fourMB ≠ 1) (huser : a/fourMB ≠ userEnt) :
    (k.pageMap A).translate ⟨false,write⟩ a = k.video.translate a := by
  have hindex : a/smallPage/1024 = a/fourMB := Nat.div_div_eq_div_mul ..
  by_cases hwindow : a/fourMB = vidPage
  · have hwalk := walk_window A k (hindex.trans hwindow)
    rw [Video.translate, if_pos (show a/fourMB = 33 from hwindow)]
    have hpage : a/smallPage % 1024 = a/pagesSize % 1024 := rfl
    rw [hpage] at hwalk
    dsimp only
    by_cases habsent : k.video.pageTabArrayVideo (a/pagesSize % 1024) % 2 = 0
    · rw [if_pos habsent] at hwalk
      rw [PageMap.translate_of_absent hwalk, if_neg (by omega)]
    · rw [if_neg habsent] at hwalk
      rw [PageMap.translate_of_walk hwalk rfl, if_pos (by omega)]
      rfl
  · rw [Video.translate, if_neg (show ¬a/fourMB = 33 from hwindow)]
    by_cases hlow : a/fourMB = 0
    · have hwalk := walk_low A k (hindex.trans hlow)
      have hpage : a/smallPage = a/pagesSize := rfl
      rw [hpage] at hwalk
      by_cases hadapter : a/pagesSize = 184
      · rw [if_pos (show a/pagesSize = videoInd from hadapter)] at hwalk
        rw [PageMap.translate_of_walk (hpage ▸ hwalk) rfl, if_pos hadapter]
        unfold pagesSize at hadapter
        exact congrArg some (show 184*0x1000+a % 0x1000 = a by omega)
      · rw [if_neg (show ¬a/pagesSize = videoInd from hadapter)] at hwalk
        rw [PageMap.translate_of_absent hwalk, if_neg hadapter]
    · have hpage : a/smallPage < 1024*1024 := by
        unfold smallPage
        omega
      have hrest : (k.pageMap A).walk (a/smallPage) = none :=
        walk_rest A k hpage (hindex ▸ hlow) (hindex ▸ hkernel) (hindex ▸ huser)
          (hindex ▸ hwindow)
      rw [PageMap.translate_of_absent hrest, if_neg]
      unfold fourMB at hlow
      unfold pagesSize
      omega

/-- The two tables on the first pages of the kernel. -/
def firstPages : PageArrays where
  pageTabArray := 0x400000
  pageTabArrayVideo := 0x401000
  aligned := rfl
  alignedVideo := rfl
  apart := by decide
  image := by decide
  imageVideo := by decide

end GameOfThreads
