import GameOfThreads.ProcessInvariants
import GameOfThreads.VideoWindow

/-! Memory that the kernel leaves alone. Its stores go through the window of the screens, or
into the frame of a process that is being loaded; whatever lies elsewhere keeps its bytes. -/
namespace GameOfThreads
open Machine

def adapterPage : Set ℕ := Set.Ico videoAddr (videoAddr+pagesSize)

/-- No byte of `A` is part of a screen. -/
structure OffScreen (A : Set ℕ) : Prop where
  adapter : Disjoint A adapterPage
  buffers : ∀ t < numTerm, Disjoint A (bufferPage t)

theorem frame_offScreen {p : ℕ} (hp : p < maxNumProc) : OffScreen (frame p) where
  adapter := by
    apply disjoint_Ico
    unfold maxNumProc at hp
    unfold eightMB fourMB videoAddr pagesSize
    omega
  buffers t _ := frame_bufferPage hp t

namespace Video

/-- Every entry of the window is absent, or maps a screen. -/
def Safe (v : Video) : Prop := ∀ i, v.pageTabArrayVideo i = 0 ∨
  v.pageTabArrayVideo i = videoEntry ∨ ∃ t < numTerm, v.pageTabArrayVideo i = bufferEntry t

/-- A safe window stays safe, and the bytes of `A` stay as they are. -/
def Spares (A : Set ℕ) (v v' : Video) : Prop := v.Safe → v'.Safe ∧ Set.EqOn v'.phys v.phys A

section
variable {A : Set ℕ} {v v' v'' : Video}

theorem Spares.refl (v : Video) : v.Spares A v := fun h => ⟨h,fun _ _ => rfl⟩

theorem Spares.trans (h : v.Spares A v') (h' : v'.Spares A v'') : v.Spares A v'' := by
  intro hsafe
  obtain ⟨hsafe',hphys⟩ := h hsafe
  obtain ⟨hsafe'',hphys'⟩ := h' hsafe'
  exact ⟨hsafe'',fun a ha => (hphys' ha).trans (hphys ha)⟩

theorem Spares.foldl {α : Type*} {g : Video → α → Video} (h : ∀ (v : Video) a, v.Spares A (g v a))
    (l : List α) (v : Video) : v.Spares A (l.foldl g v) := by
  induction l generalizing v with
  | nil => exact .refl v
  | cons a l ih => exact (h v a).trans (ih _)

theorem bufferEntry_eq {t : ℕ} (ht : t < numTerm) : bufferEntry t = mem32+t*pagesSize+7 := by
  unfold numTerm at ht
  interval_cases t <;> decide

/-- A safe window leads to the screens only. -/
theorem Safe.translate (h : v.Safe) {a p : ℕ} (hp : v.translate a = some p) :
    p ∈ adapterPage ∨ ∃ t < numTerm, p ∈ bufferPage t := by
  have hoffset : a % pagesSize < pagesSize := Nat.mod_lt _ (by decide)
  unfold Video.translate at hp
  split_ifs at hp with hwindow hadapter
  · simp only at hp
    split_ifs at hp with hpresent
    cases hp
    rcases h (a/pagesSize % 1024) with habsent | hvideo | ⟨t,ht,hbuffer⟩
    · rw [habsent] at hpresent
      cases hpresent
    · left
      have hframe : videoEntry/pagesSize*pagesSize = videoAddr := by decide
      rw [hvideo, hframe]
      exact ⟨Nat.le_add_right ..,Nat.add_lt_add_left hoffset _⟩
    · right
      refine ⟨t,ht,?_⟩
      have hframe : bufferEntry t/pagesSize*pagesSize = mem32+t*pagesSize := by
        rw [bufferEntry_eq ht]
        unfold mem32 pagesSize
        omega
      rw [hbuffer, hframe]
      exact ⟨Nat.le_add_right ..,Nat.add_lt_add_left hoffset _⟩
  · cases hp
    left
    unfold pagesSize at hadapter
    constructor
    · unfold videoAddr
      omega
    · unfold videoAddr pagesSize
      omega

/-- A store that lands outside of `A`. -/
theorem poke_spares {p : ℕ} (hp : p ∉ A) (b : UInt8) (v : Video) :
    v.Spares A { v with phys := Function.update v.phys p b } := by
  intro hsafe
  refine ⟨hsafe,?_⟩
  intro a ha
  apply Function.update_of_ne
  rintro rfl
  exact hp ha

theorem store_spares (hA : OffScreen A) (a : ℕ) (b : UInt8) (v : Video) :
    v.Spares A (v.store a b) := by
  intro hsafe
  unfold Video.store
  cases hp : v.translate a with
  | none => exact ⟨hsafe,fun _ _ => rfl⟩
  | some p =>
    refine poke_spares ?_ b v hsafe
    intro hin
    rcases hsafe.translate hp with hadapter | ⟨t,ht,hbuffer⟩
    · exact Set.disjoint_left.mp hA.adapter hin hadapter
    · exact Set.disjoint_left.mp (hA.buffers t ht) hin hbuffer

theorem storeCell_spares (hA : OffScreen A) (base index : ℕ) (c color : UInt8) (v : Video) :
    v.Spares A (v.storeCell base index c color) :=
  (store_spares hA _ c v).trans (store_spares hA _ color _)

theorem copyCell_spares (hA : OffScreen A) (base up low : ℕ) (v : Video) :
    v.Spares A (v.copyCell base up low) :=
  (store_spares hA _ _ v).trans (store_spares hA _ _ _)

theorem scrollRows_spares (hA : OffScreen A) (base : ℕ) (v : Video) :
    v.Spares A (v.scrollRows base) :=
  .foldl (fun v _ => .foldl (fun v _ => copyCell_spares hA _ _ _ v) _ v) _ v

theorem clearLastRow_spares (hA : OffScreen A) (base : ℕ) (color : UInt8) (v : Video) :
    v.Spares A (v.clearLastRow base color) :=
  .foldl (fun v _ => storeCell_spares hA _ _ _ _ v) _ v

theorem clearCells_spares (hA : OffScreen A) (base : ℕ) (color : UInt8) (v : Video) :
    v.Spares A (v.clearCells base color) :=
  .foldl (fun v _ => storeCell_spares hA _ _ _ _ v) _ v

theorem memcpy_spares (hA : OffScreen A) (dest src n : ℕ) (v : Video) :
    v.Spares A (v.memcpy dest src n) :=
  .foldl (fun v _ => store_spares hA _ _ v) _ v

theorem setPage_spares {entry : ℕ} (hentry : entry = videoEntry ∨ ∃ t < numTerm,
    entry = bufferEntry t) (term : ℕ) (v : Video) : v.Spares A (v.setPage term entry) := by
  intro hsafe
  refine ⟨?_,fun _ _ => rfl⟩
  intro i
  dsimp only [Video.setPage]
  by_cases hi : i = term
  · subst hi
    rw [Function.update_self]
    exact .inr hentry
  · rw [Function.update_of_ne hi]
    exact hsafe i

/-- The bytes of a program go into the frame that is mapped, and past its end to the screens. -/
theorem loadProgram_spares (hA : OffScreen A) {pid : ℕ} (hpid : pid < maxNumProc)
    (hframe : Disjoint A (frame pid)) (bytes : List UInt8) (v : Video) :
    v.Spares A (v.loadProgram (userEntry pid) bytes) := by
  refine .foldl (fun v i => ?_) _ v
  simp only
  split_ifs with hpage
  · apply poke_spares
    intro hin
    refine Set.disjoint_left.mp hframe hin ?_
    have hbase : userEntry pid/fourMB*fourMB = eightMB+fourMB*pid := by
      rw [userEntry_eq hpid]
      unfold eightMB fourMB
      omega
    have hoffset : (progImageLocation+i) % fourMB < fourMB := Nat.mod_lt _ (by decide)
    rw [hbase]
    exact ⟨Nat.le_add_right ..,Nat.add_lt_add_left hoffset _⟩
  · exact store_spares hA _ _ v

end
end Video

theorem exchangeScreens_spares {A : Set ℕ} (hA : OffScreen A) {cur : ℕ} (hcur : cur < numTerm)
    (dest : ℕ) (k : Kernel) : k.video.Spares A (exchangeScreens cur dest k) := by
  simp only [exchangeScreens, mapTermToBuf, mapTermToVid]
  have hbuffer := Video.setPage_spares (A := A) (.inr ⟨cur,hcur,rfl⟩) cur k.video
  have hsave := hbuffer.trans (Video.memcpy_spares hA (k.terminal cur).termVideoMem videoAddr
    pagesSize _)
  have hload := hsave.trans (Video.memcpy_spares hA videoAddr (k.terminal dest).termVideoMem
    pagesSize _)
  exact hload.trans (Video.setPage_spares (.inl rfl) dest _)

/-! ### The routines -/

/-- With the terminals on, a safe window stays safe, and the bytes of `A` stay as they are. -/
def Spares (A : Set ℕ) (k k' : Kernel) : Prop :=
  k.termsOn = 1 → k'.termsOn = 1 ∧ k.video.Spares A k'.video

namespace Spares
variable {A : Set ℕ} {k k' k'' : Kernel}

theorem refl (k : Kernel) : Spares A k k := fun hon => ⟨hon,.refl _⟩

theorem trans (h : Spares A k k') (h' : Spares A k' k'') : Spares A k k'' := by
  intro hon
  obtain ⟨hon',hvideo⟩ := h hon
  obtain ⟨hon'',hvideo'⟩ := h' hon'
  exact ⟨hon'',hvideo.trans hvideo'⟩

theorem foldl {α : Type*} {g : Kernel → α → Kernel} (h : ∀ k a, Spares A k (g k a)) (l : List α)
    (k : Kernel) : Spares A k (l.foldl g k) := by
  induction l generalizing k with
  | nil => exact .refl k
  | cons a l ih => exact (h k a).trans (ih _)

/-- What changes nothing in video memory. -/
theorem elsewhere (hon : k'.termsOn = k.termsOn) (hvideo : k'.video = k.video) :
    Spares A k k' := by
  intro h
  rw [hon, hvideo]
  exact ⟨h,.refl _⟩

theorem onTerminal (h : Spares A k k') (term : ℕ) (f : Terminal → Terminal) :
    Spares A k (k'.onTerminal term f) := h.trans (.elsewhere rfl rfl)

theorem video {v : Video} (h : k.video.Spares A v) : Spares A k { k with video := v } :=
  fun hon => ⟨hon,h⟩

end Spares

section
variable {A : Set ℕ} (k : Kernel)

theorem moveCursor_spares (term : ℕ) : Spares A k (moveCursor term k) := by
  unfold moveCursor
  split_ifs
  · exact .refl k
  · exact .elsewhere rfl rfl

theorem Hidden.spares {k k' : Kernel} (h : Hidden k k') : Spares A k k' := by
  rw [h.rest]
  exact .elsewhere rfl rfl

variable (hA : OffScreen A)
include hA

theorem scrollScreen_spares (term : ℕ) : Spares A k (scrollScreen term k) := by
  have hrows := (Video.scrollRows_spares hA (k.terminal term).termVideoMem k.video).trans
    (Video.clearLastRow_spares hA (k.terminal term).termVideoMem (k.terminal term).color _)
  exact ((Spares.video hrows).onTerminal term _).trans (moveCursor_spares _ term)

theorem nextRow_spares (term : ℕ) : Spares A k (nextRow term k) := by
  have hline := (Spares.refl (A := A) k).onTerminal term Terminal.newLine
  simp only [nextRow]
  split_ifs
  · exact hline.trans (scrollScreen_spares _ hA term)
  · exact hline.trans (moveCursor_spares _ term)

theorem putCell_spares (c : UInt8) (term : ℕ) : Spares A k (putCell c term k) :=
  (Spares.video (Video.storeCell_spares hA _ _ _ _ k.video)).onTerminal term _

theorem termPutc_spares (c : UInt8) (term : ℕ) : Spares A k (termPutc c term k) := by
  have hput := putCell_spares k hA c term
  have hline := hput.onTerminal term Terminal.newLine
  simp only [termPutc]
  split_ifs
  · exact nextRow_spares k hA term
  · exact hline.trans ((scrollScreen_spares _ hA term).trans (moveCursor_spares _ term))
  · exact hline.trans (moveCursor_spares _ term)
  · exact hput.trans (moveCursor_spares _ term)

theorem termPuts_spares (s : List UInt8) (term : ℕ) : Spares A k (termPuts s term k) :=
  .foldl (fun k c => termPutc_spares k hA c term) s k

theorem termClear_spares (term : ℕ) : Spares A k (termClear term k) :=
  ((Spares.video (Video.clearCells_spares hA _ _ k.video)).onTerminal term _).trans
    (termPuts_spares _ hA _ term)

theorem eraseCell_spares (term : ℕ) : Spares A k (eraseCell term k) := by
  have hback := (Spares.refl (A := A) k).onTerminal term stepBack
  refine Spares.trans ?_ (moveCursor_spares _ term)
  exact hback.trans (.video (Video.storeCell_spares hA _ _ _ _ _))

theorem viewTerm_spares {cur : ℕ} (hcur : cur < numTerm) (dest : ℕ) :
    Spares A k (viewTerm cur dest k) := by
  have hexchange : Spares A k { k with video := exchangeScreens cur dest k, viewingTerm := dest } :=
    fun hon => ⟨hon,exchangeScreens_spares hA hcur dest k⟩
  exact hexchange.trans (moveCursor_spares _ dest)

/-- The strokes spare what is neither on a screen nor in a frame that is loaded. -/
theorem Draws.spares {ok : Stroke → Prop} {k k' : Kernel} (h : Draws Hidden ok k k')
    (hview : ∀ cur dest, ok (.view cur dest) → cur < numTerm)
    (hload : ∀ pid bytes, ok (.load pid bytes) → pid < maxNumProc ∧ Disjoint A (frame pid)) :
    Spares A k k' := by
  refine h.keeps (P := Spares A k) ?_ (.refl k)
  intro k₁ k₂ hdraw hk₁
  refine hk₁.trans ?_
  cases hdraw with
  | aside h => exact h.spares
  | console hoff phys x y => exact fun hon => absurd hon hoff
  | stroke s hs =>
    cases s with
    | putc c term => exact termPutc_spares k₁ hA c term
    | row term => exact nextRow_spares k₁ hA term
    | erase term => exact eraseCell_spares k₁ hA term
    | clear term => exact termClear_spares k₁ hA term
    | view cur dest => exact viewTerm_spares k₁ hA (hview cur dest hs) dest
    | load pid bytes =>
      obtain ⟨hpid,hframe⟩ := hload pid bytes hs
      exact .video (Video.loadProgram_spares hA hpid hframe bytes k₁.video)

end

theorem successor_lt {k : Kernel} {pid : ℕ} (h : k.successor = some pid) : pid < maxNumProc := by
  unfold Kernel.successor at h
  split_ifs at h
  exact Table.nextPid_lt h

/-- An event stores to the screens, and to the frame of the process that it loads. -/
theorem step_spares {A : Set ℕ} (hA : OffScreen A) (fs : FileSystem) {k : Kernel} {op : Op}
    (hin : k.InRange) (hframe : ∀ pid, k.loads op = some pid → Disjoint A (frame pid)) :
    Spares A k ((kernel fs).next k op) := by
  refine (step_draws fs op k).spares hA ?_ ?_
  · intro cur dest hs
    cases op with
    | switch d cpu => exact hs.1 ▸ hin.viewing
    | key pressed cpu =>
      rcases hs with (hs | hs) | ⟨d,-,hs⟩
      · exact hs.elim
      · cases hs
      · exact hs.1 ▸ hin.viewing
    | _ => exact hs.elim
  · intro pid bytes hs
    cases op with
    | switch d cpu => exact ⟨Table.nextPid_lt hs,hframe pid hs⟩
    | key pressed cpu =>
      rcases hs with (hs | hs) | ⟨d,-,hs⟩
      · exact hs.elim
      · cases hs
      · exact ⟨Table.nextPid_lt hs,hframe pid hs⟩
    | execute command cpu => exact ⟨Table.nextPid_lt hs,hframe pid hs⟩
    | halt status cpu => exact ⟨successor_lt hs,hframe pid hs⟩
    | squash cpu => exact ⟨successor_lt hs,hframe pid hs⟩
    | _ => cases hs

end GameOfThreads
