import GameOfThreads.Keyboard
import GameOfThreads.Machine.Frames

/-! The pages of the screens. The video window has one page for each terminal; that of the
terminal in view maps the adapter and every other one a buffer of its own. Seen through the
window, the routines that write cells change one screen, and a switch changes none. -/
namespace GameOfThreads
open Machine

/-- The adapter and the buffers. -/
def screenFrames : Frames ℕ pagesSize where
  shared := videoAddr
  own term := mem32+term*pagesSize
  shared_apart term := by
    unfold Apart videoAddr mem32 pagesSize
    omega
  own_apart i j h := by
    unfold Apart mem32 pagesSize
    omega

/-- The bytes of one screen, with those of its page after the last row. -/
abbrev Page : Type := Fin pagesSize → UInt8

namespace Page

/-- A character and its colour in the cell with a given index. -/
def setCell (index : ℕ) (c color : UInt8) (p : Page) : Page :=
  fun i => if i = 2*index then c else if i = 2*index+1 then color else p i

/-- The first `n` cells replaced by those one row below. -/
def shift (n : ℕ) (p : Page) : Page :=
  fun i => if h : i < 2*n ∧ i+2*numCols < pagesSize then p ⟨i+2*numCols,h.2⟩ else p i

/-- Spaces in `n` cells. -/
def blank (start n : ℕ) (color : UInt8) (p : Page) : Page :=
  fun i => if 2*start ≤ i ∧ i < 2*(start+n) then if (i : ℕ) % 2 = 0 then space else color else p i

/-- Every row but the last takes the row below, and the last one is cleared. -/
def scroll (color : UInt8) (p : Page) : Page :=
  (p.shift (numCols*(numRows-1))).blank (numCols*(numRows-1)) numCols color

def clear (color : UInt8) (p : Page) : Page := p.blank 0 (numRows*numCols) color

@[simp] theorem shift_zero (p : Page) : p.shift 0 = p := by
  funext i
  simp [shift]

@[simp] theorem blank_zero (start : ℕ) (color : UInt8) (p : Page) : p.blank start 0 color = p := by
  funext i
  unfold blank
  rw [if_neg (by omega)]

theorem update_setCell {index : ℕ} (hchar : 2*index < pagesSize) (hcolor : 2*index+1 < pagesSize)
    (c color : UInt8) (p : Page) :
    Function.update (Function.update p ⟨2*index,hchar⟩ c) ⟨2*index+1,hcolor⟩ color =
      p.setCell index c color := by
  funext i
  by_cases hodd : (i : ℕ) = 2*index+1
  · obtain rfl : i = ⟨2*index+1,hcolor⟩ := Fin.ext hodd
    rw [Function.update_self]
    simp [setCell]
  · rw [Function.update_of_ne fun heq => hodd (congrArg Fin.val heq)]
    by_cases heven : (i : ℕ) = 2*index
    · obtain rfl : i = ⟨2*index,hchar⟩ := Fin.ext heven
      rw [Function.update_self]
      simp [setCell]
    · rw [Function.update_of_ne fun heq => heven (congrArg Fin.val heq), setCell, if_neg heven,
        if_neg hodd]

theorem shift_inside {n : ℕ} {i : Fin pagesSize} (p : Page) (hi : (i : ℕ) < 2*n)
    (hlow : (i : ℕ)+2*numCols < pagesSize) : p.shift n i = p ⟨i+2*numCols,hlow⟩ := by
  rw [shift, dif_pos ⟨hi,hlow⟩]

theorem shift_outside {n : ℕ} {i : Fin pagesSize} (p : Page) (hi : 2*n ≤ (i : ℕ)) :
    p.shift n i = p i := by
  rw [shift, dif_neg (by omega)]

/-- One more cell takes the one a row below it. -/
theorem shift_succ {n : ℕ} (hchar : 2*(n+numCols) < pagesSize)
    (hcolor : 2*(n+numCols)+1 < pagesSize) (p : Page) :
    (p.shift n).setCell n (p.shift n ⟨2*(n+numCols),hchar⟩)
      (p.shift n ⟨2*(n+numCols)+1,hcolor⟩) = p.shift (n+1) := by
  funext i
  rw [shift_outside p (show 2*n ≤ 2*(n+numCols) by omega),
    shift_outside p (show 2*n ≤ 2*(n+numCols)+1 by omega), setCell]
  split_ifs with heven hodd
  · rw [shift_inside p (by omega) (by omega)]
    exact congrArg p (Fin.ext (show 2*(n+numCols) = i+2*numCols by omega))
  · rw [shift_inside p (by omega) (by omega)]
    exact congrArg p (Fin.ext (show 2*(n+numCols)+1 = i+2*numCols by omega))
  · by_cases hi : (i : ℕ) < 2*n
    · rw [shift_inside p hi (by omega), shift_inside p (by omega) (by omega)]
    · rw [shift_outside p (by omega), shift_outside p (by omega)]

theorem blank_succ (start n : ℕ) (color : UInt8) (p : Page) :
    (p.blank start n color).setCell (start+n) space color = p.blank start (n+1) color := by
  funext i
  simp only [setCell, blank]
  split_ifs <;> first | omega | rfl

end Page

/-- The page of a terminal in the video window. -/
def termPage (term : ℕ) : ℕ := mem132+term*pagesSize

namespace Video

/-- The entries of the page table while `view` is in view; the screens of all terminals are
in their buffers while it is none of them. -/
def Mapped (view : ℕ) (v : Video) : Prop :=
  ∀ t < numTerm, v.pageTabArrayVideo t = if t = view then videoEntry else bufferEntry t

theorem Mapped.entry {view t : ℕ} {v : Video} (h : v.Mapped view) (ht : t < numTerm) :
    v.pageTabArrayVideo t = screenFrames.place view t+7 := by
  rw [h t ht, Frames.place]
  split_ifs
  · decide
  · unfold numTerm at ht
    interval_cases t <;> decide

theorem place_aligned (view t : ℕ) : screenFrames.place view t % pagesSize = 0 := by
  simp only [Frames.place, screenFrames, videoAddr, mem32, pagesSize]
  split_ifs <;> omega

theorem Mapped.translate {view t i : ℕ} {v : Video} (h : v.Mapped view) (ht : t < numTerm)
    (hi : i < pagesSize) : v.translate (termPage t+i) = some (screenFrames.place view t+i) := by
  have hentry := h.entry ht
  have haligned := place_aligned view t
  generalize screenFrames.place view t = frame at *
  unfold numTerm at ht
  unfold pagesSize at hi haligned
  have hwindow : (termPage t+i)/fourMB = 33 := by
    unfold termPage mem132 pagesSize fourMB
    omega
  have hindex : (termPage t+i)/pagesSize % 1024 = t := by
    unfold termPage mem132 pagesSize
    omega
  have hoffset : (termPage t+i) % pagesSize = i := by
    unfold termPage mem132 pagesSize
    omega
  have hpresent : (frame+7) % 2 = 1 := by omega
  have hframe : (frame+7)/pagesSize*pagesSize = frame := by
    unfold pagesSize
    omega
  simp only [Video.translate, hwindow, hindex, hoffset, hentry, hpresent, hframe, if_true]

/-- The adapter has its own address in every address space. -/
theorem translate_adapter (v : Video) {i : ℕ} (hi : i < pagesSize) :
    v.translate (videoAddr+i) = some (videoAddr+i) := by
  unfold pagesSize at hi
  have hwindow : (videoAddr+i)/fourMB ≠ 33 := by
    unfold videoAddr fourMB
    omega
  have hpage : (videoAddr+i)/pagesSize = 184 := by
    unfold videoAddr pagesSize
    omega
  rw [translate, if_neg hwindow, if_pos hpage]

/-- `view` is in view, and the window shows the pages `P`. -/
structure Shows (view : ℕ) (P : ℕ → Page) (v : Video) : Prop where
  mapped : v.Mapped view
  page : ∀ t < numTerm, screenFrames.window view t v.phys = P t

namespace Shows
variable {view t : ℕ} {P : ℕ → Page} {v : Video}

theorem load (h : v.Shows view P) (ht : t < numTerm) (i : Fin pagesSize) :
    v.load (termPage t+i) = P t i := by
  rw [← h.page t ht, Video.load, h.mapped.translate ht i.isLt]
  rfl

theorem adapter (h : v.Shows view P) (hview : view < numTerm) (i : Fin pagesSize) :
    v.phys (videoAddr+i) = P view i := by
  rw [← h.page view hview, Frames.window, Frames.place_self]
  rfl

theorem store (h : v.Shows view P) (ht : t < numTerm) (i : Fin pagesSize) (b : UInt8) :
    (v.store (termPage t+i) b).Shows view
      (Function.update P t (Function.update (P t) i b)) := by
  rw [Video.store, h.mapped.translate ht i.isLt]
  refine ⟨h.mapped,?_⟩
  intro u hu
  by_cases hut : u = t
  · subst hut
    rw [Function.update_self, ← h.page u hu]
    exact Frames.window_store_self ..
  · rw [Function.update_of_ne hut, ← h.page u hu]
    exact Frames.window_store_other _ _ hut ..

theorem cells (h : v.Shows view P) (cells : List ℕ) :
    Shows view P { v with cells := cells } := ⟨h.mapped,h.page⟩

theorem storeCell (h : v.Shows view P) (ht : t < numTerm) {index : ℕ}
    (hindex : 2*index+1 < pagesSize) (c color : UInt8) :
    (v.storeCell (termPage t) index c color).Shows view
      (Function.update P t ((P t).setCell index c color)) := by
  have hstore := (h.store ht ⟨2*index,by omega⟩ c).store ht ⟨2*index+1,hindex⟩ color
  rw [Function.update_self, Function.update_idem, Page.update_setCell] at hstore
  exact hstore.cells _

theorem copyCell (h : v.Shows view P) (ht : t < numTerm) {up low : ℕ}
    (hup : 2*up+1 < pagesSize) (hchar : 2*low < pagesSize) (hcolor : 2*low+1 < pagesSize) :
    (v.copyCell (termPage t) up low).Shows view
      (Function.update P t ((P t).setCell up (P t ⟨2*low,hchar⟩) (P t ⟨2*low+1,hcolor⟩))) := by
  have hload := h.load ht ⟨2*low,hchar⟩
  have hstore := h.store ht ⟨2*up,by omega⟩ (P t ⟨2*low,hchar⟩)
  have hload' := hstore.load ht ⟨2*low+1,hcolor⟩
  have hother : (⟨2*low+1,hcolor⟩ : Fin pagesSize) ≠ ⟨2*up,by omega⟩ := by
    intro heq
    have := congrArg Fin.val heq
    simp only at this
    omega
  rw [Function.update_self, Function.update_of_ne hother] at hload'
  have hstore' := hstore.store ht ⟨2*up+1,hup⟩ (P t ⟨2*low+1,hcolor⟩)
  rw [Function.update_self, Function.update_idem, Page.update_setCell] at hstore'
  simp only [Video.copyCell]
  rw [Nat.add_assoc (termPage t), Nat.add_assoc (termPage t), hload, hload']
  exact hstore'.cells _

theorem scrollRows (h : v.Shows view P) (ht : t < numTerm) :
    (v.scrollRows (termPage t)).Shows view
      (Function.update P t ((P t).shift (numCols*(numRows-1)))) := by
  refine foldl_range_rule (P := fun y v => Shows view
    (Function.update P t ((P t).shift (numCols*y))) v) (by simpa using h) _ ?_
  intro y hy v hv
  refine foldl_range_rule (P := fun x v => Shows view
    (Function.update P t ((P t).shift (numCols*y+x))) v) hv _ ?_
  intro x hx v hv
  have hx : x < 80 := hx
  have hy : y < 24 := hy
  have hlow : numCols*(y+1)+x = numCols*y+x+numCols := by
    rw [Nat.mul_succ]
    omega
  have hbound : 2*(numCols*y+x+numCols)+1 < pagesSize := by
    unfold numCols pagesSize
    omega
  have hcopy := hv.copyCell ht (show 2*(numCols*y+x)+1 < pagesSize by omega)
    (show 2*(numCols*y+x+numCols) < pagesSize by omega) hbound
  rw [Function.update_self, Function.update_idem, Page.shift_succ] at hcopy
  rw [hlow]
  exact hcopy

theorem blankCells (h : v.Shows view P) (ht : t < numTerm) (start n : ℕ)
    (hn : start+n ≤ numRows*numCols) (color : UInt8) :
    ((List.range n).foldl (fun v x => v.storeCell (termPage t) (start+x) space color) v).Shows
      view (Function.update P t ((P t).blank start n color)) := by
  refine foldl_range_rule (P := fun n v => Shows view
    (Function.update P t ((P t).blank start n color)) v) (by simpa using h) _ ?_
  intro x hx v hv
  have hbound : 2*(start+x)+1 < pagesSize := by
    unfold numRows numCols at hn
    unfold pagesSize
    omega
  have hstore := hv.storeCell ht hbound space color
  rw [Function.update_self, Function.update_idem, Page.blank_succ] at hstore
  exact hstore

theorem scroll (h : v.Shows view P) (ht : t < numTerm) (color : UInt8) :
    ((v.scrollRows (termPage t)).clearLastRow (termPage t) color).Shows view
      (Function.update P t ((P t).scroll color)) := by
  have hblank := (h.scrollRows ht).blankCells ht (numCols*(numRows-1)) numCols (by decide) color
  rw [Function.update_self, Function.update_idem] at hblank
  exact hblank

theorem clear (h : v.Shows view P) (ht : t < numTerm) (color : UInt8) :
    (v.clearCells (termPage t) color).Shows view
      (Function.update P t ((P t).clear color)) := by
  have hblank := h.blankCells ht 0 (numRows*numCols) (by decide) color
  simp only [Nat.zero_add] at hblank
  exact hblank

end Shows

/-! ### The switch -/

/-- memcpy between pages that lie in frames apart from each other. -/
theorem memcpy_eq {v : Video} {dest src frame frame' : ℕ}
    (hdest : ∀ i < pagesSize, v.translate (dest+i) = some (frame+i))
    (hsrc : ∀ i < pagesSize, v.translate (src+i) = some (frame'+i))
    (hapart : Apart pagesSize frame frame') :
    v.memcpy dest src pagesSize = { v with phys := copyFrame frame frame' pagesSize v.phys } := by
  refine foldl_range_rule (P := fun i w => w = { v with phys := copyFrame frame frame' i v.phys })
    ?_ _ fun i hi w hw => ?_
  · rw [copyFrame_zero]
  subst hw
  have hload : Video.load { v with phys := copyFrame frame frame' i v.phys } (src+i) =
      copyFrame frame frame' i v.phys (frame'+i) := by
    have htranslate : Video.translate { v with phys := copyFrame frame frame' i v.phys } (src+i) =
        some (frame'+i) := hsrc i hi
    rw [Video.load, htranslate]
  have htranslate : Video.translate { v with phys := copyFrame frame frame' i v.phys } (dest+i) =
      some (frame+i) := hdest i hi
  rw [hload, Video.store, htranslate]
  simp only
  rw [copyFrame_succ v.phys hapart hi]

theorem Mapped.toBuffer {cur : ℕ} {v : Video} (h : v.Mapped cur) :
    (mapTermToBuf cur v).Mapped numTerm := by
  intro t ht
  rw [if_neg (by omega)]
  by_cases hcur : t = cur
  · subst hcur
    exact Function.update_self ..
  · have hother := h t ht
    rw [if_neg hcur] at hother
    simp only [mapTermToBuf, setPage]
    rw [Function.update_of_ne hcur, hother]

theorem Mapped.toVideo {dest : ℕ} {v : Video} (h : v.Mapped numTerm) :
    (mapTermToVid dest v).Mapped dest := by
  intro t ht
  by_cases hdest : t = dest
  · subst hdest
    rw [if_pos rfl]
    exact Function.update_self ..
  · have hother := h t ht
    rw [if_neg (by omega)] at hother
    simp only [mapTermToVid, setPage]
    rw [Function.update_of_ne hdest, if_neg hdest, hother]

end Video

/-- The switch exchanges the frames and leaves every screen as it is. -/
theorem exchangeScreens_shows {cur dest : ℕ} {P : ℕ → Page} {k : Kernel}
    (h : k.video.Shows cur P) (hcur : cur < numTerm) (hdest : dest < numTerm) (hne : dest ≠ cur)
    (hpage : ∀ t < numTerm, (k.terminal t).termVideoMem = termPage t) :
    (exchangeScreens cur dest k).Shows dest P := by
  have hbuffer := h.mapped.toBuffer
  have hplace : ∀ t < numTerm, screenFrames.place numTerm t = screenFrames.own t := fun t ht =>
    screenFrames.place_other (by omega)
  have hsave : (mapTermToBuf cur k.video).memcpy (termPage cur) videoAddr pagesSize =
      { mapTermToBuf cur k.video with
        phys := copyFrame (screenFrames.own cur) videoAddr pagesSize k.video.phys } := by
    refine Video.memcpy_eq ?_ (fun i hi => Video.translate_adapter _ hi)
      (screenFrames.shared_apart cur).symm
    intro i hi
    rw [hbuffer.translate hcur hi, hplace cur hcur]
  have hload : ({ mapTermToBuf cur k.video with
        phys := copyFrame (screenFrames.own cur) videoAddr pagesSize k.video.phys } :
          Video).memcpy videoAddr (termPage dest) pagesSize =
      { mapTermToBuf cur k.video with phys := screenFrames.exchange cur dest k.video.phys } := by
    refine Video.memcpy_eq (fun i hi => Video.translate_adapter _ hi) ?_
      (screenFrames.shared_apart dest)
    intro i hi
    have htranslate := hbuffer.translate hdest hi
    rw [hplace dest hdest] at htranslate
    exact htranslate
  simp only [exchangeScreens, hpage cur hcur, hpage dest hdest]
  rw [hsave, hload]
  refine ⟨Video.Mapped.toVideo hbuffer,?_⟩
  intro t ht
  rw [← h.page t ht]
  exact screenFrames.window_exchange hne t k.video.phys

end GameOfThreads
