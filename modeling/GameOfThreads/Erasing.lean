import GameOfThreads.Machine.Paper
import GameOfThreads.LineCells
import GameOfThreads.LineDelivery
import GameOfThreads.VideoWindow

/-! Typing and erasing again. The screen in view is a window on paper: what is typed is written
on it, and the window scrolls down with the writing. Backspace rubs out the last character, and
never has to go above the window. -/
namespace GameOfThreads
open Machine

/-- The scancodes of the modifier keys, held or let go. -/
def modifiers : List ℕ := [0x3A,0x45,0x2A,0xAA,0x36,0xB6,0x38,0xB8,0x1D,0x9D]

def Key.prints : Key → Bool
  | .char _ => true
  | _ => false

def Key.erases : Key → Bool
  | .erase => true
  | _ => false

/-- A press of a key of one kind, or of a modifier key. -/
def Pressing (kind : Key → Bool) (k : Kernel) (op : Op) : Prop :=
  ∃ pressed cpu, op = .key pressed cpu ∧ (pressed ∈ modifiers ∨ kind (k.key pressed))

/-- How many keys of one kind are pressed on terminal `t` in a run. -/
def presses (fs : FileSystem) (kind : Key → Bool) (t : ℕ) (k : Kernel) (ops : List Op) : ℕ :=
  (keysPressed t ((kernel fs).trace k ops)).countP kind

/-- How many rows the screen scrolls for `n` characters from a position on. -/
def scrolls (position n : ℕ) : ℕ := Grid.topRow numCols numRows (position+n)

/-! ### The keys -/

section
variable {t pressed : ℕ} {k : Kernel}

theorem scancode_carriage : ∀ table < 4, carriage ∉ scancode table := by decide +kernel

theorem key_piece {c : UInt8} (h : k.key pressed = .char c) (color : UInt8) :
    piece color c = some (c,color) := by
  have hcarriage : c ≠ carriage := by
    rw [(key_getchar h).1]
    exact getchar_ne (by decide) scancode_carriage pressed k
  exact if_neg (not_or.mpr ⟨key_typable h,hcarriage⟩)

theorem modifier_alike (fs : FileSystem) (cpu : Cpu) (h : pressed ∈ modifiers) :
    Alike t k (keyboardSwitch fs cpu pressed k).2 := by
  simp only [modifiers, List.mem_cons, List.not_mem_nil, or_false] at h
  rcases h with rfl | rfl | rfl | rfl | rfl | rfl | rfl | rfl | rfl | rfl
  all_goals exact ⟨rfl,rfl,rfl⟩

theorem key_prints (h : (k.key pressed).prints) : ∃ c, k.key pressed = .char c := by
  cases hkey : k.key pressed with
  | char c => exact ⟨c,rfl⟩
  | _ =>
    rw [hkey] at h
    cases h

/-- Only Backspace erases. -/
theorem key_erases (h : (k.key pressed).erases) : pressed = 0x0E := by
  have herase : k.key pressed = .erase := by
    cases hkey : k.key pressed with
    | erase => rfl
    | _ =>
      rw [hkey] at h
      cases h
  by_contra hne
  unfold Kernel.key at herase
  rw [if_neg hne] at herase
  split_ifs at herase
  · exact absurd herase (Terminal.turn_ne _ _ nofun nofun)
  · exact absurd herase (Terminal.turn_ne _ _ nofun nofun)

/-- While there is room, a key that prints is typed into the terminal in view. -/
theorem keyboardSwitch_char (fs : FileSystem) (cpu : Cpu) {c : UInt8}
    (h : k.key pressed = .char c)
    (hroom : (k.terminal k.viewingTerm).keyboardBufIdx < keyBuffSize-1) :
    (keyboardSwitch fs cpu pressed k).2 = typeKey c k.viewingTerm k := by
  obtain ⟨hc,hcode,hchar⟩ := key_getchar h
  have htype : keyPress pressed k = typeKey c k.viewingTerm k := by
    simp only [keyPress, if_pos hcode, if_pos hroom, ← hc, if_neg hchar]
  rw [← htype]
  rw [hc] at hchar
  unfold keyboardSwitch
  split
  all_goals first
    | rfl
    | exact absurd (getchar_special (by decide) k) hchar
    | exact absurd hcode (by decide)
    | skip
  · split_ifs with hctl
    · rfl
    · simp [Kernel.key, hctl] at h
  · split_ifs with hnum
    · simp [Kernel.key, hnum, Terminal.turn_ne] at h
    · rfl
  · split_ifs with hnum
    · simp [Kernel.key, hnum, Terminal.turn_ne] at h
    · rfl

end

/-! ### The window on the paper -/

section
variable {t top n : ℕ} {color : UInt8} {P P₀ : Paper (UInt8 × UInt8)} {k k' : Kernel}

/-- Terminal `t` is in view, with its cursor on the paper and `n` characters in its buffer, which
is NUL behind them. -/
structure OnPaper (t : ℕ) (color : UInt8) (top : ℕ) (P : Paper (UInt8 × UInt8)) (n : ℕ)
    (k : Kernel) : Prop where
  viewing : k.viewingTerm = t
  windowed : Windowed t k
  inColor : (k.terminal t).color = color
  bears : Grid.Bears numCols numRows (space,color) top P (k.grid t)
  idx : (k.terminal t).keyboardBufIdx = n
  tidy : (k.terminal t).Tidy

theorem Windowed.alike (h : Windowed t k) (hk' : Alike t k k') : Windowed t k' := by
  refine ⟨?_,?_,?_⟩
  · rw [hk'.viewing]
    exact h.viewing
  · rw [hk'.viewing, hk'.video]
    exact h.mapped
  · rw [hk'.terminal]
    exact h.page

theorem Windowed.screen (h : Windowed t k) (hk' : ScreenOnly k k') : Windowed t k' := by
  have hview : k'.viewingTerm = k.viewingTerm := by rw [hk'.rest]
  refine ⟨?_,?_,?_⟩
  · rw [hview]
    exact h.viewing
  · rw [hview, Video.Mapped, hk'.pages]
    exact h.mapped
  · rw [hk'.terminals t]
    exact h.page

namespace OnPaper

theorem alike (h : OnPaper t color top P n k) (hk' : Alike t k k') :
    OnPaper t color top P n k' := by
  refine ⟨?_,h.windowed.alike hk',?_,?_,?_,?_⟩
  · rw [hk'.viewing]
    exact h.viewing
  · rw [hk'.terminal]
    exact h.inColor
  · rw [hk'.grid]
    exact h.bears
  · rw [hk'.terminal]
    exact h.idx
  · rw [hk'.terminal]
    exact h.tidy

/-- A change of the screen, and of the paper under it. -/
theorem screen (h : OnPaper t color top P n k) (hk' : ScreenOnly k k') {top' : ℕ}
    {P' : Paper (UInt8 × UInt8)}
    (hbears : Grid.Bears numCols numRows (space,color) top' P' (k'.grid t)) :
    OnPaper t color top' P' n k' := by
  refine ⟨?_,h.windowed.screen hk',?_,hbears,(hk'.idx t).trans h.idx,?_⟩
  · rw [hk'.rest]
    exact h.viewing
  · rw [hk'.terminals t]
    exact h.inColor
  · rw [hk'.terminals t]
    exact h.tidy

/-- A change of the buffer. -/
theorem line (h : OnPaper t color top P n k) {m : ℕ} {f : Terminal → Terminal}
    (hk' : Alike t (k.onTerminal t f) k')
    (hf : f (k.terminal t) = { k.terminal t with
      keyboardBuffer := (f (k.terminal t)).keyboardBuffer, keyboardBufIdx := m })
    (htidy : (f (k.terminal t)).Tidy) : OnPaper t color top P m k' := by
  have hself := k.onTerminal_terminal_self t f
  have hgrid : (k.onTerminal t f).grid t = k.grid t := by
    unfold Kernel.grid Kernel.cell
    rw [hself, hf]
    rfl
  have hline : OnPaper t color top P m (k.onTerminal t f) := by
    refine ⟨h.viewing,⟨h.windowed.viewing,h.windowed.mapped,?_⟩,?_,?_,?_,?_⟩
    · rw [hself, hf]
      exact h.windowed.page
    · rw [hself, hf]
      exact h.inColor
    · rw [hgrid]
      exact h.bears
    · rw [hself, hf]
    · rw [hself]
      exact htidy
  exact hline.alike hk'

end OnPaper

/-- A character goes on the paper under the window. -/
theorem termPutc_bears (hterm : t < numTerm) (h : Windowed t k)
    (hbears : Grid.Bears numCols numRows (space,(k.terminal t).color)
      (Grid.topRow numCols numRows P.pos) P (k.grid t))
    {c : UInt8} (hpiece : piece (k.terminal t).color c = some (c,(k.terminal t).color)) :
    let P' := P.write (c,(k.terminal t).color)
    Grid.Bears numCols numRows (space,(k.terminal t).color)
      (Grid.topRow numCols numRows P'.pos) P' ((termPutc c t k).grid t) := by
  obtain ⟨S,k',hlike,hdisplays,hcolor⟩ := h.displays hbears.x hbears.y
  have hgrid := hdisplays.grid hterm
  rw [hlike.grid] at hgrid
  have hput := (termPutc_displays hterm c hdisplays).grid hterm
  rw [Function.update_self, (hlike.termPutc c).grid] at hput
  have hagrees := (S t).putc_agrees c
  rw [hcolor, hpiece] at hagrees
  exact (((hbears.agrees hgrid.symm).write _).agrees hagrees).agrees hput

theorem stepBack_keeps (u : Terminal) :
    (stepBack u).termVideoMem = u.termVideoMem ∧ (stepBack u).color = u.color := by
  unfold stepBack
  split_ifs
  · exact ⟨rfl,rfl⟩
  · exact ⟨rfl,rfl⟩

/-- The cursor goes back on the paper, while there is paper in the window before it. -/
theorem stepBack_grid (hbears : Grid.Bears numCols numRows (space,color) top P (k.grid t))
    (hpos : numCols*top < P.pos) :
    (k.onTerminal t stepBack).grid t = (k.grid t).back numCols := by
  have hself := k.onTerminal_terminal_self t stepBack
  have hcell : (k.onTerminal t stepBack).cell t = k.cell t := by
    unfold Kernel.cell
    rw [hself, (stepBack_keeps _).1]
    rfl
  have hx : (k.terminal t).screenX < numCols := hbears.x
  have hy : (k.terminal t).screenY < numRows := hbears.y
  have hcursor : numCols*(top+(k.terminal t).screenY)+(k.terminal t).screenX = P.pos := hbears.pos
  have hback : (k.grid t).back numCols =
      if (k.terminal t).screenX = 0 then ⟨k.cell t,numCols-1,(k.terminal t).screenY-1⟩
      else ⟨k.cell t,(k.terminal t).screenX-1,(k.terminal t).screenY⟩ := rfl
  rw [hback, Kernel.grid, hcell, hself, stepBack]
  unfold numCols numRows at *
  split_ifs with hzero
  · simp only [Grid.mk.injEq, true_and]
    omega
  · simp only [Grid.mk.injEq, true_and, and_true]
    omega

/-- What Backspace does to the screen rubs out the last character on the paper. -/
theorem eraseCell_bears (hterm : t < numTerm) (h : Windowed t k)
    (hbears : Grid.Bears numCols numRows (space,(k.terminal t).color) top P (k.grid t))
    (hpos : numCols*top < P.pos) :
    Grid.Bears numCols numRows (space,(k.terminal t).color) top
      (P.erase (space,(k.terminal t).color)) ((eraseCell t k).grid t) := by
  have hback := hbears.back hpos
  rw [← stepBack_grid hbears hpos] at hback
  obtain ⟨hmem,hcolor⟩ := stepBack_keeps (k.terminal t)
  rw [← k.onTerminal_terminal_self t stepBack] at hmem hcolor
  have hwindow : Windowed t (k.onTerminal t stepBack) := ⟨h.viewing,h.mapped,hmem.trans h.page⟩
  rw [← hcolor] at hback ⊢
  simp only [eraseCell]
  generalize k.onTerminal t stepBack = k₁ at *
  obtain ⟨S,k₂,hlike,hdisplays,hS⟩ := hwindow.displays hback.x hback.y
  have hgrid := hdisplays.grid hterm
  rw [hlike.grid] at hgrid
  have hset := (S t).setCell_agrees space
  rw [hS] at hset
  obtain ⟨hx,hy⟩ := hdisplays.cursor t hterm
  have hstore := (((storeCell_displays hterm space hdisplays).displays (by
    rw [Function.update_self]
    exact hx) (by
    rw [Function.update_self]
    exact hy)).moveCursor t).grid hterm
  rw [Function.update_self, hlike.terminal, hlike.video, (hlike.paint _).moveCursor.grid] at hstore
  exact (((hback.agrees hgrid.symm).setCell _).agrees hset).agrees hstore

/-! ### A key on the paper -/

theorem typeKey_onPaper (h : OnPaper t color (Grid.topRow numCols numRows P.pos) P n k)
    (hn : n < keyBuffSize) {c : UInt8} (hpiece : piece color c = some (c,color)) :
    let P' := P.write (c,color)
    OnPaper t color (Grid.topRow numCols numRows P'.pos) P' (n+1) (typeKey c t k) := by
  have hterm : t < numTerm := h.viewing ▸ h.windowed.viewing
  have hidx := h.idx
  have htidy := h.tidy.storeInc (by omega) c
  rw [hidx] at htidy
  have hstored : OnPaper t color (Grid.topRow numCols numRows P.pos) P (n+1)
      ((storeKey t n c k).onTerminal t Terminal.incIdx) := by
    refine h.line (f := fun u => (u.storeKey n c).incIdx) ⟨?_,rfl,rfl⟩ ?_ htidy
    · simp only [storeKey, Kernel.onTerminal_terminal_self]
    · simp only [Terminal.storeKey, if_pos hn, Terminal.incIdx, hidx]
      unfold keyBuffSize at hn
      rw [Nat.mod_eq_of_lt (by omega)]
  have hbears := termPutc_bears hterm hstored.windowed (c := c) (P := P)
  rw [hstored.inColor] at hbears
  rw [typeKey, hidx]
  exact hstored.screen (termPutc_screenOnly ..) (hbears hstored.bears hpiece)

theorem backspace_onPaper (h : OnPaper t color top P (n+1) k) (hn : n < keyBuffSize)
    (hpos : numCols*top < P.pos) :
    OnPaper t color top (P.erase (space,color)) n (backspace t k) := by
  have hterm : t < numTerm := h.viewing ▸ h.windowed.viewing
  have hidx := h.idx
  obtain rfl := h.inColor
  have herased := h.screen (eraseCell_screenOnly t k)
    (eraseCell_bears hterm h.windowed h.bears hpos)
  have hne : (k.terminal t).keyboardBufIdx ≠ 0 := by omega
  rw [backspace_eq hne, hidx, Nat.add_sub_cancel]
  generalize eraseCell t k = k' at *
  have hidx' := herased.idx
  have htidy := herased.tidy.erase (by omega) (by omega)
  rw [hidx', Nat.add_sub_cancel] at htidy
  refine herased.line (f := fun u => (u.storeKey n noke).decIdx) ⟨?_,rfl,rfl⟩ ?_ htidy
  · simp only [storeKey, Kernel.onTerminal_terminal_self]
  · simp only [Terminal.storeKey, if_pos hn, Terminal.decIdx, hidx']
    unfold keyBuffSize at hn
    congr 1
    omega

/-- The line of `n` characters stands on the paper from the position of `P₀` on, with those up to
`stop` that are gone rubbed out. -/
def Draft (t : ℕ) (color : UInt8) (P₀ : Paper (UInt8 × UInt8)) (top stop n : ℕ) (k : Kernel) :
    Prop :=
  ∃ P, OnPaper t color top P n k ∧ P₀.Marked (space,color) P stop ∧ P.pos = P₀.pos+n

/-- The paper under the screen of a terminal. -/
def Kernel.paper (t : ℕ) (k : Kernel) : Paper (UInt8 × UInt8) :=
  (k.grid t).paper numCols numRows (space,(k.terminal t).color)

namespace Draft

theorem alike {stop : ℕ} (h : Draft t color P₀ top stop n k) (hk' : Alike t k k') :
    Draft t color P₀ top stop n k' := by
  obtain ⟨P,hpaper,hmarked⟩ := h
  exact ⟨P,hpaper.alike hk',hmarked⟩

theorem viewing {stop : ℕ} (h : Draft t color P₀ top stop n k) : k.viewingTerm = t := by
  obtain ⟨P,hpaper,-⟩ := h
  exact hpaper.viewing

/-- Before anything is typed. -/
theorem start (hview : k.viewingTerm = t) (hwindow : Windowed t k)
    (hin : (k.terminal t).InScreen) (hidx : (k.terminal t).keyboardBufIdx = 0)
    (hcells : ∀ i < keyBuffSize, (k.terminal t).keyboardBuffer i = noke) :
    Draft t (k.terminal t).color (k.paper t) (scrolls (k.paper t).pos 0) (k.paper t).pos 0 k := by
  have hbears : Grid.Bears numCols numRows (space,(k.terminal t).color) 0 (k.paper t) (k.grid t) :=
    Grid.bears_paper hin.x hin.y
  have htop : scrolls (k.paper t).pos 0 = 0 := by
    have hpos := hin.position_lt
    have hP : (k.paper t).pos = (k.terminal t).position := rfl
    rw [scrolls, Grid.topRow, hP]
    unfold screenCells numRows numCols at *
    omega
  rw [htop]
  exact ⟨k.paper t,⟨hview,hwindow,rfl,hbears,hidx,fun i _ hi => hcells i hi⟩,
    Paper.Marked.refl _ _,rfl⟩

theorem print (fs : FileSystem) (cpu : Cpu)
    (h : Draft t color P₀ (scrolls P₀.pos n) (P₀.pos+n) n k) (hn : n < keyBuffSize-1) {pressed : ℕ}
    (hkey : (k.key pressed).prints) :
    Draft t color P₀ (scrolls P₀.pos (n+1)) (P₀.pos+(n+1)) (n+1)
      ((kernel fs).next k (.key pressed cpu)) := by
  obtain ⟨c,hc⟩ := key_prints hkey
  obtain ⟨P,hpaper,hmarked,hpos⟩ := h
  have hready : OnPaper t color (scrolls P₀.pos n) P n { k with interrupts := false } :=
    hpaper.alike ⟨rfl,rfl,rfl⟩
  have hswitch : (keyboardSwitch fs cpu pressed { k with interrupts := false }).2 =
      typeKey c t { k with interrupts := false } := by
    have hview := hready.viewing
    have hidx := hready.idx
    rw [← hview] at hidx ⊢
    exact keyboardSwitch_char fs cpu hc (by omega)
  have htyped := typeKey_onPaper (P := P) (by rw [hpos]; exact hready) (by omega) (key_piece hc _)
  rw [← hswitch] at htyped
  have hend : (P.write (c,color)).pos = P₀.pos+(n+1) := congrArg (· + 1) hpos
  simp only [hend] at htyped
  refine ⟨_,htyped.alike ⟨rfl,rfl,rfl⟩,?_,hend⟩
  rw [← hpos] at hmarked
  rw [← hend]
  exact hmarked.write _

theorem erase (fs : FileSystem) (cpu : Cpu) {stop : ℕ} (h : Draft t color P₀ top stop (n+1) k)
    (hn : n < keyBuffSize) (htop : numCols*top ≤ P₀.pos) :
    Draft t color P₀ top stop n ((kernel fs).next k (.key 0x0E cpu)) := by
  obtain ⟨P,hpaper,hmarked,hpos⟩ := h
  have hready : OnPaper t color top P (n+1) { k with interrupts := false } :=
    hpaper.alike ⟨rfl,rfl,rfl⟩
  have hswitch : (keyboardSwitch fs cpu 0x0E { k with interrupts := false }).2 =
      backspace t { k with interrupts := false } := by
    rw [← hready.viewing]
    rfl
  have herased := backspace_onPaper hready hn (by omega)
  rw [← hswitch] at herased
  refine ⟨_,herased.alike ⟨rfl,rfl,rfl⟩,hmarked.erase (by omega),?_⟩
  have hend : (P.erase (space,color)).pos = P.pos-1 := rfl
  omega

end Draft

/-! ### Runs -/

variable {fs : FileSystem}

theorem presses_key (kind : Key → Bool) (hview : k.viewingTerm = t) (pressed : ℕ) (cpu : Cpu)
    (ops : List Op) :
    presses fs kind t k (.key pressed cpu :: ops) =
      presses fs kind t ((kernel fs).next k (.key pressed cpu)) ops +
        if kind (k.key pressed) then 1 else 0 := by
  have hkeys : keysPressed t ((kernel fs).trace k (.key pressed cpu :: ops)) = k.key pressed ::
      keysPressed t ((kernel fs).trace ((kernel fs).next k (.key pressed cpu)) ops) := by
    simp [keysPressed, requests, requestTo, System.trace, System.move, Kernel.request, hview,
      Request.key]
  rw [presses, hkeys, List.countP_cons]
  rfl

/-- What every key of a kind moves on by one, and the modifier keys leave alone, has been moved
on by the number of these keys. -/
theorem pressing_run {kind : Key → Bool} (limit : ℕ) {I : ℕ → Kernel → Prop}
    (hview : ∀ n k, I n k → k.viewingTerm = t)
    (halike : ∀ n k k', I n k → Alike t k k' → I n k')
    (hpress : ∀ n k pressed cpu, n < limit → I n k → kind (k.key pressed) →
      I (n+1) ((kernel fs).next k (.key pressed cpu)))
    {ops : List Op} (h : I n k) (hops : (kernel fs).Along (Pressing kind) k ops)
    (hn : n+presses fs kind t k ops ≤ limit) :
    I (n+presses fs kind t k ops) ((kernel fs).run k ops) := by
  induction ops generalizing n k with
  | nil => exact h
  | cons op ops ih =>
    obtain ⟨⟨pressed,cpu,rfl,hkey⟩,hrest⟩ := hops
    rw [presses_key kind (hview n k h)] at hn ⊢
    rw [System.run_cons]
    by_cases hkind : kind (k.key pressed) = true
    · rw [if_pos hkind] at hn ⊢
      have hnext := ih (hpress n k pressed cpu (by omega) h hkind) hrest (by omega)
      rw [Nat.add_right_comm] at hnext
      exact hnext
    · rw [if_neg hkind] at hn ⊢
      have hmodifier : pressed ∈ modifiers := hkey.resolve_right hkind
      have hswitch := modifier_alike (t := t) (k := { k with interrupts := false }) fs cpu hmodifier
      exact ih (halike n k _ h ⟨hswitch.terminal,hswitch.video,hswitch.viewing⟩) hrest hn

theorem print_run (h : Draft t color P₀ (scrolls P₀.pos 0) P₀.pos 0 k) {ops : List Op}
    (hops : (kernel fs).Along (Pressing Key.prints) k ops)
    (hn : presses fs Key.prints t k ops ≤ keyBuffSize-1) :
    let n := presses fs Key.prints t k ops
    Draft t color P₀ (scrolls P₀.pos n) (P₀.pos+n) n ((kernel fs).run k ops) := by
  have hrun := pressing_run (n := 0) (keyBuffSize-1)
    (I := fun n k => Draft t color P₀ (scrolls P₀.pos n) (P₀.pos+n) n k)
    (fun _ _ h => h.viewing) (fun _ _ _ h => h.alike)
    (fun _ _ _ cpu hn h hkey => h.print fs cpu hn hkey) h hops (by omega)
  rw [Nat.zero_add] at hrun
  exact hrun

theorem erase_run {stop : ℕ} (h : Draft t color P₀ top stop n k) (hn : n ≤ keyBuffSize)
    (htop : numCols*top ≤ P₀.pos) {ops : List Op}
    (hops : (kernel fs).Along (Pressing Key.erases) k ops)
    (hcount : presses fs Key.erases t k ops = n) :
    Draft t color P₀ top stop 0 ((kernel fs).run k ops) := by
  have hrun := pressing_run (n := 0) n
    (I := fun m k => m ≤ n ∧ Draft t color P₀ top stop (n-m) k)
    (fun _ _ h => h.2.viewing) (fun _ _ _ h hk' => ⟨h.1,h.2.alike hk'⟩) ?_ ⟨Nat.zero_le n,h⟩ hops
    (by omega)
  · obtain ⟨-,hdraft⟩ := hrun
    rw [hcount, Nat.zero_add, Nat.sub_self] at hdraft
    exact hdraft
  · rintro m k pressed cpu hm ⟨-,hdraft⟩ hkey
    obtain rfl := key_erases hkey
    have hleft : n-m = n-(m+1)+1 := by omega
    rw [hleft] at hdraft
    exact ⟨hm,hdraft.erase fs cpu (by omega) htop⟩

/-- From `k` to `k'` nothing is left of `n` characters but the blanks in their place and the rows
that they have scrolled the screen of terminal `t` by. -/
structure Erased (t n rows : ℕ) (k k' : Kernel) : Prop where
  idx : (k'.terminal t).keyboardBufIdx = 0
  buffer : ∀ i < keyBuffSize, (k'.terminal t).keyboardBuffer i = noke
  inScreen : (k'.terminal t).InScreen
  room : numCols*rows ≤ (k.terminal t).position
  cursor : (k'.terminal t).position = (k.terminal t).position-numCols*rows
  cells : ∀ i < numRows, ∀ j < numCols, k'.cell t i j =
    let p := numCols*(rows+i)+j
    let start := (k.terminal t).position
    if start ≤ p ∧ p < start+n then (space,(k.terminal t).color)
    else if rows+i < numRows then k.cell t (rows+i) j
    else (space,(k.terminal t).color)

theorem scrolls_le {position n : ℕ} (hn : n ≤ keyBuffSize-1) :
    numCols*scrolls position n ≤ position := by
  unfold scrolls Grid.topRow numCols numRows
  unfold keyBuffSize at hn
  omega

theorem paper_cell (t : ℕ) (k : Kernel) {i j : ℕ} (hj : j < numCols) :
    (k.paper t).cell (numCols*i+j) =
      if i < numRows then k.cell t i j else (space,(k.terminal t).color) := by
  have hrow : numCols*i+j < numCols*numRows ↔ i < numRows := by
    unfold numCols numRows at *
    omega
  have hdiv : (numCols*i+j)/numCols = i := by
    unfold numCols at *
    omega
  have hmod : (numCols*i+j) % numCols = j := by
    unfold numCols at *
    omega
  simp only [Kernel.paper, Grid.paper, hrow, hdiv, hmod]
  rfl

theorem Draft.position {stop : ℕ} (h : Draft t color P₀ top stop n k) :
    (k.terminal t).position+numCols*top = P₀.pos+n := by
  obtain ⟨P,hpaper,-,hpos⟩ := h
  have hcursor : numCols*(top+(k.terminal t).screenY)+(k.terminal t).screenX = P.pos :=
    hpaper.bears.pos
  rw [hpos, Nat.mul_add] at hcursor
  unfold Terminal.position
  omega

/-- An empty line and the whole paper rubbed out again. -/
theorem Draft.erased {rows : ℕ} {k₀ : Kernel}
    (h : Draft t (k₀.terminal t).color (k₀.paper t) rows ((k₀.terminal t).position+n) 0 k) :
    Erased t n rows k₀ k := by
  have hstart : (k₀.paper t).pos = (k₀.terminal t).position := rfl
  have hcursor := h.position
  rw [hstart, Nat.add_zero] at hcursor
  obtain ⟨P,hpaper,hmarked,hpos⟩ := h
  refine ⟨hpaper.idx,?_,⟨hpaper.bears.x,hpaper.bears.y⟩,by omega,by omega,?_⟩
  · intro i hi
    exact hpaper.tidy i (by rw [hpaper.idx]; omega) hi
  · intro i hi j hj
    have hcell : k.cell t i j = P.cell (numCols*(rows+i)+j) := hpaper.bears.cell i hi j hj
    rw [hcell, hmarked.cells hpos, paper_cell t k₀ hj, hstart]

/-- At most 127 characters typed on an empty line, with modifier keys among them, and as many
times Backspace: the line is empty again, the screen has only been scrolled for the characters,
and the cursor is back where it was on it, with blanks behind it. -/
theorem typing_erased (fs : FileSystem) (hview : k.viewingTerm = t) (hwindow : Windowed t k)
    (hin : (k.terminal t).InScreen) (hidx : (k.terminal t).keyboardBufIdx = 0)
    (hcells : ∀ i < keyBuffSize, (k.terminal t).keyboardBuffer i = noke) {typed erased : List Op}
    (htyped : (kernel fs).Along (Pressing Key.prints) k typed)
    (hn : presses fs Key.prints t k typed ≤ 127)
    (herased : (kernel fs).Along (Pressing Key.erases) ((kernel fs).run k typed) erased)
    (hcount : presses fs Key.erases t ((kernel fs).run k typed) erased =
      presses fs Key.prints t k typed) :
    let n := presses fs Key.prints t k typed
    let rows := scrolls (k.terminal t).position n
    (((kernel fs).run k typed).terminal t).position+numCols*rows = (k.terminal t).position+n ∧
      Erased t n rows k ((kernel fs).run k (typed ++ erased)) := by
  intro n rows
  have hdraft := print_run (Draft.start hview hwindow hin hidx hcells) htyped hn
  have hstop : (k.paper t).pos = (k.terminal t).position := rfl
  rw [hstop] at hdraft
  refine ⟨hdraft.position,?_⟩
  rw [System.run_append]
  exact (erase_run hdraft (Nat.le_succ_of_le hn) (scrolls_le hn) herased hcount).erased

end

/-- The start of the kernel, with the cursor in the last cell of the screen. -/
def cornerKernel : Kernel :=
  (initial (fun _ => PCB.zero) fun _ => 0).onTerminal 0 (Terminal.setCursor 79 24)

/-- A letter and a capital. -/
def twoLetters : List Op :=
  [.key 0x1E ⟨1,1,fun _ => 0⟩,.key 0x2A ⟨1,1,fun _ => 0⟩,.key 0x1F ⟨1,1,fun _ => 0⟩]

/-- Shift let go, and two times Backspace. -/
def twoErases : List Op :=
  [.key 0xAA ⟨1,1,fun _ => 0⟩,.key 0x0E ⟨1,1,fun _ => 0⟩,.key 0x0E ⟨1,1,fun _ => 0⟩]

theorem typing_erased_scroll :
    (((kernel shellImage).run cornerKernel twoLetters).terminal 0).position+80 = 2001 ∧
      Erased 0 2 1 cornerKernel
        ((kernel shellImage).run cornerKernel (twoLetters ++ twoErases)) := by
  have hn : presses shellImage Key.prints 0 cornerKernel twoLetters = 2 := by decide +kernel
  have hpos : (cornerKernel.terminal 0).position = 1999 := by decide +kernel
  have hrows : scrolls 1999 2 = 1 := rfl
  have hready : cornerKernel.window.Ready := by
    apply (initial_ready (fun _ => PCB.zero) fun _ => 0).of_eq
    exact onTerminal_window _ _ (f := Terminal.setCursor 79 24) fun _ => rfl
  have htyped : (kernel shellImage).Along (Pressing Key.prints) cornerKernel twoLetters :=
    ⟨⟨_,_,rfl,by decide +kernel⟩,⟨_,_,rfl,by decide +kernel⟩,⟨_,_,rfl,by decide +kernel⟩,trivial⟩
  have herased : (kernel shellImage).Along (Pressing Key.erases)
      ((kernel shellImage).run cornerKernel twoLetters) twoErases :=
    ⟨⟨_,_,rfl,by decide +kernel⟩,⟨_,_,rfl,by decide +kernel⟩,⟨_,_,rfl,by decide +kernel⟩,trivial⟩
  have h := typing_erased (t := 0) shellImage (by decide +kernel) (hready.windowed (by decide))
    ⟨by decide +kernel,by decide +kernel⟩ (by decide +kernel) (by decide +kernel) htyped
    (by rw [hn]; decide) herased (by decide +kernel)
  simp only [hn, hpos, hrows] at h
  exact h

end GameOfThreads
