import GameOfThreads.CursorBounds
import GameOfThreads.ScreenLayout
import GameOfThreads.TerminalInput

/-! The video window over whole runs. Nothing but terminal_switch writes the page table of
the window, and it leaves every terminal with the page that its output goes to. -/
namespace GameOfThreads
open Machine

/-- What decides where screens are: the page table of the window, the terminal in view, and
the address that each terminal writes to. -/
structure Window where
  entries : ℕ → ℕ
  viewing : ℕ
  page : ℕ → ℕ

def Kernel.window (k : Kernel) : Window :=
  ⟨k.video.pageTabArrayVideo,k.viewingTerm,fun t => (k.terminal t).termVideoMem⟩

/-- The adapter is under the terminal in view, and every other terminal has its buffer. -/
structure Window.Ready (w : Window) : Prop where
  viewing : w.viewing < numTerm
  entries : ∀ t < numTerm, w.entries t = if t = w.viewing then videoEntry else bufferEntry t
  page : ∀ t < numTerm, w.page t = termPage t

/-- terminal_switch in the window. -/
def Window.switch (dest : ℕ) (w : Window) : Window :=
  { w with
    entries := Function.update (Function.update w.entries w.viewing (bufferEntry w.viewing)) dest
      videoEntry
    viewing := dest }

variable {k k' : Kernel}

theorem Window.Ready.windowed (h : k.window.Ready) {term : ℕ} (hterm : term < numTerm) :
    Windowed term k := ⟨h.viewing,h.entries,h.page term hterm⟩

theorem Window.Ready.switch {w : Window} (h : w.Ready) {dest : ℕ} (hdest : dest < numTerm) :
    (w.switch dest).Ready := by
  refine ⟨hdest,?_,h.page⟩
  intro t ht
  by_cases hd : t = (w.switch dest).viewing
  · rw [if_pos hd, hd]
    exact Function.update_self ..
  rw [if_neg hd]
  refine (Function.update_of_ne hd ..).trans ?_
  by_cases hview : t = w.viewing
  · rw [hview, Function.update_self]
  · rw [Function.update_of_ne hview, h.entries t ht, if_neg hview]

/-! ### What leaves the window alone -/

section
variable (k)

theorem onTerminal_window (term : ℕ) {f : Terminal → Terminal}
    (hf : ∀ t, (f t).termVideoMem = t.termVideoMem) : (k.onTerminal term f).window = k.window := by
  have hpage : (fun t => ((k.onTerminal term f).terminal t).termVideoMem) =
      fun t => (k.terminal t).termVideoMem := by
    funext t
    rw [Kernel.onTerminal_terminal]
    split_ifs
    · exact hf _
    · rfl
  exact congrArg (Window.mk k.video.pageTabArrayVideo k.viewingTerm) hpage

end

theorem ScreenOnly.window (h : ScreenOnly k k') : k'.window = k.window := by
  have hview : k'.viewingTerm = k.viewingTerm := by rw [h.rest]
  have hpage : (fun t => (k'.terminal t).termVideoMem) = fun t => (k.terminal t).termVideoMem := by
    funext t
    rw [h.terminals t]
  rw [Kernel.window, h.pages, hview, hpage]
  rfl

theorem Hidden.window (h : Hidden k k') : k'.window = k.window := by
  have hpage : (fun t => (k'.terminal t).termVideoMem) = fun t => (k.terminal t).termVideoMem := by
    funext t
    rw [h.terminals t]
  rw [Kernel.window, hpage, h.rest]
  rfl

@[simp] theorem Video.loadProgram_pages (entry : ℕ) (bytes : List UInt8) (v : Video) :
    (v.loadProgram entry bytes).pageTabArrayVideo = v.pageTabArrayVideo := by
  refine foldl_keeps _ _ _ _ fun v i => ?_
  simp only
  split_ifs
  · rfl
  · exact Video.store_pages ..

/-- Only a stroke that moves the view moves the window. -/
theorem Draws.window {frame : Kernel → Kernel → Prop} {ok : Stroke → Prop}
    (hframe : ∀ k k', frame k k' → Hidden k k') (hview : ∀ cur dest, ¬ok (.view cur dest))
    (h : Draws frame ok k k') : k'.window = k.window := by
  refine h.keeps (P := fun k' => k'.window = k.window) ?_ rfl
  intro k₁ k₂ hdraw hk₁
  refine Eq.trans ?_ hk₁
  cases hdraw with
  | aside h => exact (hframe _ _ h).window
  | console hoff phys x y => rfl
  | stroke s hs =>
    cases s with
    | putc c term => exact (termPutc_screenOnly c term k₁).window
    | row term => exact (nextRow_screenOnly term k₁).window
    | erase term => exact (eraseCell_screenOnly term k₁).window
    | clear term => exact (termClear_screenOnly term k₁).window
    | view cur dest => exact absurd hs (hview cur dest)
    | load pid bytes =>
      exact congrArg (fun entries => Window.mk entries k₁.viewingTerm k₁.window.page)
        (Video.loadProgram_pages ..)

/-! ### The switch -/

@[simp] theorem Video.memcpy_pages (dest src n : ℕ) (v : Video) :
    (v.memcpy dest src n).pageTabArrayVideo = v.pageTabArrayVideo :=
  foldl_keeps _ _ _ _ fun _ _ => Video.store_pages ..

theorem viewTerm_window (dest : ℕ) (k : Kernel) :
    (viewTerm k.viewingTerm dest k).window = k.window.switch dest := by
  have hexchange : (exchangeScreens k.viewingTerm dest k).pageTabArrayVideo =
      (k.window.switch dest).entries := by
    simp [exchangeScreens, mapTermToVid, mapTermToBuf, Video.setPage, Window.switch, Kernel.window]
  exact (moveCursor_screenOnly dest _).window.trans
    (congrArg (fun entries => Window.mk entries dest k.window.page) hexchange)

/-- terminal_switch leaves the window as it is or moves the terminal in view. -/
theorem Switched.window {dest : ℕ} (h : Switched k.viewingTerm dest k k') :
    k'.window = k.window ∨ k'.window = k.window.switch dest := by
  cases h with
  | refused h => exact .inl (h.window (fun _ _ h => h.hidden) fun _ _ hs => hs)
  | viewed => exact .inr (viewTerm_window dest k)
  | shell _ _ h =>
    have hclear := (termClear_screenOnly dest (viewTerm k.viewingTerm dest k)).window
    have hshell := h.window (fun _ _ h => h.hidden) fun _ _ hs => hs
    exact .inr (hshell.trans (hclear.trans (viewTerm_window dest k)))

/-! ### Runs -/

theorem Window.Ready.of_eq (h : k.window.Ready) (heq : k'.window = k.window) : k'.window.Ready := by
  rwa [heq]

theorem keyboardSwitch_window (fs : FileSystem) (cpu : Cpu) (pressed : ℕ) (k : Kernel) :
    (keyboardSwitch fs cpu pressed k).2.window = k.window ∨
      ∃ dest < numTerm, (keyboardSwitch fs cpu pressed k).2.window = k.window.switch dest := by
  have hkeyed := keyboardSwitch_keyed fs cpu pressed k
  generalize keyboardSwitch fs cpu pressed k = r at *
  have hkeys {k' : Kernel} (h : Draws Hidden (Stroke.OfKeys k.viewingTerm) k k') :
      k'.window = k.window := by
    refine h.window (fun _ _ h => h) fun _ _ hs => ?_
    rcases hs with hs | hs
    · exact hs
    · cases hs
  have htyping {k' : Kernel} (h : Draws Hidden (Stroke.OfTyping k.viewingTerm) k k') :
      k'.window = k.window := h.window (fun _ _ h => h) fun _ _ hs => hs
  cases hkeyed with
  | erase _ => exact .inl (hkeys (backspace_draws _ k))
  | enter _ => exact .inl (htyping (enterPress_draws k))
  | history _ => exact .inl (hkeys (terminalHistory_draws k _))
  | tab _ => exact .inl (htyping (tabPress_draws k))
  | char _ => exact .inl (htyping (keyPress_draws k pressed))
  | clear _ => exact .inl (termClear_screenOnly ..).window
  | flags _ hk' => exact .inl hk'.hidden.window
  | @switch dest _ hdest _ =>
    exact (terminalSwitch_switched fs cpu k.viewingTerm dest k).window.imp id fun h =>
      ⟨dest,hdest,h⟩

/-- Only the switch of the terminal in view stores to the second table. -/
theorem step_window (fs : FileSystem) {op : Op} (hop : op.Proper) (k : Kernel) :
    ((kernel fs).next k op).window = k.window ∨
      ∃ dest < numTerm, ((kernel fs).next k op).window = k.window.switch dest := by
  have hcall (hquiet : op.Quiet) (h : op.Strokes k = Stroke.OfCall k.currentTerm (k.loads op)) :
      ((kernel fs).next k op).window = k.window := by
    have hdraws := quiet_draws fs k hquiet
    rw [h] at hdraws
    exact hdraws.window (fun _ _ h => h.hidden) fun _ _ hs => hs
  cases op with
  | switch dest cpu =>
    exact (terminalSwitch_switched fs cpu k.viewingTerm dest k).window.imp id fun h =>
      ⟨dest,hop,h⟩
  | key pressed cpu => exact keyboardSwitch_window fs cpu pressed { k with interrupts := false }
  | read fd null nbytes cpu => exact .inl (read_hidden fs fd null nbytes cpu k).window
  | resume => exact .inl (resume_hidden k).window
  | _ => exact .inl (hcall trivial rfl)

theorem step_ready (fs : FileSystem) {op : Op} (hop : op.Proper) (h : k.window.Ready) :
    ((kernel fs).next k op).window.Ready := by
  rcases step_window fs hop k with heq | ⟨dest,hdest,heq⟩
  · exact h.of_eq heq
  · rw [heq]
    exact h.switch hdest

theorem Displays.ready {S : ℕ → Screen} (h : Displays S k) : k.window.Ready :=
  ⟨h.viewing,h.shows.mapped,fun t ht => (h.window t ht).1⟩

theorem initial_ready (pcb : ℕ → PCB) (phys : ℕ → UInt8) : (initial pcb phys).window.Ready :=
  (terminalInit_displays (staticStorage pcb phys)).ready

/-- In every run, calls and output in any order, every terminal has its page in the window. -/
theorem run_windowed (fs : FileSystem) (pcb : ℕ → PCB) (phys : ℕ → UInt8) {ops : List ScreenOp}
    (hops : ∀ op ∈ ops, op.Proper) {term : ℕ} (hterm : term < numTerm) :
    Windowed term ((display fs).run (initial pcb phys) ops) := by
  have hready : ((display fs).run (initial pcb phys) ops).window.Ready := by
    refine System.Along.invariant (S := display fs) (I := fun k => k.window.Ready) ?_
      (initial_ready pcb phys) (System.along_of_forall (display fs) hops _)
    intro k op h hop
    cases op with
    | output term bytes => exact h.of_eq (termPuts_screenOnly bytes term k).window
    | call op => exact step_ready fs hop h
  exact hready.windowed hterm

end GameOfThreads
