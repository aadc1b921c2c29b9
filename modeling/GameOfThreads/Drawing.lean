import GameOfThreads.DescriptorTable
import GameOfThreads.ProcessRuns
import Mathlib.Logic.Relation

/-! What the routines draw. A kernel entry comes down to strokes on the screens, to programs put
into memory, and to changes of processes, files, clock and keyboard that no screen shows; there
is one lemma for each routine, and what all strokes leave alone is left alone by every run. -/
namespace GameOfThreads
open Machine Relation

/-- One step on a screen, or the bytes of one program. -/
inductive Stroke
  | putc (c : UInt8) (term : ℕ)
  | row (term : ℕ)
  | erase (term : ℕ)
  | clear (term : ℕ)
  | view (cur dest : ℕ)
  | load (pid : ℕ) (bytes : List UInt8)

/-- The other terminal comes into view. -/
def viewTerm (cur dest : ℕ) (k : Kernel) : Kernel :=
  moveCursor dest { k with video := exchangeScreens cur dest k, viewingTerm := dest }

def Stroke.apply : Stroke → Kernel → Kernel
  | .putc c term,k => termPutc c term k
  | .row term,k => nextRow term k
  | .erase term,k => eraseCell term k
  | .clear term,k => termClear term k
  | .view cur dest,k => viewTerm cur dest k
  | .load pid bytes,k => { k with video := k.video.loadProgram (userEntry pid) bytes }

/-- Between the strokes changes that `frame` allows; the boot console writes by itself. -/
inductive Draw (frame : Kernel → Kernel → Prop) (ok : Stroke → Prop) : Kernel → Kernel → Prop
  | aside {k k'} (h : frame k k') : Draw frame ok k k'
  | console {k} (hoff : k.termsOn ≠ 1) (phys : ℕ → UInt8) (x y : ℤ) :
      Draw frame ok k { k with video := { k.video with phys := phys }, bootX := x, bootY := y }
  | stroke {k} (s : Stroke) (hs : ok s) : Draw frame ok k (s.apply k)

abbrev Draws (frame : Kernel → Kernel → Prop) (ok : Stroke → Prop) : Kernel → Kernel → Prop :=
  ReflTransGen (Draw frame ok)

/-- `k'` differs from `k` in processes, their files and the clock only. -/
structure Aside (k k' : Kernel) : Prop where
  rest : k' = { k with
    terminal := k'.terminal, currentTerm := k'.currentTerm, pcbInUse := k'.pcbInUse
    totalProgs := k'.totalProgs, processCnt := k'.processCnt, pcb := k'.pcb
    pageDirUser := k'.pageDirUser, tssEsp0 := k'.tssEsp0, interrupts := k'.interrupts
    rtcFlag := k'.rtcFlag, rate := k'.rate, registerA := k'.registerA, waiting := k'.waiting }
  terminals : ∀ t, k'.terminal t = { k.terminal t with process := (k'.terminal t).process }

/-- `k'` differs from `k` in the files and the clock only. -/
structure FilesOnly (k k' : Kernel) : Prop where
  rest : k' = { k with
    pcb := k'.pcb, interrupts := k'.interrupts, rtcFlag := k'.rtcFlag, rate := k'.rate
    registerA := k'.registerA }

/-- `k'` differs from `k` in nothing that the screens show, nor in where they are shown. -/
structure Hidden (k k' : Kernel) : Prop where
  rest : k' = { k with
    terminal := k'.terminal, currentTerm := k'.currentTerm, pcbInUse := k'.pcbInUse
    totalProgs := k'.totalProgs, processCnt := k'.processCnt, pcb := k'.pcb
    pageDirUser := k'.pageDirUser, tssEsp0 := k'.tssEsp0, interrupts := k'.interrupts
    rtcFlag := k'.rtcFlag, rate := k'.rate, registerA := k'.registerA, waiting := k'.waiting
    capFlag := k'.capFlag, shiftFlag := k'.shiftFlag, altFlag := k'.altFlag
    ctlFlag := k'.ctlFlag, numFlag := k'.numFlag, keyStores := k'.keyStores
    histCopies := k'.histCopies }
  terminals : ∀ t, k'.terminal t = { k'.terminal t with
    screenX := (k.terminal t).screenX, screenY := (k.terminal t).screenY
    termVideoMem := (k.terminal t).termVideoMem, color := (k.terminal t).color }

section
variable {frame frame' : Kernel → Kernel → Prop} {ok ok' : Stroke → Prop} {k k' k'' : Kernel}

theorem Draws.aside (h : Draws frame ok k k') (h' : frame k' k'') : Draws frame ok k k'' :=
  h.tail (.aside h')

theorem Draws.stroke (h : Draws frame ok k k') {s : Stroke} (hs : ok s) :
    Draws frame ok k (s.apply k') := h.tail (.stroke s hs)

theorem Draws.of_aside (h : frame k k') : Draws frame ok k k' := .single (.aside h)

theorem Draws.of_eq (h : k' = k) : Draws frame ok k k' := h ▸ .refl

theorem Draws.mono (hframe : ∀ k k', frame k k' → frame' k k') (hok : ∀ s, ok s → ok' s)
    (h : Draws frame ok k k') : Draws frame' ok' k k' := by
  refine ReflTransGen.mono (r := Draw frame ok) ?_ k k' h
  intro k k' hdraw
  cases hdraw with
  | aside h => exact .aside (hframe _ _ h)
  | console hoff phys x y => exact .console hoff phys x y
  | stroke s hs => exact .stroke s (hok s hs)

/-- What every frame and every stroke keeps is kept. -/
theorem Draws.keeps {P : Kernel → Prop} (hstep : ∀ k k', Draw frame ok k k' → P k → P k')
    (h : Draws frame ok k k') (hk : P k) : P k' := by
  induction h with
  | refl => exact hk
  | tail _ hdraw ih => exact hstep _ _ hdraw ih

theorem Draws.foldl {α : Type*} {g : Kernel → α → Kernel} (h : ∀ k a, Draws frame ok k (g k a))
    (l : List α) (k : Kernel) : Draws frame ok k (l.foldl g k) := by
  induction l generalizing k with
  | nil => exact .refl
  | cons a l ih => exact (h k a).trans (ih _)

theorem Aside.refl (k : Kernel) : Aside k k := ⟨rfl,fun _ => rfl⟩

theorem Aside.trans (h : Aside k k') (h' : Aside k' k'') : Aside k k'' := by
  refine ⟨?_,fun t => ?_⟩
  · rw [h'.rest, h.rest]
  · rw [h'.terminals t, h.terminals t]

theorem FilesOnly.refl (k : Kernel) : FilesOnly k k := ⟨rfl⟩

theorem FilesOnly.trans (h : FilesOnly k k') (h' : FilesOnly k' k'') : FilesOnly k k'' := by
  constructor
  rw [h'.rest, h.rest]

theorem FilesOnly.aside (h : FilesOnly k k') : Aside k k' := by
  refine ⟨?_,fun t => ?_⟩
  · rw [h.rest]
  · rw [h.rest]

theorem ClockOnly.files (h : ClockOnly k k') : FilesOnly k k' := by
  constructor
  rw [h.rest]

theorem Aside.hidden (h : Aside k k') : Hidden k k' := by
  refine ⟨?_,fun t => ?_⟩
  · rw [h.rest]
  · rw [h.terminals t]

theorem FlagsOnly.hidden (h : FlagsOnly k k') : Hidden k k' := by
  refine ⟨?_,fun t => ?_⟩
  · rw [h.rest]
  · rw [h.rest]

theorem Hidden.refl (k : Kernel) : Hidden k k := ⟨rfl,fun _ => rfl⟩

theorem Hidden.trans (h : Hidden k k') (h' : Hidden k' k'') : Hidden k k'' := by
  refine ⟨?_,fun t => ?_⟩
  · rw [h'.rest, h.rest]
  · rw [h'.terminals t, h.terminals t]

/-- `k'` differs from `k` on the screens and the terminals only. -/
structure OnScreens (k k' : Kernel) : Prop where
  rest : k' = { k with
    terminal := k'.terminal, video := k'.video, viewingTerm := k'.viewingTerm
    bootX := k'.bootX, bootY := k'.bootY, cursorLow := k'.cursorLow, cursorHigh := k'.cursorHigh }

theorem ScreenOnly.onScreens (h : ScreenOnly k k') : OnScreens k k' := by
  constructor
  rw [h.rest]

theorem Stroke.onScreens (s : Stroke) (k : Kernel) : OnScreens k (s.apply k) := by
  cases s with
  | putc c term => exact (termPutc_screenOnly c term k).onScreens
  | row term => exact (nextRow_screenOnly term k).onScreens
  | erase term => exact (eraseCell_screenOnly term k).onScreens
  | clear term => exact (termClear_screenOnly term k).onScreens
  | view cur dest =>
    constructor
    dsimp only [Stroke.apply, viewTerm]
    rw [(moveCursor_screenOnly ..).rest]
  | load pid bytes => exact ⟨rfl⟩

/-- What neither the screens nor the frames reach is as it was. -/
theorem Draws.same {α : Type*} (part : Kernel → α)
    (hframe : ∀ k k', frame k k' → part k' = part k)
    (hscreen : ∀ k k', OnScreens k k' → part k' = part k) (h : Draws frame ok k k') :
    part k' = part k := by
  refine h.keeps (P := fun k' => part k' = part k) ?_ rfl
  intro k₁ k₂ hdraw hk₁
  refine Eq.trans ?_ hk₁
  cases hdraw with
  | aside h => exact hframe _ _ h
  | console hoff phys x y => exact hscreen _ _ ⟨rfl⟩
  | stroke s hs => exact hscreen _ _ (s.onScreens k₁)

/-- A change of a terminal that leaves its screen alone. -/
theorem Hidden.onTerminal {term : ℕ} {f : Terminal → Terminal} (hf : ∀ t, f t = { f t with
      screenX := t.screenX, screenY := t.screenY, termVideoMem := t.termVideoMem
      color := t.color }) (k : Kernel) : Hidden k (k.onTerminal term f) := by
  refine ⟨rfl,fun t => ?_⟩
  rw [Kernel.onTerminal_terminal]
  split_ifs
  · exact hf _
  · rfl

end

/-! ### Output -/

section
variable {frame : Kernel → Kernel → Prop} {ok : Stroke → Prop}

theorem putc_draws (c : UInt8) {k : Kernel} (hok : ok (.putc c k.currentTerm)) :
    Draws frame ok k (putc c k) := by
  unfold putc
  split_ifs with hon
  · exact .single (.stroke _ hok)
  · exact .single (.console hon k.video.phys 0 _)
  · exact .single (.console hon _ _ _)

theorem ScreenOnly.currentTerm {k k' : Kernel} (h : ScreenOnly k k') :
    k'.currentTerm = k.currentTerm := by rw [h.rest]

theorem printf_draws (s : List UInt8) {k : Kernel} (hok : ∀ c, ok (.putc c k.currentTerm)) :
    Draws frame ok k (printf s k) := by
  induction s generalizing k with
  | nil => exact .refl
  | cons c s ih =>
    have hkeep := (putc_screenOnly c k).currentTerm
    exact (putc_draws c (hok c)).trans (ih (hkeep ▸ hok))

end

/-! ### Processes -/

/-- The strokes of a call: characters on the terminal that runs, and the program that it
starts. -/
def Stroke.OfCall (term : ℕ) (next : Option ℕ) : Stroke → Prop
  | .putc _ t => t = term
  | .load pid _ => next = some pid
  | _ => False

theorem setProcess_aside (t p : ℕ) (k : Kernel) :
    Aside k (k.onTerminal t (Terminal.setProcess p)) := by
  refine ⟨rfl,?_⟩
  intro u
  rw [Kernel.onTerminal_terminal]
  split_ifs <;> rfl

theorem startProcess_aside (cpu : Cpu) (pid : ℕ) (args : List UInt8) (k : Kernel) :
    Aside k (startProcess cpu pid args k) := by
  have hpcb : Aside k (k.onPcb pid (PCB.start pid (k.table.parentFor pid) args cpu)) :=
    ⟨rfl,fun _ => rfl⟩
  apply (hpcb.trans (setProcess_aside k.currentTerm pid _)).trans
  exact ⟨rfl,fun _ => rfl⟩

theorem loadProcess_draws {next : Option ℕ} {pid : ℕ} (hnext : next = some pid)
    (bytes : List UInt8) (term : ℕ) (k : Kernel) :
    Draws Aside (Stroke.OfCall term next) k (loadProcess pid bytes k) := by
  have hmap : Aside k (setPageExecute pid { k with interrupts := false }) := ⟨rfl,fun _ => rfl⟩
  exact (Draws.of_aside hmap).stroke (s := .load pid bytes) hnext

theorem carryOut_draws (v : Verdict) (cpu : Cpu) {next : Option ℕ} {pid : ℕ}
    (hnext : next = some pid) (k : Kernel) :
    Draws Aside (Stroke.OfCall k.currentTerm next) k (v.carryOut cpu pid k).2 := by
  cases v with
  | null => exact .refl
  | refused message => exact (printf_draws message fun _ => rfl).aside ⟨rfl,fun _ => rfl⟩
  | overrun => exact .refl
  | broken bytes =>
    exact (loadProcess_draws hnext bytes k.currentTerm k).aside ⟨rfl,fun _ => rfl⟩
  | accepted args entry bytes =>
    exact (loadProcess_draws hnext bytes k.currentTerm k).aside (startProcess_aside ..)

theorem execute_draws (fs : FileSystem) (cpu : Cpu) (command : Option (List UInt8))
    (k : Kernel) : Draws Aside (Stroke.OfCall k.currentTerm k.table.nextPid) k
      (execute fs cpu command k).2 := by
  cases hpid : k.table.nextPid with
  | none =>
    simp only [execute_eq, hpid]
    exact printf_draws _ fun _ => rfl
  | some pid =>
    simp only [execute_eq, hpid]
    have hclaim : Aside k (claimPid pid k) := ⟨rfl,fun _ => rfl⟩
    exact (Draws.of_aside hclaim).trans (carryOut_draws _ cpu rfl (claimPid pid k))

theorem returnToParent_aside (status p : ℕ) (k : Kernel) :
    Aside k (returnToParent status p k).2 := by
  have hprocess := setProcess_aside k.currentTerm (k.pcb p).parentPidNum k
  simp only [returnToParent]
  split_ifs
  · exact hprocess.trans ⟨rfl,fun _ => rfl⟩
  · exact hprocess.trans ⟨rfl,fun _ => rfl⟩

/-- The PID of the shell that takes the place of the last process of a terminal. -/
def Kernel.successor (k : Kernel) : Option ℕ :=
  if k.table.remove.totalProgs k.currentTerm = 0 then k.table.remove.nextPid else none

theorem halt_draws (fs : FileSystem) (cpu : Cpu) (status : ℕ) (k : Kernel) :
    Draws Aside (Stroke.OfCall k.currentTerm k.successor) k (halt fs cpu status k).2 := by
  have hremove : Aside k
      (removeProcess k.running (closeFiles { k with interrupts := false })) := by
    rw [closeFiles_eq]
    exact ⟨rfl,fun _ => rfl⟩
  have htable : (removeProcess k.running (closeFiles { k with interrupts := false })).table =
      k.table.remove := removeProcess_table k
  apply (Draws.of_aside hremove).trans
  simp only [halt]
  generalize removeProcess k.running (closeFiles { k with interrupts := false }) = k' at *
  have hcurrent : k'.currentTerm = k.currentTerm := congrArg Table.currentTerm htable
  split_ifs with hlast
  · have hnext : k.successor = k'.table.nextPid := by
      have hnone : k.table.remove.totalProgs k.currentTerm = 0 := by
        rw [← htable, ← hcurrent]
        exact hlast
      rw [Kernel.successor, if_pos hnone, htable]
    rw [hnext, ← hcurrent]
    have hexec := execute_draws fs cpu (some (text "shell")) k'
    generalize execute fs cpu (some (text "shell")) k' = r at *
    obtain ⟨r,k''⟩ := r
    cases r with
    | started pid entry => exact hexec
    | failed => exact hexec.aside (returnToParent_aside ..)
    | overrun => exact hexec.aside (returnToParent_aside ..)
  · exact Draws.of_aside (returnToParent_aside ..)

theorem successor_mark (k : Kernel) :
    (k.onPcb k.running (PCB.setHaltStat 1)).successor = k.successor := by
  have hpid : (k.table.onPcb k.table.running (PCB.setHaltStat 1)).remove.pcbInUse =
      k.table.remove.pcbInUse := by
    simp only [Table.remove, Table.onPcb, Table.running, Function.update_self, PCB.setHaltStat]
  rw [Kernel.successor, Kernel.successor, Table.nextPid, Table.nextPid, ← hpid]
  rfl

theorem squashException_draws (fs : FileSystem) (cpu : Cpu) (k : Kernel) :
    Draws Aside (Stroke.OfCall k.currentTerm k.successor) k (squashException fs cpu k).2 := by
  unfold squashException
  split_ifs
  · have hmark : Aside k (k.onPcb k.running (PCB.setHaltStat 1)) := ⟨rfl,fun _ => rfl⟩
    have hhalt := halt_draws fs cpu 0 (k.onPcb k.running (PCB.setHaltStat 1))
    rw [successor_mark] at hhalt
    exact (Draws.of_aside hmark).trans hhalt
  · exact .refl

theorem pitHandler_aside (cpu : Cpu) (k : Kernel) : Aside k (pitHandler cpu k).2 := by
  simp only [pitHandler]
  split_ifs <;> exact ⟨rfl,fun _ => rfl⟩

/-! ### The switch of the view -/

/-- execute stays on its terminal and leaves the one in view alone. -/
theorem execute_terms (fs : FileSystem) (cpu : Cpu) (command : Option (List UInt8)) (k : Kernel) :
    (execute fs cpu command k).2.currentTerm = k.currentTerm ∧
      (execute fs cpu command k).2.viewingTerm = k.viewingTerm := by
  have hterms : ∀ {T : Table}, (execute fs cpu command k).2.table = T →
      T.currentTerm = k.currentTerm ∧ T.viewingTerm = k.viewingTerm →
      (execute fs cpu command k).2.currentTerm = k.currentTerm ∧
        (execute fs cpu command k).2.viewingTerm = k.viewingTerm := by
    rintro T rfl h
    exact h
  rcases execute_cases fs cpu command k with ⟨-,-,ht⟩ | ⟨pid,-,hcases⟩
  · exact hterms ht ⟨rfl,rfl⟩
  rcases hcases with ⟨-,-,ht⟩ | ⟨_,-,-,ht⟩ | ⟨-,-,ht⟩ | ⟨_,-,-,ht⟩ | ⟨_,_,_,-,-,ht⟩
  · exact hterms ht ⟨rfl,rfl⟩
  · exact hterms ht ⟨rfl,rfl⟩
  · exact hterms ht ⟨rfl,rfl⟩
  · exact hterms ht ⟨rfl,rfl⟩
  · exact hterms ht ⟨rfl,rfl⟩

/-- What terminal_switch draws: a message, or the other screen, which is cleared before the
shell of a terminal without programs starts on it. -/
inductive Switched (cur dest : ℕ) (k : Kernel) : Kernel → Prop
  | refused {k'} (h : Draws Aside (Stroke.OfCall k.currentTerm none) k k') : Switched cur dest k k'
  | viewed : Switched cur dest k (viewTerm cur dest k)
  | shell {k'} (hdiffers : dest ≠ cur) (hnone : k.totalProgs dest = 0)
      (h : Draws Aside (Stroke.OfCall dest k.table.nextPid)
        (termClear dest (viewTerm cur dest k)) k') : Switched cur dest k k'

theorem viewTerm_table (cur dest : ℕ) (k : Kernel) :
    (viewTerm cur dest k).table = { k.table with viewingTerm := dest } := by
  rw [viewTerm, (moveCursor_screenOnly ..).table]
  rfl

theorem terminalSwitch_switched (fs : FileSystem) (cpu : Cpu) (cur dest : ℕ) (k : Kernel) :
    Switched cur dest k (terminalSwitch fs cpu cur dest k).2 := by
  unfold terminalSwitch
  split_ifs with hdiffers
  · dsimp only
    exact .refused (printf_draws _ fun _ => rfl)
  · dsimp only
    exact .refused (printf_draws _ fun _ => rfl)
  obtain ⟨-,hdiffers⟩ := not_or.mp hdiffers
  have htable := viewTerm_table cur dest k
  simp only
  rw [← viewTerm]
  split_ifs with hnone
  · have hprogs : k.totalProgs dest = 0 :=
      (congrFun (congrArg Table.totalProgs htable) dest).symm.trans hnone
    refine .shell hdiffers hprogs ?_
    have hsame : (termClear dest (viewTerm cur dest k)).table.nextPid = k.table.nextPid := by
      rw [(termClear_screenOnly ..).table, htable]
      rfl
    generalize termClear dest (viewTerm cur dest k) = k' at *
    have hpark : Aside k' { k'.onPcb (k.terminal cur).process (PCB.saveContext cpu) with
        currentTerm := dest } := ⟨rfl,fun _ => rfl⟩
    have hnext : Table.nextPid (Kernel.table { k'.onPcb (k.terminal cur).process
        (PCB.saveContext cpu) with currentTerm := dest }) = k.table.nextPid := hsame
    have hthere : Kernel.currentTerm { k'.onPcb (k.terminal cur).process
        (PCB.saveContext cpu) with currentTerm := dest } = dest := rfl
    generalize ({ k'.onPcb (k.terminal cur).process (PCB.saveContext cpu) with
      currentTerm := dest } : Kernel) = k₂ at *
    have hexec := execute_draws fs cpu (some (text "shell")) k₂
    have hstay := (execute_terms fs cpu (some (text "shell")) k₂).1
    rw [hnext, hthere] at hexec
    have hshell := (Draws.of_aside hpark).trans hexec
    generalize execute fs cpu (some (text "shell")) k₂ = r at *
    obtain ⟨r,k₃⟩ := r
    have hthere₃ : k₃.currentTerm = dest := hstay.trans hthere
    cases r with
    | started pid entry => exact hshell
    | failed =>
      dsimp only
      exact hshell.trans (printf_draws _ fun _ => hthere₃)
    | overrun =>
      dsimp only
      exact hshell.trans (printf_draws _ fun _ => hthere₃)
  · exact .viewed

/-- The strokes of terminal_switch. -/
def Stroke.OfSwitch (cur dest : ℕ) (k : Kernel) : Stroke → Prop
  | .putc _ t => t = k.currentTerm ∨ t = dest ∧ dest ≠ cur ∧ k.totalProgs dest = 0
  | .clear t => t = dest ∧ dest ≠ cur ∧ k.totalProgs dest = 0
  | .view c d => c = cur ∧ d = dest
  | .load pid _ => k.table.nextPid = some pid
  | _ => False

theorem Switched.draws {cur dest : ℕ} {k k' : Kernel} (h : Switched cur dest k k') :
    Draws Aside (Stroke.OfSwitch cur dest k) k k' := by
  cases h with
  | refused h =>
    refine h.mono (fun _ _ h => h) ?_
    intro s hs
    cases s with
    | putc c t => exact .inl hs
    | load pid bytes => cases hs
    | _ => exact hs.elim
  | viewed => exact .single (.stroke (.view cur dest) ⟨rfl,rfl⟩)
  | shell hdiffers hnone h =>
    have hclear : Draws Aside (Stroke.OfSwitch cur dest k) k
        (termClear dest (viewTerm cur dest k)) :=
      (ReflTransGen.single (.stroke (.view cur dest) ⟨rfl,rfl⟩)).tail
        (.stroke (.clear dest) ⟨rfl,hdiffers,hnone⟩)
    refine hclear.trans (h.mono (fun _ _ h => h) ?_)
    intro s hs
    cases s with
    | putc c t => exact .inr ⟨hs,hdiffers,hnone⟩
    | load pid bytes => exact hs
    | _ => exact hs.elim

/-! ### Files and the clock -/

theorem setDes_filesOnly (fd : ℕ) (des : FileDes) (k : Kernel) :
    FilesOnly k (k.setDes fd des) := ⟨rfl⟩

theorem openAt_filesOnly (fd : ℕ) (des : Option FileDes) (k : Kernel) :
    FilesOnly k (openAt fd k des).2 := by
  cases des with
  | none => exact .refl k
  | some des =>
    apply (setDes_filesOnly fd des k).trans
    simp only [openAt]
    cases des.opTable with
    | rtcOps => exact (openRtc_clockOnly _).files
    | _ => exact .refl _

theorem sysOpen_filesOnly (fs : FileSystem) (filename : Option (List UInt8)) (k : Kernel) :
    FilesOnly k (sysOpen fs filename k).2 := by
  unfold sysOpen
  cases fs.readDentryByName filename with
  | none => exact .refl k
  | some dentry =>
    simp only
    cases k.freeDes with
    | none => exact .refl k
    | some fd => exact openAt_filesOnly fd _ k

theorem close_filesOnly (fd : ℤ) (k : Kernel) : FilesOnly k (close fd k).2 := by
  unfold close
  split_ifs
  · exact .refl k
  · exact .refl k
  · exact setDes_filesOnly ..

theorem terminalWrite_draws {frame : Kernel → Kernel → Prop} (fd : ℤ) (buf : Option (ℕ → UInt8))
    (nbytes : ℤ) (k : Kernel) :
    Draws frame (Stroke.OfCall k.currentTerm none) k (terminalWrite fd buf nbytes k).2 := by
  cases buf with
  | none => exact .refl
  | some buf =>
    simp only [terminalWrite]
    split_ifs
    · exact .refl
    · dsimp only
      generalize List.range nbytes.toNat = l
      induction l generalizing k with
      | nil => exact .refl
      | cons i l ih =>
        have hkeep := (termPutc_screenOnly (buf i) k.currentTerm k).currentTerm
        have hrest := ih (termPutc (buf i) k.currentTerm k)
        rw [hkeep] at hrest
        exact (ReflTransGen.single (.stroke (.putc (buf i) k.currentTerm) rfl)).trans hrest

theorem write_draws (fd : ℤ) (buf : Option (ℕ → UInt8)) (nbytes : ℤ) (k : Kernel) :
    Draws FilesOnly (Stroke.OfCall k.currentTerm none) k (write fd buf nbytes k).2 := by
  unfold write
  split_ifs
  · exact .refl
  · exact .refl
  · cases (k.des fd.toNat).opTable with
    | rtcOps => exact Draws.of_aside (writeRtc_clockOnly buf nbytes k).files
    | stdOps => exact terminalWrite_draws fd buf nbytes k
    | _ => exact .refl

theorem getargs_same (null : Bool) (nbytes : ℤ) (k : Kernel) : (getargs null nbytes k).2 = k := by
  simp only [getargs]
  split_ifs <;> rfl

theorem vidmap_same (screenStart : ℕ) (k : Kernel) : (vidmap screenStart k).2 = k := by
  simp only [vidmap]
  split_ifs <;> rfl

theorem fileRead_filesOnly (fs : FileSystem) (fd : ℤ) (null : Bool) (nbytes : ℤ) (k : Kernel) :
    FilesOnly k (fileRead fs fd null nbytes k).2 := by
  simp only [fileRead]
  split_ifs
  · exact .refl k
  · exact setDes_filesOnly ..
  · exact .refl k

theorem directoryRead_filesOnly (fs : FileSystem) (fd : ℤ) (null : Bool) (nbytes : ℤ) (cpu : Cpu)
    (k : Kernel) : FilesOnly k (directoryRead fs fd null nbytes cpu k).2 := by
  simp only [directoryRead]
  split_ifs
  · exact .refl k
  · exact .refl k
  · cases fs.readDentryByIndex (u32 (k.des fd.toNat).filePosition) ⟨cpu.stack⟩ with
    | none => exact .refl k
    | some dentry => exact setDes_filesOnly ..

theorem readRtc_filesOnly {k k' : Kernel} {value : ℤ} (h : readRtc k = some (value,k')) :
    FilesOnly k k' := by
  unfold readRtc at h
  split_ifs at h
  cases h
  exact ⟨rfl⟩

theorem waiting_aside (waiting : ℕ → Option Wait) (k : Kernel) :
    Aside k { k with waiting := waiting } := ⟨rfl,fun _ => rfl⟩

/-- Only a read of the terminal does anything to the terminals. -/
theorem read_cases (fs : FileSystem) (fd : ℤ) (null : Bool) (nbytes : ℤ) (cpu : Cpu) (k : Kernel) :
    Aside k (read fs fd null nbytes cpu k).2 ∨
      read fs fd null nbytes cpu k = terminalRead null nbytes k := by
  unfold read
  split_ifs
  · exact .inl (.refl k)
  · exact .inl (.refl k)
  · cases (k.des fd.toNat).opTable with
    | null => exact .inl (.refl k)
    | rtcOps =>
      cases hread : readRtc k with
      | none => exact .inl (waiting_aside _ k)
      | some r =>
        obtain ⟨value,k'⟩ := r
        exact .inl (readRtc_filesOnly hread).aside
    | fileOps => exact .inl (fileRead_filesOnly ..).aside
    | directoryOps => exact .inl (directoryRead_filesOnly ..).aside
    | stdOps => exact .inr rfl

/-- terminal_read stops in its loop, or goes through to its end. -/
theorem terminalRead_cases (null : Bool) (nbytes : ℤ) (k : Kernel) :
    Aside (terminalReadStart null nbytes k).2 (terminalRead null nbytes k).2 ∨
      ∃ limit, (terminalRead null nbytes k).2 =
        (terminalReadFinish limit (terminalReadStart null nbytes k).2).2 := by
  unfold terminalRead
  generalize terminalReadStart null nbytes k = r
  obtain ⟨limit,k'⟩ := r
  cases limit with
  | none => exact .inl (.refl k')
  | some limit =>
    simp only
    split_ifs
    · exact .inl (waiting_aside _ k')
    · exact .inr ⟨limit,rfl⟩

/-- A blocked call goes on waiting, or goes through to its end. -/
theorem resume_cases (k : Kernel) : Aside k (resume k).2 ∨
    ∃ limit, Aside (terminalReadFinish limit k).2 (resume k).2 := by
  simp only [resume]
  cases k.waiting k.running with
  | none => exact .inl (.refl k)
  | some w =>
    cases w with
    | terminal limit =>
      simp only
      split_ifs
      · exact .inl (.refl k)
      · exact .inr ⟨limit,waiting_aside _ _⟩
    | rtc =>
      simp only
      cases hread : readRtc k with
      | none => exact .inl (.refl k)
      | some r =>
        obtain ⟨value,k'⟩ := r
        exact .inl ((readRtc_filesOnly hread).aside.trans (waiting_aside _ k'))

/-! ### The keyboard buffer -/

/-- The strokes of the keys on a terminal that put something there. -/
def Stroke.OfTyping (term : ℕ) : Stroke → Prop
  | .putc _ t => t = term
  | .row t => t = term
  | .clear t => t = term
  | _ => False

/-- The strokes of the keys on a terminal. -/
def Stroke.OfKeys (term : ℕ) (s : Stroke) : Prop := s.OfTyping term ∨ s = .erase term

theorem storeKey_hidden (term i : ℕ) (c : UInt8) (k : Kernel) :
    Hidden k (storeKey term i c k) := by
  have hstore : Hidden k (k.onTerminal term (Terminal.storeKey i c)) := by
    refine Hidden.onTerminal (fun t => ?_) k
    unfold Terminal.storeKey
    split_ifs <;> rfl
  exact hstore.trans ⟨rfl,fun _ => rfl⟩

theorem clearKeyBuf_hidden (term : ℕ) (k : Kernel) : Hidden k (clearKeyBuf term k) := by
  have hloop : Hidden k ((List.range keyBuffSize).foldl
      (fun k index => storeKey term index noke k) k) := by
    generalize List.range keyBuffSize = l
    induction l generalizing k with
    | nil => exact .refl k
    | cons i l ih => exact (storeKey_hidden term i noke k).trans (ih _)
  exact hloop.trans (Hidden.onTerminal (fun _ => rfl) _)

theorem terminalReadStart_hidden (null : Bool) (nbytes : ℤ) (k : Kernel) :
    Hidden k (terminalReadStart null nbytes k).2 := by
  have hwanted : Hidden k (k.onTerminal k.currentTerm (Terminal.setReadWanted 1)) :=
    Hidden.onTerminal (fun _ => rfl) k
  simp only [terminalReadStart]
  split_ifs <;> exact hwanted

theorem terminalReadFinish_hidden (limit : ℕ) (k : Kernel) :
    Hidden k (terminalReadFinish limit k).2 := by
  rw [terminalReadFinish_eq]
  have hflag : Hidden k (k.onTerminal k.currentTerm (Terminal.setEnterFlag 0)) :=
    Hidden.onTerminal (fun _ => rfl) k
  exact (hflag.trans (clearKeyBuf_hidden _ _)).trans (Hidden.onTerminal (fun _ => rfl) _)

theorem read_hidden (fs : FileSystem) (fd : ℤ) (null : Bool) (nbytes : ℤ) (cpu : Cpu)
    (k : Kernel) : Hidden k (read fs fd null nbytes cpu k).2 := by
  rcases read_cases fs fd null nbytes cpu k with hread | hread
  · exact hread.hidden
  have hstart := terminalReadStart_hidden null nbytes k
  rw [hread]
  rcases terminalRead_cases null nbytes k with hread | ⟨limit,hread⟩
  · exact hstart.trans hread.hidden
  · rw [hread]
    exact hstart.trans (terminalReadFinish_hidden limit _)

theorem resume_hidden (k : Kernel) : Hidden k (resume k).2 := by
  rcases resume_cases k with hresume | ⟨limit,hresume⟩
  · exact hresume.hidden
  · exact (terminalReadFinish_hidden limit k).trans hresume.hidden

/-! ### The keys -/

section
variable (term : ℕ) (k : Kernel)

/-- One stroke after changes that no screen shows, and such changes after it. -/
theorem Draws.around {ok : Stroke → Prop} {k' k'' : Kernel} (h : Hidden k k') {s : Stroke}
    (hs : ok s) (h' : Hidden (s.apply k') k'') : Draws Hidden ok k k'' :=
  ((Draws.of_aside h).stroke hs).aside h'

theorem typeKey_draws (c : UInt8) : Draws Hidden (Stroke.OfTyping term) k (typeKey c term k) := by
  have hstore := storeKey_hidden term (k.terminal term).keyboardBufIdx c k
  exact .around k (hstore.trans (.onTerminal (fun _ => rfl) _)) (s := .putc c term) rfl (.refl _)

theorem backspace_draws : Draws Hidden (Stroke.OfKeys term) k (backspace term k) := by
  by_cases hzero : (k.terminal term).keyboardBufIdx = 0
  · rw [backspace, if_pos hzero]
  · rw [backspace_eq hzero]
    have hstore := storeKey_hidden term ((k.terminal term).keyboardBufIdx-1) noke
      (eraseCell term k)
    exact .around k (.refl k) (s := .erase term) (.inr rfl)
      (hstore.trans (.onTerminal (fun _ => rfl) _))

theorem enter_draws : Draws Hidden (Stroke.OfTyping term) k (enter term k) := by
  have hrow : Draws Hidden (Stroke.OfTyping term) k (nextRow term k) :=
    .single (.stroke (.row term) rfl)
  simp only [enter]
  split_ifs
  · exact hrow
  · exact hrow.aside ((clearKeyBuf_hidden term _).trans (.onTerminal (fun _ => rfl) _))

theorem keyPress_draws (code : ℕ) :
    Draws Hidden (Stroke.OfTyping k.viewingTerm) k (keyPress code k) := by
  simp only [keyPress]
  split_ifs
  · exact .refl
  · exact typeKey_draws ..
  · exact .refl
  · exact .refl

theorem tabPress_draws : Draws Hidden (Stroke.OfTyping k.viewingTerm) k (tabPress k) := by
  unfold tabPress
  split_ifs with hroom
  · clear hroom
    generalize List.range 3 = l
    induction l generalizing k with
    | nil => exact .refl
    | cons a l ih =>
      have hkeep : (typeKey space k.viewingTerm k).viewingTerm = k.viewingTerm := by
        rw [(typeKey_terminalsOnly space k.viewingTerm k).rest]
      have hrest := ih (typeKey space k.viewingTerm k)
      rw [hkeep] at hrest
      exact (typeKey_draws k.viewingTerm k space).trans hrest
  · exact .refl

theorem Terminal.limitHistory_hidden (t : Terminal) : t.limitHistory = { t.limitHistory with
    screenX := t.screenX, screenY := t.screenY, termVideoMem := t.termVideoMem
    color := t.color } := by
  unfold Terminal.limitHistory
  split_ifs <;> rfl

theorem enterPress_draws : Draws Hidden (Stroke.OfTyping k.viewingTerm) k (enterPress k) := by
  simp only [enterPress]
  refine Draws.aside ?_ (Hidden.onTerminal Terminal.limitHistory_hidden _)
  refine ReflTransGen.trans ?_ (enter_draws _ _)
  apply Draws.of_aside
  have hflag : Hidden k (k.onTerminal k.viewingTerm (Terminal.setEnterFlag 1)) :=
    Hidden.onTerminal (fun _ => rfl) k
  generalize k.onTerminal k.viewingTerm (Terminal.setEnterFlag 1) = k₁ at *
  have hstore := hflag.trans (storeKey_hidden k.viewingTerm
    (k₁.terminal k.viewingTerm).keyboardBufIdx newline k₁)
  generalize storeKey k.viewingTerm _ newline k₁ = k₂ at *
  have hinc : Hidden k (k₂.onTerminal k.viewingTerm Terminal.incIdx) :=
    hstore.trans (.onTerminal (fun _ => rfl) k₂)
  generalize k₂.onTerminal k.viewingTerm Terminal.incIdx = k₃ at *
  have hsave : Hidden k (k₃.onTerminal k.viewingTerm
      (Terminal.saveLine (u32 ((k₃.terminal k.viewingTerm).keyboardBufIdx-1)))) :=
    hinc.trans (.onTerminal (fun _ => rfl) k₃)
  exact hsave.trans ⟨rfl,fun _ => rfl⟩

theorem eraseLine_draws (fuel : ℕ) :
    Draws Hidden (Stroke.OfKeys term) k (eraseLine term fuel k) := by
  induction fuel generalizing k with
  | zero => exact .refl
  | succ fuel ih =>
    unfold eraseLine
    split_ifs
    · exact .refl
    · exact (backspace_draws term k).trans (ih _)

theorem recallLine_draws (fuel index : ℕ) :
    Draws Hidden (Stroke.OfTyping term) k (recallLine term fuel index k) := by
  induction fuel generalizing index k with
  | zero => exact .refl
  | succ fuel ih =>
    simp only [recallLine]
    generalize (k.terminal term).historyBuf (k.terminal term).histPtr index = c
    have hstore := storeKey_hidden term index c k
    split_ifs
    · exact Draws.of_aside hstore
    · refine ReflTransGen.trans ?_ (ih _ _)
      exact Draws.around k hstore (s := .putc c term) rfl (.onTerminal (fun _ => rfl) _)

theorem Terminal.turnHistory_hidden (direction : ℤ) (t : Terminal) :
    t.turnHistory direction = { t.turnHistory direction with
      screenX := t.screenX, screenY := t.screenY, termVideoMem := t.termVideoMem
      color := t.color } := by
  unfold Terminal.turnHistory
  split_ifs <;> rfl

theorem terminalHistory_draws (direction : ℤ) :
    Draws Hidden (Stroke.OfKeys k.viewingTerm) k (terminalHistory direction k) := by
  have hturn : Hidden k (k.onTerminal k.viewingTerm (Terminal.turnHistory direction)) :=
    Hidden.onTerminal (Terminal.turnHistory_hidden direction) k
  simp only [terminalHistory]
  split_ifs
  · exact .refl
  · exact .refl
  · refine Draws.aside ?_ (Hidden.onTerminal (fun _ => rfl) _)
    have herase := (Draws.of_aside hturn).trans (eraseLine_draws k.viewingTerm _
      ((k.onTerminal k.viewingTerm (Terminal.turnHistory direction)).terminal
        k.viewingTerm).keyboardBufIdx)
    exact herase.trans ((recallLine_draws ..).mono (fun _ _ h => h) fun _ hs => .inl hs)

end

/-! ### Events -/

/-- The PID that an event may load a program for. -/
def Kernel.loads (k : Kernel) : Op → Option ℕ
  | .execute _ _ => k.table.nextPid
  | .switch _ _ => k.table.nextPid
  | .key _ _ => k.table.nextPid
  | .halt _ _ => k.successor
  | .squash _ => k.successor
  | _ => none

/-- The strokes of an event: those of a call on the running terminal, those of the keys on the
one in view, and those of a switch to another. -/
def Op.Strokes (k : Kernel) (op : Op) (s : Stroke) : Prop :=
  match op with
  | .switch dest _ => s.OfSwitch k.viewingTerm dest k
  | .key _ _ => s.OfKeys k.viewingTerm ∨ ∃ dest < numTerm, s.OfSwitch k.viewingTerm dest k
  | _ => s.OfCall k.currentTerm (k.loads op)

/-- Neither a key nor a read. -/
def Op.Quiet : Op → Prop
  | .key _ _ => False
  | .read _ _ _ _ => False
  | .resume => False
  | _ => True

theorem Draws.of_files {ok ok' : Stroke → Prop} {k k' : Kernel} (h : Draws FilesOnly ok k k')
    (hok : ∀ s, ok s → ok' s) : Draws Aside ok' k k' := h.mono (fun _ _ h => h.aside) hok

/-- All other events change no more than processes, files and the clock between their
strokes. -/
theorem quiet_draws (fs : FileSystem) (k : Kernel) {op : Op} (hquiet : op.Quiet) :
    Draws Aside (op.Strokes k) k ((kernel fs).next k op) := by
  cases op with
  | execute command cpu => exact execute_draws fs cpu command k
  | halt status cpu => exact halt_draws fs cpu status k
  | squash cpu => exact squashException_draws fs cpu k
  | pit cpu => exact Draws.of_aside (pitHandler_aside cpu k)
  | switch dest cpu => exact (terminalSwitch_switched fs cpu k.viewingTerm dest k).draws
  | key pressed cpu => exact absurd hquiet id
  | sysOpen filename => exact Draws.of_aside (sysOpen_filesOnly fs filename k).aside
  | close fd => exact Draws.of_aside (close_filesOnly fd k).aside
  | read fd null nbytes cpu => exact absurd hquiet id
  | write fd buf nbytes => exact (write_draws fd buf nbytes k).of_files fun _ h => h
  | getargs null nbytes => exact Draws.of_eq (getargs_same null nbytes k)
  | vidmap screenStart => exact Draws.of_eq (vidmap_same screenStart k)
  | resume => exact absurd hquiet id
  | rtc => exact Draws.of_aside ⟨rfl,fun _ => rfl⟩

theorem keyboardSwitch_draws (fs : FileSystem) (cpu : Cpu) (pressed : ℕ) (k : Kernel) :
    Draws Hidden (fun s => s.OfKeys k.viewingTerm ∨
      ∃ dest < numTerm, s.OfSwitch k.viewingTerm dest k) k (keyboardSwitch fs cpu pressed k).2 := by
  have hkeyed := keyboardSwitch_keyed fs cpu pressed k
  generalize keyboardSwitch fs cpu pressed k = r at *
  have hkeys {k' : Kernel} (h : Draws Hidden (Stroke.OfKeys k.viewingTerm) k k') :
      Draws Hidden (fun s => s.OfKeys k.viewingTerm ∨
        ∃ dest < numTerm, s.OfSwitch k.viewingTerm dest k) k k' :=
    h.mono (fun _ _ h => h) fun _ hs => .inl hs
  have htyping {k' : Kernel} (h : Draws Hidden (Stroke.OfTyping k.viewingTerm) k k') :
      Draws Hidden (fun s => s.OfKeys k.viewingTerm ∨
        ∃ dest < numTerm, s.OfSwitch k.viewingTerm dest k) k k' :=
    h.mono (fun _ _ h => h) fun _ hs => .inl (.inl hs)
  cases hkeyed with
  | erase _ => exact hkeys (backspace_draws _ k)
  | enter _ => exact htyping (enterPress_draws k)
  | history _ => exact hkeys (terminalHistory_draws k _)
  | tab _ => exact htyping (tabPress_draws k)
  | char _ => exact htyping (keyPress_draws k pressed)
  | clear _ _ => exact htyping (.single (.stroke (.clear k.viewingTerm) rfl))
  | flags _ hk' => exact Draws.of_aside hk'.hidden
  | @switch dest _ hdest _ =>
    refine (terminalSwitch_switched fs cpu k.viewingTerm dest k).draws.mono ?_ ?_
    · exact fun _ _ h => h.hidden
    · exact fun _ hs => .inr ⟨dest,hdest,hs⟩

/-- Every event of the kernel is strokes with changes between them that no screen shows. -/
theorem step_draws (fs : FileSystem) (op : Op) (k : Kernel) :
    Draws Hidden (op.Strokes k) k ((kernel fs).next k op) := by
  have hquiet : op.Quiet → Draws Hidden (op.Strokes k) k ((kernel fs).next k op) := fun h =>
    (quiet_draws fs k h).mono (fun _ _ h => h.hidden) fun _ hs => hs
  cases op with
  | key pressed cpu =>
    have hcli : Hidden k { k with interrupts := false } := ⟨rfl,fun _ => rfl⟩
    have hswitch := keyboardSwitch_draws fs cpu pressed { k with interrupts := false }
    exact Draws.aside ((Draws.of_aside hcli).trans hswitch) ⟨rfl,fun _ => rfl⟩
  | read fd null nbytes cpu => exact Draws.of_aside (read_hidden fs fd null nbytes cpu k)
  | resume => exact Draws.of_aside (resume_hidden k)
  | _ => exact hquiet trivial

end GameOfThreads
