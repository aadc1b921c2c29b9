import GameOfThreads.Waiting

/-! Shift and Caps Lock. The flags that choose the scancode table follow the scancodes alone:
Caps Lock is right on every run, and Shift as long as no shift key goes up under the other. -/
namespace GameOfThreads
open Machine

def capsPress : ℕ := 0x3A
def lshiftPress : ℕ := 0x2A
def lshiftRelease : ℕ := 0xAA
def rshiftPress : ℕ := 0x36
def rshiftRelease : ℕ := 0xB6

/-- init_board, without the interrupt controller. -/
def initBoard (k : Kernel) : Kernel :=
  { k with capFlag := 0, shiftFlag := 0, altFlag := 0, ctlFlag := 0, numFlag := 0 }

/-- The two flags that getchar reads. -/
structure Modifiers where
  shift : UInt8
  caps : UInt8

def Kernel.modifiers (k : Kernel) : Modifiers := ⟨k.shiftFlag,k.capFlag⟩

namespace Modifiers
variable (m : Modifiers)

/-- What a scancode does to the flags. -/
def key (pressed : ℕ) : Modifiers :=
  if pressed = capsPress then { m with caps := ~~~m.caps }
  else if pressed = lshiftPress ∨ pressed = rshiftPress then { m with shift := 1 }
  else if pressed = lshiftRelease ∨ pressed = rshiftRelease then { m with shift := 0 }
  else m

theorem key_caps (pressed : ℕ) :
    (m.key pressed).caps = if pressed = capsPress then ~~~m.caps else m.caps := by
  unfold key
  split_ifs <;> rfl

theorem key_press {pressed : ℕ} (h : pressed = lshiftPress ∨ pressed = rshiftPress) :
    (m.key pressed).shift = 1 := by
  rcases h with rfl | rfl <;> rfl

theorem key_release {pressed : ℕ} (h : pressed = lshiftRelease ∨ pressed = rshiftRelease) :
    (m.key pressed).shift = 0 := by
  rcases h with rfl | rfl <;> rfl

theorem key_shift {pressed : ℕ} (hp : ¬(pressed = lshiftPress ∨ pressed = rshiftPress))
    (hr : ¬(pressed = lshiftRelease ∨ pressed = rshiftRelease)) :
    (m.key pressed).shift = m.shift := by
  rw [key, if_neg hp, if_neg hr]
  split_ifs <;> rfl

/-- The flags that init_board leaves. -/
def init : Modifiers := ⟨0,0⟩

/-- The flags after scancodes. -/
def after (codes : List ℕ) : Modifiers := codes.foldl (fun m pressed => m.key pressed) init

theorem after_snoc (codes : List ℕ) (pressed : ℕ) :
    after (codes ++ [pressed]) = (after codes).key pressed := by simp [after]

/-- The number of the table that the flags choose. -/
def mode : ℕ :=
  if m.shift = 0 then if m.caps = 0 then 0 else 1 else if m.caps = 0 then 2 else 3

end Modifiers

/-! ### Only the keyboard moves the flags -/

section
variable {k k' : Kernel}

theorem ScreenOnly.modifiers (h : ScreenOnly k k') : k'.modifiers = k.modifiers := by
  rw [h.rest]
  rfl

theorem TerminalsOnly.modifiers (h : TerminalsOnly k k') : k'.modifiers = k.modifiers := by
  rw [h.rest]
  rfl

theorem Aside.modifiers (h : Aside k k') : k'.modifiers = k.modifiers := by
  rw [h.rest]
  rfl

theorem OnScreens.modifiers (h : OnScreens k k') : k'.modifiers = k.modifiers := by
  rw [h.rest]
  rfl

theorem Draws.modifiers {ok : Stroke → Prop} (h : Draws Aside ok k k') :
    k'.modifiers = k.modifiers :=
  h.same Kernel.modifiers (fun _ _ h => h.modifiers) fun _ _ h => h.modifiers

theorem read_modifiers (fs : FileSystem) (fd : ℤ) (null : Bool) (nbytes : ℤ) (cpu : Cpu)
    (k : Kernel) : (read fs fd null nbytes cpu k).2.modifiers = k.modifiers := by
  rcases read_cases fs fd null nbytes cpu k with hread | hread
  · exact hread.modifiers
  have hstart := (terminalReadStart_terminalsOnly null nbytes k).modifiers
  rw [hread]
  rcases terminalRead_cases null nbytes k with hread | ⟨limit,hread⟩
  · exact hread.modifiers.trans hstart
  · rw [hread]
    exact (terminalReadFinish_terminalsOnly limit _).modifiers.trans hstart

theorem resume_modifiers (k : Kernel) : (resume k).2.modifiers = k.modifiers := by
  rcases resume_cases k with hresume | ⟨limit,hresume⟩
  · exact hresume.modifiers
  · exact hresume.modifiers.trans (terminalReadFinish_terminalsOnly limit k).modifiers

/-! ### The keyboard -/

theorem functionKey_modifiers (fs : FileSystem) (cpu : Cpu) (dest : ℕ) (k : Kernel) :
    (functionKey fs cpu dest k).2.modifiers = k.modifiers := by
  unfold functionKey
  split_ifs
  · exact (terminalSwitch_switched fs cpu k.viewingTerm dest k).draws.modifiers
  · rfl

theorem Modifiers.key_other (m : Modifiers) {pressed : ℕ}
    (h : pressed ≠ capsPress ∧ pressed ≠ lshiftPress ∧ pressed ≠ rshiftPress ∧
      pressed ≠ lshiftRelease ∧ pressed ≠ rshiftRelease) : m.key pressed = m := by
  obtain ⟨hcaps,hleft,hright,hleftUp,hrightUp⟩ := h
  simp [key, hcaps, hleft, hright, hleftUp, hrightUp]

theorem keyPress_modifiers (code : ℕ) (k : Kernel) :
    (keyPress code k).modifiers = k.modifiers := (keyPress_terminalsOnly code k).modifiers

/-- A scancode does to the flags what it says, whatever else its key does. -/
theorem keyboardSwitch_modifiers (fs : FileSystem) (cpu : Cpu) (pressed : ℕ) (k : Kernel) :
    (keyboardSwitch fs cpu pressed k).2.modifiers = k.modifiers.key pressed := by
  unfold keyboardSwitch
  split
  · exact (backspace_terminalsOnly _ k).modifiers
  · exact (tabPress_terminalsOnly k).modifiers
  · exact (enterPress_terminalsOnly k).modifiers
  all_goals first
    | rfl
    | exact functionKey_modifiers ..
    | skip
  · split_ifs
    · exact keyPress_modifiers ..
    · exact (termClear_screenOnly _ k).modifiers
  · split_ifs
    · exact (terminalHistory_terminalsOnly _ k).modifiers
    · exact keyPress_modifiers ..
  · split_ifs
    · exact (terminalHistory_terminalsOnly _ k).modifiers
    · exact keyPress_modifiers ..
  · rw [Modifiers.key_other _ ⟨‹_›,‹_›,‹_›,‹_›,‹_›⟩]
    exact keyPress_modifiers ..

/-! ### Runs -/

/-- The scancode that an event delivers. -/
def Op.scancode : Op → Option ℕ
  | .key pressed _ => some pressed
  | _ => none

/-- The scancodes among the events of a run. -/
def scancodes (ops : List Op) : List ℕ := ops.filterMap Op.scancode

theorem step_modifiers (fs : FileSystem) (op : Op) (k : Kernel) :
    ((kernel fs).next k op).modifiers = op.scancode.elim k.modifiers k.modifiers.key := by
  have hquiet (h : op.Quiet) : ((kernel fs).next k op).modifiers = k.modifiers :=
    (quiet_draws fs k h).modifiers
  cases op with
  | key pressed cpu =>
    exact keyboardSwitch_modifiers fs cpu pressed { k with interrupts := false }
  | read fd null nbytes cpu => exact read_modifiers fs fd null nbytes cpu k
  | resume => exact resume_modifiers k
  | _ => exact hquiet trivial

/-- The flags of a run are those that its scancodes make, whatever comes between them. -/
theorem run_modifiers (fs : FileSystem) (k : Kernel) (ops : List Op) :
    ((kernel fs).run (initBoard k) ops).modifiers = Modifiers.after (scancodes ops) := by
  induction ops using List.reverseRecOn with
  | nil => rfl
  | append_singleton ops op ih =>
    have hcodes : scancodes (ops ++ [op]) = scancodes ops ++ op.scancode.toList := by
      simp [scancodes, List.filterMap_cons]
      cases op.scancode <;> rfl
    rw [System.run_snoc, step_modifiers, ih, hcodes]
    cases op.scancode with
    | none => simp
    | some pressed => exact (Modifiers.after_snoc ..).symm

end

/-! ### What is held -/

/-- Of the two scancodes of a key the one that came last is its press. -/
def held (press release : ℕ) (codes : List ℕ) : Prop :=
  (codes.filter fun c => c = press ∨ c = release).getLast? = some press

def leftHeld (codes : List ℕ) : Prop := held lshiftPress lshiftRelease codes

def rightHeld (codes : List ℕ) : Prop := held rshiftPress rshiftRelease codes

/-- Caps Lock has been pressed an odd number of times. -/
def capsOn (codes : List ℕ) : Prop := codes.count capsPress % 2 = 1

/-- No shift key goes up while the other one is held. -/
def NoOverlap (codes : List ℕ) : Prop :=
  ∀ before c, before ++ [c] <+: codes →
    (c = lshiftRelease → ¬rightHeld before) ∧ (c = rshiftRelease → ¬leftHeld before)

section
variable {press release c : ℕ} {codes : List ℕ}

theorem held_press : held press release (codes ++ [press]) := by
  simp [held]

theorem not_held_release (h : press ≠ release) : ¬held press release (codes ++ [release]) := by
  simp [held, h.symm]

theorem held_other (hp : c ≠ press) (hr : c ≠ release) :
    held press release (codes ++ [c]) ↔ held press release codes := by
  simp [held, hp, hr]

theorem noOverlap_snoc : NoOverlap (codes ++ [c]) ↔ NoOverlap codes ∧
    (c = lshiftRelease → ¬rightHeld codes) ∧ (c = rshiftRelease → ¬leftHeld codes) :=
  System.forall_prefix_snoc (R := fun before c =>
    (c = lshiftRelease → ¬rightHeld before) ∧ (c = rshiftRelease → ¬leftHeld before))

end

namespace Modifiers

/-- Caps Lock is complemented at each press, so that its flag is zero or all ones. -/
theorem after_caps (codes : List ℕ) :
    (after codes).caps = if codes.count capsPress % 2 = 1 then 255 else 0 := by
  induction codes using List.reverseRecOn with
  | nil => rfl
  | append_singleton codes c ih =>
    rw [after_snoc, key_caps, ih, List.count_append]
    by_cases hc : c = capsPress
    · subst hc
      rw [if_pos rfl, List.count_singleton_self]
      rcases Nat.mod_two_eq_zero_or_one (codes.count capsPress) with h | h
      · rw [if_neg (by omega), if_pos (by omega)]
        rfl
      · rw [if_pos h, if_neg (by omega)]
        rfl
    · have hcount : [c].count capsPress = 0 := List.count_eq_zero.mpr (by simpa using Ne.symm hc)
      rw [if_neg hc, hcount, Nat.add_zero]

theorem after_caps_iff (codes : List ℕ) : (after codes).caps ≠ 0 ↔ capsOn codes := by
  rw [after_caps, capsOn]
  split_ifs with h
  · simp [h]
  · simp [h]

/-- Where the flag of Shift is right, a scancode keeps it right unless a shift key goes up
under the other. -/
theorem key_shift_iff (m : Modifiers) {codes : List ℕ} {c : ℕ}
    (h : m.shift ≠ 0 ↔ leftHeld codes ∨ rightHeld codes) :
    ((m.key c).shift ≠ 0 ↔ leftHeld (codes ++ [c]) ∨ rightHeld (codes ++ [c])) ↔
      (c = lshiftRelease → ¬rightHeld codes) ∧ (c = rshiftRelease → ¬leftHeld codes) := by
  have hkeys : lshiftPress ≠ lshiftRelease ∧ lshiftPress ≠ rshiftPress ∧
      lshiftPress ≠ rshiftRelease ∧ lshiftRelease ≠ rshiftPress ∧
      lshiftRelease ≠ rshiftRelease ∧ rshiftPress ≠ rshiftRelease := by decide
  obtain ⟨hll,hlr,hlR,hLr,hLR,hrr⟩ := hkeys
  by_cases hleft : c = lshiftPress
  · subst hleft
    have hheld : leftHeld (codes ++ [lshiftPress]) := held_press
    simp [m.key_press (.inl rfl), hheld, hll, hlR]
  by_cases hright : c = rshiftPress
  · subst hright
    have hheld : rightHeld (codes ++ [rshiftPress]) := held_press
    simp [m.key_press (.inr rfl), hheld, hLr.symm, hrr]
  by_cases hleftUp : c = lshiftRelease
  · subst hleftUp
    have hfree : ¬leftHeld (codes ++ [lshiftRelease]) := not_held_release hll
    have hother : rightHeld (codes ++ [lshiftRelease]) ↔ rightHeld codes := held_other hLr hLR
    simp [m.key_release (.inl rfl), hfree, hother, hLR]
  by_cases hrightUp : c = rshiftRelease
  · subst hrightUp
    have hfree : ¬rightHeld (codes ++ [rshiftRelease]) := not_held_release hrr
    have hother : leftHeld (codes ++ [rshiftRelease]) ↔ leftHeld codes :=
      held_other hlR.symm hLR.symm
    simp [m.key_release (.inr rfl), hfree, hother, hLR.symm]
  have hl : leftHeld (codes ++ [c]) ↔ leftHeld codes := held_other hleft hleftUp
  have hr : rightHeld (codes ++ [c]) ↔ rightHeld codes := held_other hright hrightUp
  rw [m.key_shift (not_or.mpr ⟨hleft,hright⟩) (not_or.mpr ⟨hleftUp,hrightUp⟩), hl, hr]
  simp [h, hleftUp, hrightUp]

/-- The flag of Shift is right for as long as the two keys do not overlap. -/
theorem after_shift_iff (codes : List ℕ) :
    (∀ p, p <+: codes → ((after p).shift ≠ 0 ↔ leftHeld p ∨ rightHeld p)) ↔
      NoOverlap codes := by
  induction codes using List.reverseRecOn with
  | nil =>
    constructor
    · intro _ before c h
      simp at h
    · intro _ p hp
      rw [List.prefix_nil.mp hp]
      simp [after, init, leftHeld, rightHeld, held]
  | append_singleton codes c ih =>
    have hlast : (∀ p, p <+: codes ++ [c] → ((after p).shift ≠ 0 ↔ leftHeld p ∨ rightHeld p)) ↔
        (∀ p, p <+: codes → ((after p).shift ≠ 0 ↔ leftHeld p ∨ rightHeld p)) ∧
        ((after (codes ++ [c])).shift ≠ 0 ↔
          leftHeld (codes ++ [c]) ∨ rightHeld (codes ++ [c])) := by
      simp only [List.prefix_concat_iff, or_imp, forall_and, forall_eq]
      exact and_comm
    rw [hlast, noOverlap_snoc, ih]
    refine and_congr_right fun hno => ?_
    have hcodes := ih.mpr hno codes List.prefix_rfl
    rw [after_snoc]
    exact key_shift_iff _ hcodes

end Modifiers

/-! ### The tables -/

/-- A key that is pressed in this state is looked up in the table of this number. -/
def Kernel.Translates (k : Kernel) (mode : ℕ) : Prop :=
  ∀ code, getchar code k = (scancode mode).getD code noke

theorem getchar_mode (code : ℕ) (k : Kernel) :
    getchar code k = (scancode k.modifiers.mode).getD code noke := by
  simp only [getchar, Modifiers.mode, Kernel.modifiers]
  by_cases hshift : k.shiftFlag = 0 <;> by_cases hcaps : k.capFlag = 0 <;> simp [hshift, hcaps]

/-- No two tables agree on the keys of 1 and Q. -/
theorem scancode_injective {m n : ℕ} (hm : m < 4) (hn : n < 4)
    (hdigit : (scancode m).getD 2 noke = (scancode n).getD 2 noke)
    (hletter : (scancode m).getD 16 noke = (scancode n).getD 16 noke) : m = n := by
  have hall : ∀ m < 4, ∀ n < 4, (scancode m).getD 2 noke = (scancode n).getD 2 noke →
      (scancode m).getD 16 noke = (scancode n).getD 16 noke → m = n := by decide +kernel
  exact hall m hm n hn hdigit hletter

theorem Modifiers.mode_lt (m : Modifiers) : m.mode < 4 := by
  unfold mode
  split_ifs <;> omega

theorem translates_iff (k : Kernel) {mode : ℕ} (hmode : mode < 4) :
    k.Translates mode ↔ k.modifiers.mode = mode := by
  constructor
  · intro h
    refine scancode_injective (Modifiers.mode_lt _) hmode ?_ ?_
    · rw [← getchar_mode, h 2]
    · rw [← getchar_mode, h 16]
  · rintro rfl code
    exact getchar_mode code k

/-- The tables of the scancodes delivered so far: shifted exactly while a shift key is held, and
of Caps Lock exactly after an odd number of its presses. -/
structure Translated (codes : List ℕ) (k : Kernel) : Prop where
  shift : k.Translates 2 ∨ k.Translates 3 ↔ leftHeld codes ∨ rightHeld codes
  caps : k.Translates 1 ∨ k.Translates 3 ↔ capsOn codes

theorem shifted_iff (k : Kernel) : k.Translates 2 ∨ k.Translates 3 ↔ k.modifiers.shift ≠ 0 := by
  rw [translates_iff k (by decide), translates_iff k (by decide), Modifiers.mode]
  split_ifs <;> simp [*]

theorem capital_iff (k : Kernel) : k.Translates 1 ∨ k.Translates 3 ↔ k.modifiers.caps ≠ 0 := by
  rw [translates_iff k (by decide), translates_iff k (by decide), Modifiers.mode]
  split_ifs <;> simp [*]

theorem run_translated_iff (fs : FileSystem) (k : Kernel) (ops : List Op) :
    Translated (scancodes ops) ((kernel fs).run (initBoard k) ops) ↔
      ((Modifiers.after (scancodes ops)).shift ≠ 0 ↔
        leftHeld (scancodes ops) ∨ rightHeld (scancodes ops)) := by
  have hflags := run_modifiers fs k ops
  constructor
  · intro h
    rw [← hflags, ← shifted_iff]
    exact h.shift
  · intro h
    refine ⟨?_,?_⟩
    · rw [shifted_iff, hflags, h]
    · rw [capital_iff, hflags, Modifiers.after_caps_iff]

/-- After init_board, whatever else happens, every key is translated by what is held exactly on
the runs in which no shift key goes up while the other one is held. -/
theorem translated_iff_noOverlap (fs : FileSystem) (k : Kernel) (ops : List Op) :
    (∀ p, p <+: ops → Translated (scancodes p) ((kernel fs).run (initBoard k) p)) ↔
      NoOverlap (scancodes ops) := by
  rw [← Modifiers.after_shift_iff]
  constructor
  · intro h p hp
    obtain ⟨q,hq,rfl⟩ := List.prefix_filterMap_iff.mp hp
    exact (run_translated_iff fs k q).mp (h q hq)
  · intro h p hp
    exact (run_translated_iff fs k p).mpr (h _ (hp.filterMap _))

/-- The state that boot leaves is one that init_board has set. -/
theorem initBoard_initial (pcb : ℕ → PCB) (phys : ℕ → UInt8) :
    initBoard (initial pcb phys) = initial pcb phys := by
  have hscreen : ∀ k k' : Kernel, ScreenOnly k k' → initBoard k = k → initBoard k' = k' := by
    intro k k' h hk
    rw [h.rest]
    rw [← hk]
    rfl
  simp only [initial, terminalInit]
  refine hscreen _ _ (moveCursor_screenOnly 0 _) ?_
  have hclear := hscreen _ _ (termClear_screenOnly 0 (setTerminals (staticStorage pcb phys))) rfl
  generalize termClear 0 (setTerminals (staticStorage pcb phys)) = k at *
  rw [← hclear]
  rfl

/-- Both shift keys pressed, and the left one let go. -/
def shiftOverlap : List Op :=
  [.key lshiftPress ⟨0,0,fun _ => 0⟩,.key rshiftPress ⟨0,0,fun _ => 0⟩,
    .key lshiftRelease ⟨0,0,fun _ => 0⟩]

/-- With the right key still held a letter is not shifted. -/
theorem shiftOverlap_lowers :
    let k := (kernel shellImage).run
      (initBoard (initial (fun _ => PCB.zero) fun _ => 0)) shiftOverlap
    rightHeld (scancodes shiftOverlap) ∧ k.Translates 0 ∧
      ¬Translated (scancodes shiftOverlap) k := by
  have hheld : rightHeld (scancodes shiftOverlap) := rfl
  have hflags := run_modifiers shellImage (initial (fun _ => PCB.zero) fun _ => 0) shiftOverlap
  refine ⟨hheld,?_,?_⟩
  · rw [translates_iff _ (by decide), hflags]
    rfl
  · intro h
    have hshift := (shifted_iff _).mp (h.shift.mpr (.inr hheld))
    rw [hflags] at hshift
    exact hshift rfl

end GameOfThreads
