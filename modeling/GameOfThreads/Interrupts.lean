import GameOfThreads.I8259
import GameOfThreads.Gates
import GameOfThreads.ProcessRuns

/-! The kernel on its board. Devices ask for interrupts at any time; the processor takes them
from the controllers between the other entries into the kernel, and each handler reports its
end. What the controllers do to the kernel is what three flags would do. -/
namespace GameOfThreads
open Machine

/-- i8259_init, init_board, enable_rtc and init_PIT, in the order of kernel.c. -/
def initLines (d : I8259) : I8259 :=
  enableIrq 0 (enableIrq 8 (enableIrq 2 (enableIrq 1 (i8259Init d))))

structure Board where
  kernel : Kernel
  lines : I8259

/-- `leave` is the end of a keyboard_handler whose terminal_switch started a shell: its frame
goes on when the scheduler comes back to it. -/
inductive BoardEvent
  | raise (irq : ℕ)
  | interrupt (pressed : ℕ) (cpu : Cpu)
  | enter (op : Op)
  | leave

/-- What an event makes the processor do. -/
inductive Entry
  | idle
  | kernel (op : Op)
  | stray (vector : Option ℕ)

/-- The handlers that are entered by hardware interrupts. -/
def Handler.op (pressed : ℕ) (cpu : Cpu) : Handler → Option Op
  | .pitAsmWrapper => some (.pit cpu)
  | .keyboardAsmWrapper => some (.key pressed cpu)
  | .rtcAsmWrapper => some .rtc
  | _ => none

/-- What the table of init_IDT has for a vector. -/
def interruptGate (pressed : ℕ) (cpu : Cpu) (vector : ℕ) : Option Op :=
  (routes.find? fun route => route.1 = vector).bind fun route => route.2.op pressed cpu

/-- A store of the entry has faulted. -/
def Op.Faults (fs : FileSystem) (k : Kernel) (op : Op) : Prop :=
  (step fs k op).2.video.faults ≠ k.video.faults

instance (fs : FileSystem) (k : Kernel) (op : Op) : Decidable (op.Faults fs k) :=
  inferInstanceAs (Decidable (_ ≠ _))

/-- The send_eoi calls on the way through a handler. terminal_switch has one before it starts a
shell, and comes back to that of keyboard_handler if it fails to. A fault on the way ends the
process and with it the handler, before any of them. -/
def eoiCalls (fs : FileSystem) (k : Kernel) (op : Op) : List ℕ :=
  match op with
  | .pit _ => [0]
  | .rtc => [8]
  | .key _ _ =>
    if op.Faults fs k then []
    else
      match (step fs k op).1 with
      | .exec (.started _ _) => [1]
      | .exec _ => [1,1]
      | _ => [1]
  | _ => []

def sendEois (irqs : List ℕ) (d : I8259) : I8259 := irqs.foldl (fun d irq => sendEoi irq d) d

def Board.enter (fs : FileSystem) (op : Op) (b : Board) : Board :=
  ⟨(step fs b.kernel op).2,sendEois (eoiCalls fs b.kernel op) b.lines⟩

/-- The board with its kernel. -/
def board (fs : FileSystem) : System Board BoardEvent Entry where
  step b
    | .raise irq => (.idle,{ b with lines.pic := b.lines.pic.raise irq })
    | .interrupt pressed cpu =>
      match b.lines.pic.next with
      | none => (.idle,b)
      | some irq =>
        let b := { b with lines.pic := b.lines.pic.accept irq }
        let vector := b.lines.pic.vector irq
        match vector.bind (interruptGate pressed cpu) with
        | none => (.stray vector,b)
        | some op => (.kernel op,b.enter fs op)
    | .enter op => (.kernel op,b.enter fs op)
    | .leave => (.idle,{ b with lines := sendEoi 1 b.lines })

/-! ### Three flags -/

/-- The interrupts that have handlers, first in priority first. -/
def handled : List ℕ := [0,1,8]

def handler (pressed : ℕ) (cpu : Cpu) : ℕ → Op
  | 0 => .pit cpu
  | 1 => .key pressed cpu
  | _ => .rtc

/-- What the board amounts to for the kernel: an interrupt is owed from its request until its
handler runs, and the first one owed comes next. -/
def flags : System (ℕ → Bool) BoardEvent Entry where
  step owed
    | .raise irq => (.idle,Function.update owed irq true)
    | .interrupt pressed cpu =>
      match handled.find? owed with
      | none => (.idle,owed)
      | some irq => (.kernel (handler pressed cpu irq),Function.update owed irq false)
    | .enter op => (.kernel op,owed)
    | .leave => (.idle,owed)

/-- The events of the kernel among the entries of a board. -/
def Entry.op : Entry → Option Op
  | .kernel op => some op
  | _ => none

/-- The controllers with some handlers at work: what is owed has been requested, and nothing else
can be offered. -/
structure Mirrors (d : I8259) (owed : ℕ → Bool) (handlers : List ℕ) : Prop where
  installed : d.Installed
  serving : d.pic.Serving handlers
  masks : ∀ irq < 16, d.closed irq = decide (irq ∉ handled ∧ irq ≠ Pic.cascade)
  requests : ∀ irq ∈ handled, d.pic.requested irq = owed irq

theorem handled_line {irq : ℕ} (hirq : irq ∈ handled) : irq < 16 ∧ irq ≠ Pic.cascade := by
  revert irq
  decide

theorem initLines_mirrors (d : I8259) : Mirrors (initLines d) (fun _ => false) [] := by
  let calls : List LineEvent := [.enableIrq 1,.enableIrq 2,.enableIrq 8,.enableIrq 0]
  have hcalls : lines.Along Closes (i8259Init d) calls := by
    refine ⟨closes_of_ne ?_ _,closes_of_ne ?_ _,closes_of_ne ?_ _,closes_of_ne ?_ _,trivial⟩ <;>
      exact fun _ => LineEvent.noConfusion
  obtain ⟨htells,hserves⟩ := Serves.run d hcalls
  have hrun : lines.run (i8259Init d) calls = initLines d := rfl
  rw [hrun] at htells hserves
  refine ⟨htells.installed,hserves.serving,?_,?_⟩
  · intro irq hirq
    obtain ⟨hmasked,hclosed⟩ := htells.masks irq hirq
    rw [hclosed, hmasked]
    have hopened : (lines.trace (i8259Init d) calls).foldl (opened irq) false =
        decide (irq ∈ handled ∨ irq = Pic.cascade) := by
      change (if irq = 0 then true else if irq = 8 then true else if irq = 2 then true
        else if irq = 1 then true else false) = _
      simp only [handled, Pic.cascade, List.mem_cons, List.not_mem_nil, or_false]
      split_ifs <;> simp_all
    have hsent : (lines.trace (i8259Init d) calls).foldl (maskSent irq) false = true := by
      change (((false || decide (I8259.Together irq 1) || decide (I8259.Together irq 2)) ||
        decide (I8259.Together irq 8)) || decide (I8259.Together irq 0)) = true
      have htogether : I8259.Together irq 1 ∨ I8259.Together irq 8 := by
        unfold I8259.Together
        omega
      rcases htogether with h | h <;> simp [h]
    rw [hopened, hsent]
    simp
  · intro irq hirq
    obtain ⟨hlt,hne⟩ := handled_line hirq
    exact htells.requests irq hlt hne

namespace Mirrors
variable {d : I8259} {owed : ℕ → Bool} {handlers : List ℕ} {irq : ℕ}

/-- The driver has left the controllers alone. -/
theorem keeps (h : Mirrors d owed handlers) {p : Pic} (hp : d.pic.Keeps p) {owed' : ℕ → Bool}
    {handlers' : List ℕ} (hserving : p.Serving handlers')
    (hrequests : ∀ irq ∈ handled, p.requested irq = owed' irq) :
    Mirrors { d with pic := p } owed' handlers' where
  installed := h.installed.keeps hp
  serving := hserving
  masks irq hirq := by
    rw [I8259.closed_keeps hp]
    exact h.masks irq hirq
  requests := hrequests

theorem asks (h : Mirrors d owed handlers) (hlt : irq < 16) (hne : irq ≠ Pic.cascade) :
    d.pic.asks irq ↔ irq ∈ handled ∧ owed irq := by
  have hcascade : d.closed Pic.cascade = false := h.masks Pic.cascade (by decide)
  rw [asks_eq, h.masks irq hlt, hcascade]
  by_cases hirq : irq ∈ handled
  · simp [hirq, h.requests irq hirq]
  · simp [hirq, hne]

/-- The offer of the controllers is the first interrupt owed. -/
theorem next (h : Mirrors d owed []) : d.pic.next = handled.find? owed := by
  have hfirst : ∀ irq ∈ handled, owed irq →
      ∃ q, d.pic.next = some q ∧ Pic.line q ≤ Pic.line irq := by
    intro irq hirq howed
    obtain ⟨hlt,hne⟩ := handled_line hirq
    exact h.serving.exists_next h.installed.programmed hlt hne
      ((h.asks hlt hne).mpr ⟨hirq,howed⟩) fun _ hq => absurd hq List.not_mem_nil
  cases hnext : d.pic.next with
  | none =>
    refine (List.find?_eq_none.mpr fun irq hirq howed => ?_).symm
    obtain ⟨q,hq,-⟩ := hfirst irq hirq howed
    rw [hnext] at hq
    cases hq
  | some irq =>
    obtain ⟨hasks,hlt,hne,-⟩ := Pic.next_spec hnext
    obtain ⟨hirq,howed⟩ := (h.asks hlt hne).mp hasks
    have hnone : ∀ q ∈ handled, Pic.line q < Pic.line irq → owed q = false := by
      intro q hq hlt
      by_contra hq'
      obtain ⟨r,hr,hle⟩ := hfirst q hq (by simpa using hq')
      rw [hnext] at hr
      cases hr
      omega
    symm
    revert hnone howed
    simp only [handled, List.mem_cons, List.not_mem_nil, or_false] at hirq
    rcases hirq with rfl | rfl | rfl
    · intro howed hnone
      simp [handled, howed]
    · intro howed hnone
      simp [handled, howed, hnone 0 (by decide) (by decide)]
    · intro howed hnone
      simp [handled, howed, hnone 0 (by decide) (by decide), hnone 1 (by decide) (by decide)]

theorem raise (h : Mirrors d owed handlers) (irq : ℕ) :
    Mirrors { d with pic := d.pic.raise irq } (Function.update owed irq true) handlers := by
  refine h.keeps (Pic.raise_keeps irq _) (h.serving.congr (Pic.raise_isr irq)) ?_
  intro q hq
  rw [Pic.requested_raise, h.requests q hq, Function.update_apply]
  by_cases heq : q = irq
  · simp [heq]
  · simp [heq, Ne.symm heq]

theorem accept (h : Mirrors d owed handlers) (hnext : d.pic.next = some irq) :
    Mirrors { d with pic := d.pic.accept irq } (Function.update owed irq false)
      (irq :: handlers) := by
  refine h.keeps (Pic.accept_keeps irq _) (h.serving.accept h.installed.programmed hnext) ?_
  intro q hq
  rw [Pic.requested_accept (handled_line hq).2, h.requests q hq, Function.update_apply]
  by_cases heq : q = irq
  · simp [heq]
  · simp [heq, Ne.symm heq]

theorem sendEoi (h : Mirrors d owed handlers) (hirq : irq ∈ handled)
    (hown : irq ∈ handlers ∨ handlers = []) :
    Mirrors (sendEoi irq d) owed (handlers.filter (· ≠ irq)) := by
  rw [I8259.sendEoi_eq (handled_line hirq).1]
  refine h.keeps (Pic.finish_keeps irq _) (h.serving.finish (hown.imp_right ?_)) ?_
  · rintro rfl
    exact List.not_mem_nil
  · intro q hq
    rw [Pic.requested_finish, h.requests q hq]

/-- Ends of interrupts that nobody has do nothing. -/
theorem sendEois_idle (h : Mirrors d owed []) (irqs : List ℕ)
    (hirqs : ∀ irq ∈ irqs, irq ∈ handled) : Mirrors (sendEois irqs d) owed [] := by
  induction irqs generalizing d with
  | nil => exact h
  | cons irq irqs ih =>
    exact ih (h.sendEoi (hirqs irq (by simp)) (.inr rfl)) fun q hq => hirqs q (by simp [hq])

/-- The handler at work reports its end, once or twice. -/
theorem sendEois_own (h : Mirrors d owed [irq]) (hirq : irq ∈ handled) {irqs : List ℕ}
    (hirqs : irqs = [irq] ∨ irqs = [irq,irq]) : Mirrors (sendEois irqs d) owed [] := by
  have hend : Mirrors (GameOfThreads.sendEoi irq d) owed [] := by
    have hfilter : [irq].filter (· ≠ irq) = [] := by simp
    exact hfilter ▸ h.sendEoi hirq (.inl (by simp))
  rcases hirqs with rfl | rfl
  · exact hend
  · exact hend.sendEois_idle [irq] (by simpa using hirq)

end Mirrors

/-! ### Runs -/

section
variable (fs : FileSystem)

/-- The entry is a keyboard_handler that a fault of its own breaks off. -/
def Entry.brokenOff (k : Kernel) : Entry → Bool
  | .kernel (.key pressed cpu) => (Op.key pressed cpu).Faults fs k
  | _ => false

def Unbroken (b : Board) (event : BoardEvent) : Prop :=
  ((board fs).out b event).brokenOff fs b.kernel = false

theorem eoiCalls_handled (k : Kernel) (op : Op) : ∀ irq ∈ eoiCalls fs k op, irq ∈ handled := by
  unfold eoiCalls
  split
  · decide
  · decide
  · split_ifs
    · exact fun _ h => absurd h List.not_mem_nil
    · split
      · decide
      · decide
      · decide
  · exact fun _ h => absurd h List.not_mem_nil

theorem eoiCalls_handler (k : Kernel) (pressed : ℕ) (cpu : Cpu) {irq : ℕ} (hirq : irq ∈ handled)
    (hkey : irq = 1 → ¬(Op.key pressed cpu).Faults fs k) :
    eoiCalls fs k (handler pressed cpu irq) = [irq] ∨
      eoiCalls fs k (handler pressed cpu irq) = [irq,irq] := by
  simp only [handled, List.mem_cons, List.not_mem_nil, or_false] at hirq
  rcases hirq with rfl | rfl | rfl
  · exact .inl rfl
  · simp only [handler, eoiCalls, if_neg (hkey rfl)]
    split
    · exact .inl rfl
    · exact .inr rfl
    · exact .inl rfl
  · exact .inl rfl

variable {fs} {b : Board} {owed : ℕ → Bool}

/-- A gate that the controllers point to has the handler of the line. -/
theorem Mirrors.gate {d : I8259} {irq : ℕ} (h : Mirrors d owed [irq]) (hirq : irq ∈ handled)
    (pressed : ℕ) (cpu : Cpu) : (d.pic.vector irq).bind (interruptGate pressed cpu) =
      some (handler pressed cpu irq) := by
  obtain ⟨hlt,hne⟩ := handled_line hirq
  rw [h.installed.vector hlt hne]
  simp only [handled, List.mem_cons, List.not_mem_nil, or_false] at hirq
  rcases hirq with rfl | rfl | rfl <;> rfl

/-- An event makes the processor do what the flags would. -/
theorem board_out (h : Mirrors b.lines owed []) (event : BoardEvent) :
    (board fs).out b event = flags.out owed event := by
  cases event with
  | raise irq => rfl
  | leave => rfl
  | enter op => rfl
  | interrupt pressed cpu =>
    have hoffer := h.next
    cases hnext : b.lines.pic.next with
    | none =>
      rw [hnext] at hoffer
      simp only [board, flags, System.out, hnext, ← hoffer]
    | some irq =>
      have hirq : irq ∈ handled := List.mem_of_find?_eq_some (hoffer.symm.trans hnext)
      have hgate := (h.accept hnext).gate hirq pressed cpu
      rw [hnext] at hoffer
      simp only [board, flags, System.out, hnext, ← hoffer, hgate]

/-- The controllers still mirror the flags after an event. -/
theorem board_next (h : Mirrors b.lines owed []) {event : BoardEvent}
    (hunbroken : Unbroken fs b event) :
    Mirrors ((board fs).next b event).lines (flags.next owed event) [] := by
  have hout : (board fs).out b event = flags.out owed event := board_out h event
  cases event with
  | raise irq => exact h.raise irq
  | leave => exact h.sendEois_idle [1] (by decide)
  | enter op => exact h.sendEois_idle _ (eoiCalls_handled fs b.kernel op)
  | interrupt pressed cpu =>
    have hoffer := h.next
    cases hnext : b.lines.pic.next with
    | none =>
      rw [hnext] at hoffer
      simp only [board, flags, System.next, hnext, ← hoffer]
      exact h
    | some irq =>
      have hirq : irq ∈ handled := List.mem_of_find?_eq_some (hoffer.symm.trans hnext)
      have haccept := h.accept hnext
      have hgate := haccept.gate hirq pressed cpu
      rw [hnext] at hoffer
      have hkey : irq = 1 → ¬(Op.key pressed cpu).Faults fs b.kernel := by
        rintro rfl
        rw [Unbroken, hout] at hunbroken
        simp only [flags, System.out, ← hoffer, handler, Entry.brokenOff,
          decide_eq_false_iff_not] at hunbroken
        exact hunbroken
      simp only [board, flags, System.next, hnext, ← hoffer, hgate]
      exact haccept.sendEois_own hirq (eoiCalls_handler fs _ pressed cpu hirq hkey)

theorem board_kernel_step (event : BoardEvent) : ((board fs).next b event).kernel =
    (kernel fs).run b.kernel ((board fs).out b event).op.toList := by
  cases event with
  | raise irq => rfl
  | leave => rfl
  | enter op => rfl
  | interrupt pressed cpu =>
    simp only [board, System.out, System.next]
    split
    · rfl
    · split <;> rfl

theorem board_kernel (events : List BoardEvent) : ((board fs).run b events).kernel =
    (kernel fs).run b.kernel
      ((((board fs).trace b events).map Move.out).filterMap Entry.op) := by
  induction events generalizing b with
  | nil => rfl
  | cons event events ih =>
    have hcons : ((((board fs).trace b (event :: events)).map Move.out).filterMap Entry.op) =
        ((board fs).out b event).op.toList ++
          ((((board fs).trace ((board fs).next b event) events).map Move.out).filterMap
            Entry.op) := by
      simp only [System.trace, List.map_cons, List.filterMap_cons, System.move]
      cases ((board fs).out b event).op <;> rfl
    rw [System.run_cons, ih, board_kernel_step, hcons, System.run_append]

/-- From boot on, whatever devices ask for and whenever the processor looks, the board takes the
entries that three flags would give it: only interrupts with a handler, each request until it is
served, the timer before the keyboard before the clock. Nothing stays in service, as long as no
keyboard_handler faults. -/
theorem board_flags (k : Kernel) (d : I8259) (events : List BoardEvent)
    (hunbroken : (board fs).Along (Unbroken fs) ⟨k,initLines d⟩ events) :
    let b := (board fs).run ⟨k,initLines d⟩ events
    let entries := ((board fs).trace ⟨k,initLines d⟩ events).map Move.out
    entries = (flags.trace (fun _ => false) events).map Move.out ∧
      b.kernel = (kernel fs).run k (entries.filterMap Entry.op) ∧
        b.lines.pic.Serving [] := by
  intro b entries
  let R (b : Board) (owed : ℕ → Bool) : Prop := Mirrors b.lines owed []
  have hmirrors : R ⟨k,initLines d⟩ fun _ => false := initLines_mirrors d
  refine ⟨?_,board_kernel events,?_⟩
  · refine System.Along.outputs_eq (R := R) ?_ hmirrors hunbroken
    exact fun b owed event h hevent => ⟨board_out h event,board_next h hevent⟩
  · have hsim : ∃ owed, R b owed := by
      refine hunbroken.invariant (I := fun b => ∃ owed, R b owed) ?_ ⟨_,hmirrors⟩
      rintro b event ⟨owed,h⟩ hevent
      exact ⟨_,board_next h hevent⟩
    exact hsim.choose_spec.serving

/-- The clock and the shift key, asked for together. -/
theorem board_flags_shift :
    let k := initial (fun _ => PCB.zero) fun _ => 0
    let events : List BoardEvent :=
      [.raise 8,.raise 1,.interrupt 0x2A ⟨1,1,fun _ => 0⟩,.interrupt 0x2A ⟨2,2,fun _ => 0⟩]
    ((board shellImage).run ⟨k,initLines unprogrammed⟩ events).lines.pic.Serving [] := by
  intro k events
  clear_value k
  let cpu : Cpu := ⟨1,1,fun _ => 0⟩
  let owed : ℕ → Bool := Function.update (Function.update (fun _ => false) 8 true) 1 true
  have hraised : Mirrors ((board shellImage).run ⟨k,initLines unprogrammed⟩ (events.take 2)).lines
      owed [] := ((initLines_mirrors unprogrammed).raise 8).raise 1
  have hkey : Unbroken shellImage ((board shellImage).run ⟨k,initLines unprogrammed⟩
      (events.take 2)) (.interrupt 0x2A cpu) := by
    have hfree : ¬(Op.key 0x2A cpu).Faults shellImage k := not_not.mpr rfl
    have hout : flags.out owed (.interrupt 0x2A cpu) = .kernel (.key 0x2A cpu) := rfl
    rw [Unbroken, board_out hraised, hout]
    exact decide_eq_false hfree
  have hclock : Unbroken shellImage ((board shellImage).run ⟨k,initLines unprogrammed⟩
      (events.take 3)) (.interrupt 0x2A ⟨2,2,fun _ => 0⟩) := by
    have hout : flags.out (flags.next owed (.interrupt 0x2A cpu))
        (.interrupt 0x2A ⟨2,2,fun _ => 0⟩) = .kernel .rtc := rfl
    exact (congrArg (Entry.brokenOff shellImage _)
      ((board_out (board_next hraised hkey) _).trans hout))
  exact (board_flags k unprogrammed events ⟨rfl,rfl,hkey,hclock,trivial⟩).2.2

end
end GameOfThreads
