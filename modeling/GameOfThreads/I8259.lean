import GameOfThreads.Machine.InterruptController
import GameOfThreads.Machine.Run

/-! The interrupt controllers of the board under their driver: initialisation, the two masks,
and ends of interrupts, in any order with what devices and the processor do. -/
namespace GameOfThreads
open Machine

def master8259Port : ℕ := 0x20
def master8259PortD : ℕ := 0x21
def slave8259Port : ℕ := 0xA0
def slave8259PortD : ℕ := 0xA1

def icw1 : BitVec 8 := 0x11
def icw2Master : BitVec 8 := 0x20
def icw2Slave : BitVec 8 := 0x28
def icw3Master : BitVec 8 := 0x04
def icw3Slave : BitVec 8 := 0x02
def icw4 : BitVec 8 := 0x01
def eoi : ℕ := 0x60
def slaveEoi : BitVec 8 := 0x62
def fullMask : BitVec 8 := 0xFF

/-- The controllers, and the masks that the driver keeps for them. -/
structure I8259 where
  masterMask : BitVec 8
  slaveMask : BitVec 8
  pic : Pic

/-- A byte to one of the four ports of the controllers. -/
def outb (b : BitVec 8) (port : ℕ) (d : I8259) : I8259 :=
  if port = master8259Port then { d with pic.master := d.pic.master.command b }
  else if port = master8259PortD then { d with pic.master := d.pic.master.data b }
  else if port = slave8259Port then { d with pic.slave := d.pic.slave.command b }
  else if port = slave8259PortD then { d with pic.slave := d.pic.slave.data b }
  else d

def i8259Init (d : I8259) : I8259 :=
  let d := { d with masterMask := fullMask, slaveMask := fullMask }
  let d := outb fullMask slave8259PortD (outb fullMask master8259PortD d)
  let d := outb icw2Master master8259PortD (outb icw1 master8259Port d)
  let d := outb icw4 master8259PortD (outb icw3Master master8259PortD d)
  let d := outb icw2Slave slave8259PortD (outb icw1 slave8259Port d)
  outb icw4 slave8259PortD (outb icw3Slave slave8259PortD d)

/-- The mask of the controller that has the line is changed and written out. -/
def writeMask (change : BitVec 8 → ℕ → BitVec 8) (irqNum : ℕ) (d : I8259) : I8259 :=
  if irqNum < 8 then
    let mask := change d.masterMask irqNum
    outb mask master8259PortD { d with masterMask := mask }
  else if irqNum < 16 then
    let mask := change d.slaveMask (irqNum-8)
    outb mask slave8259PortD { d with slaveMask := mask }
  else d

def enableIrq (irqNum : ℕ) (d : I8259) : I8259 :=
  writeMask (fun mask line => mask &&& ~~~(1#8 <<< line)) irqNum d

def disableIrq (irqNum : ℕ) (d : I8259) : I8259 :=
  writeMask (fun mask line => mask ||| 1#8 <<< line) irqNum d

def sendEoi (irqNum : ℕ) (d : I8259) : I8259 :=
  if irqNum > 7 ∧ irqNum < 16 then
    outb slaveEoi master8259Port (outb (BitVec.ofNat 8 (eoi ||| (irqNum-8))) slave8259Port d)
  else outb (BitVec.ofNat 8 (eoi ||| irqNum)) master8259Port d

/-- What may happen to the controllers: a device asks, the processor takes what it is offered,
or one of the driver's functions is called. -/
inductive LineEvent
  | raise (irq : ℕ)
  | take
  | sendEoi (irq : ℕ)
  | enableIrq (irq : ℕ)
  | disableIrq (irq : ℕ)
  deriving DecidableEq

/-- The controllers after i8259_init. The processor is given a vector. -/
def lines : System I8259 LineEvent (Option ℕ) where
  step d
    | .raise irq => (none,{ d with pic := d.pic.raise irq })
    | .take =>
      match d.pic.next with
      | some irq => (d.pic.vector irq,{ d with pic := d.pic.accept irq })
      | none => (none,d)
    | .sendEoi irq => (none,sendEoi irq d)
    | .enableIrq irq => (none,enableIrq irq d)
    | .disableIrq irq => (none,disableIrq irq d)

namespace I8259

/-- The mask that the driver keeps has the line. -/
def masked (d : I8259) (irq : ℕ) : Bool :=
  if irq < 8 then d.masterMask.getLsbD irq else d.slaveMask.getLsbD (irq-8)

/-- The controller masks the line. -/
def closed (d : I8259) (irq : ℕ) : Bool :=
  if irq < 8 then d.pic.master.imr.getLsbD irq else d.pic.slave.imr.getLsbD (irq-8)

/-- Both controllers are programmed as the rest of the kernel takes them to be. -/
structure Installed (d : I8259) : Prop where
  master : d.pic.master.setup = ⟨.ready,false,icw2Master,icw3Master⟩
  slave : d.pic.slave.setup = ⟨.ready,false,icw2Slave,icw3Slave⟩

/-- Only the masks differ. -/
structure MasksOnly (d d' : I8259) : Prop where
  rest : d' = { d with
    masterMask := d'.masterMask, slaveMask := d'.slaveMask
    pic.master.imr := d'.pic.master.imr, pic.slave.imr := d'.pic.slave.imr }

variable {d : I8259}

theorem Installed.programmed (h : d.Installed) : d.pic.Programmed where
  master := congrArg Chip.Setup.phase h.master
  slave := congrArg Chip.Setup.phase h.slave
  masterEoi := congrArg Chip.Setup.autoEoi h.master
  slaveEoi := congrArg Chip.Setup.autoEoi h.slave

/-- Interrupt 0 has vector 0x20, and the others follow it on both controllers. -/
theorem Installed.vector (h : d.Installed) {irq : ℕ} (hirq : irq < 16) (hne : irq ≠ Pic.cascade) :
    d.pic.vector irq = some (0x20+irq) := by
  have hmaster : d.pic.master.base = icw2Master := congrArg Chip.Setup.base h.master
  have hslave : d.pic.slave.base = icw2Slave := congrArg Chip.Setup.base h.slave
  have hwiring : d.pic.master.wiring = icw3Master := congrArg Chip.Setup.wiring h.master
  have hnumber : d.pic.slave.wiring = icw3Slave := congrArg Chip.Setup.wiring h.slave
  have hline : ∀ i < 8, i ≠ Pic.cascade → icw3Master.getLsbD i = false := by decide
  rw [Pic.vector, hmaster, hslave, hwiring, hnumber]
  split_ifs with hlt hbit hbit
  · rw [hline irq hlt hne] at hbit
    exact absurd hbit Bool.false_ne_true
  · rfl
  · rw [show icw2Slave.toNat+(irq-8) = 0x20+irq by
      rw [show icw2Slave.toNat = 0x28 from rfl]
      omega]
  · exact absurd (by decide) hbit

/-- From any state, in the middle of another initialisation too. The controllers mask nothing
then, for all that the driver's masks say. -/
theorem i8259Init_spec (d : I8259) :
    (i8259Init d).Installed ∧ (i8259Init d).pic.Serving [] ∧
      (∀ irq, (i8259Init d).pic.requested irq = false) ∧
      ∀ irq < 16, (i8259Init d).masked irq ∧ (i8259Init d).closed irq = false := by
  have hmaster : (i8259Init d).pic.master = (((((d.pic.master.data fullMask).command icw1).data
      icw2Master).data icw3Master).data icw4) := rfl
  have hslave : (i8259Init d).pic.slave = (((((d.pic.slave.data fullMask).command icw1).data
      icw2Slave).data icw3Slave).data icw4) := rfl
  have hmasks : (i8259Init d).masterMask = fullMask ∧ (i8259Init d).slaveMask = fullMask :=
    ⟨rfl,rfl⟩
  rw [show icw1 = 0x11 from rfl, Chip.initialise] at hmaster hslave
  refine ⟨⟨congrArg Chip.setup hmaster,congrArg Chip.setup hslave⟩,
    .idle (congrArg Chip.isr hmaster) (congrArg Chip.isr hslave),?_,?_⟩
  · intro irq
    rw [Pic.requested, hmaster, hslave, ite_self]
  · intro irq hirq
    have hfull : ∀ i < 8, fullMask.getLsbD i := by decide
    have hopen : ∀ i, (0 : BitVec 8).getLsbD i = false := fun i => BitVec.getLsbD_zero
    rw [masked, closed, hmasks.1, hmasks.2, hmaster, hslave]
    split_ifs with hlt
    · exact ⟨hfull irq hlt,hopen irq⟩
    · exact ⟨hfull _ (by omega),hopen _⟩

theorem outb_masterMask (h : d.Installed) (b : BitVec 8) :
    outb b master8259PortD { d with masterMask := b } =
      { d with masterMask := b, pic.master.imr := b } :=
  congrArg (fun c => { d with masterMask := b, pic.master := c })
    (Chip.data_ready h.programmed.master b)

theorem outb_slaveMask (h : d.Installed) (b : BitVec 8) :
    outb b slave8259PortD { d with slaveMask := b } =
      { d with slaveMask := b, pic.slave.imr := b } :=
  congrArg (fun c => { d with slaveMask := b, pic.slave := c })
    (Chip.data_ready h.programmed.slave b)

/-- Two interrupts of one controller. -/
def Together (irq q : ℕ) : Prop := irq < 8 ∧ q < 8 ∨ 8 ≤ irq ∧ irq < 16 ∧ 8 ≤ q ∧ q < 16

instance (irq q : ℕ) : Decidable (Together irq q) := inferInstanceAs (Decidable (_ ∨ _))

theorem writeMask_spec (h : d.Installed) {change : BitVec 8 → ℕ → BitVec 8} {bit : Bool}
    (hchange : ∀ m n, ∀ i < 8, (change m n).getLsbD i = if i = n then bit else m.getLsbD i)
    (n : ℕ) : MasksOnly d (writeMask change n d) ∧
    ∀ irq < 16, (writeMask change n d).masked irq = (if irq = n then bit else d.masked irq) ∧
      (writeMask change n d).closed irq =
        if Together irq n then (writeMask change n d).masked irq else d.closed irq := by
  unfold writeMask
  split_ifs with hn hn'
  · dsimp only
    rw [outb_masterMask h]
    refine ⟨⟨rfl⟩,?_⟩
    intro irq hirq
    unfold masked closed Together
    by_cases hlt : irq < 8
    · simp only [hlt, hn, if_true, hchange _ _ _ hlt, and_self, true_or]
    · simp [hlt, hn, show irq ≠ n by omega, show ¬8 ≤ n by omega]
  · dsimp only
    rw [outb_slaveMask h]
    refine ⟨⟨rfl⟩,?_⟩
    intro irq hirq
    unfold masked closed Together
    by_cases hlt : irq < 8
    · simp [hlt, hn, show irq ≠ n by omega, show ¬8 ≤ irq by omega]
    · have hi : irq-8 < 8 := by omega
      have hsame : (irq-8 = n-8) = (irq = n) := propext (by omega)
      simp only [hlt, if_false, hchange _ _ _ hi, hsame, false_and, false_or,
        show 8 ≤ irq by omega, hirq, show 8 ≤ n by omega, hn', and_self, if_true]
  · refine ⟨⟨rfl⟩,?_⟩
    intro irq hirq
    have htogether : ¬Together irq n := by
      unfold Together
      omega
    simp [htogether, show irq ≠ n by omega]

theorem enable_bit (m : BitVec 8) (n : ℕ) : ∀ i < 8,
    (m &&& ~~~(1#8 <<< n)).getLsbD i = if i = n then false else m.getLsbD i := by
  intro i hi
  rw [BitVec.getLsbD_and, BitVec.getLsbD_not, BitVec.getLsbD_shiftLeft, BitVec.getLsbD_one]
  by_cases hin : i = n
  · simp [hin]
  · by_cases hlt : i < n
    · simp [hi, hin, hlt]
    · simp [hi, hin, hlt, show i-n ≠ 0 by omega]

theorem disable_bit (m : BitVec 8) (n : ℕ) : ∀ i < 8,
    (m ||| 1#8 <<< n).getLsbD i = if i = n then true else m.getLsbD i := by
  intro i hi
  rw [BitVec.getLsbD_or, BitVec.getLsbD_shiftLeft, BitVec.getLsbD_one]
  by_cases hin : i = n
  · simp [hin, show n < 8 by omega]
  · by_cases hlt : i < n
    · simp [hin, hlt]
    · simp [hin, show i-n ≠ 0 by omega]

theorem sendEoi_eq {irq : ℕ} (hirq : irq < 16) (d : I8259) :
    sendEoi irq d = { d with pic := d.pic.finish irq } := by
  unfold sendEoi Pic.finish
  by_cases hlt : irq < 8
  · rw [if_neg (by omega), if_pos hlt]
    exact congrArg (fun c => { d with pic.master := c }) (Chip.command_finish hlt)
  · have hslave := Chip.command_finish (c := d.pic.slave) (show irq-8 < 8 by omega)
    have hmaster := Chip.command_finish (c := d.pic.master) (show Pic.cascade < 8 by decide)
    rw [if_pos (by omega), if_neg hlt]
    rw [← hslave, ← hmaster]
    rfl

theorem MasksOnly.setup {d' : I8259} (h : MasksOnly d d') :
    d'.pic.master.setup = d.pic.master.setup ∧ d'.pic.slave.setup = d.pic.slave.setup := by
  rw [h.rest]
  exact ⟨rfl,rfl⟩

/-- The controllers have been left alone by the driver. -/
theorem Installed.keeps (h : d.Installed) {p : Pic} (hp : d.pic.Keeps p) :
    Installed { d with pic := p } where
  master := hp.master.trans h.master
  slave := hp.slave.trans h.slave

theorem closed_keeps {p : Pic} (hp : d.pic.Keeps p) (irq : ℕ) :
    closed { d with pic := p } irq = d.closed irq := by
  unfold closed
  rw [hp.masterMask, hp.slaveMask]

theorem MasksOnly.requested {d' : I8259} (h : MasksOnly d d') (irq : ℕ) :
    d'.pic.requested irq = d.pic.requested irq := by
  rw [h.rest]
  rfl

theorem MasksOnly.isr {d' : I8259} (h : MasksOnly d d') :
    d'.pic.master.isr = d.pic.master.isr ∧ d'.pic.slave.isr = d.pic.slave.isr := by
  rw [h.rest]
  exact ⟨rfl,rfl⟩

end I8259

/-! ### Runs -/

section
open I8259

/-- The handlers at work after one more step, the last one first. -/
def atWork (handlers : List ℕ) (m : Move I8259 LineEvent (Option ℕ)) : List ℕ :=
  match m.event with
  | .take => m.pre.pic.next.toList ++ handlers
  | .sendEoi irq => handlers.filter (· ≠ irq)
  | _ => handlers

/-- A device has asked since the processor took the interrupt last. -/
def asked (irq : ℕ) (before : Bool) (m : Move I8259 LineEvent (Option ℕ)) : Bool :=
  match m.event with
  | .raise q => before || decide (q = irq)
  | .take => before && decide (m.pre.pic.next ≠ some irq)
  | _ => before

/-- The driver has been called to enable the line, and not to disable it since. -/
def opened (irq : ℕ) (before : Bool) (m : Move I8259 LineEvent (Option ℕ)) : Bool :=
  match m.event with
  | .enableIrq q => if irq = q then true else before
  | .disableIrq q => if irq = q then false else before
  | _ => before

/-- The driver has been called for some line of the controller that has this one. -/
def maskSent (irq : ℕ) (before : Bool) (m : Move I8259 LineEvent (Option ℕ)) : Bool :=
  match m.event with
  | .enableIrq q => before || decide (Together irq q)
  | .disableIrq q => before || decide (Together irq q)
  | _ => before

/-- An end of interrupt is for one of the lines that there are. -/
def Numbered (_ : I8259) (e : LineEvent) : Prop := ∀ irq, e = .sendEoi irq → irq < 16

/-- The end that a handler reports is its own, or of a line that nobody serves. -/
def Closes (d : I8259) (e : LineEvent) : Prop :=
  Numbered d e ∧ ∀ irq, e = .sendEoi irq → d.pic.master.isr (Pic.line irq) →
    if irq < 8 then irq ≠ Pic.cascade else d.pic.slave.isr (irq-8)

/-- What the registers hold after the recorded steps. -/
structure Tells (h : List (Move I8259 LineEvent (Option ℕ))) (d : I8259) : Prop where
  installed : d.Installed
  requests : ∀ irq < 16, irq ≠ Pic.cascade → d.pic.requested irq = h.foldl (asked irq) false
  masks : ∀ irq < 16, d.masked irq = !h.foldl (opened irq) false ∧
    d.closed irq = (h.foldl (maskSent irq) false && d.masked irq)

/-- The lines in service after the recorded steps. -/
structure Serves (h : List (Move I8259 LineEvent (Option ℕ))) (d : I8259) : Prop where
  serving : d.pic.Serving (h.foldl atWork [])
  genuine : ∀ irq ∈ h.foldl atWork [], irq ≠ Pic.cascade

variable {h : List (Move I8259 LineEvent (Option ℕ))} {d : I8259}

theorem atWork_take (handlers : List ℕ) (d : I8259) :
    atWork handlers (lines.move d .take) = d.pic.next.toList ++ handlers := rfl

theorem asked_take (irq : ℕ) (before : Bool) (d : I8259) :
    asked irq before (lines.move d .take) = (before && decide (d.pic.next ≠ some irq)) := rfl

theorem next_take_none (hnext : d.pic.next = none) : lines.next d .take = d := by
  simp only [lines, System.next, hnext]

theorem next_take_some {irq : ℕ} (hnext : d.pic.next = some irq) :
    lines.next d .take = { d with pic := d.pic.accept irq } := by
  simp only [lines, System.next, hnext]

namespace Tells

theorem init (d : I8259) : Tells [] (i8259Init d) := by
  obtain ⟨hinstalled,-,hrequests,hmasks⟩ := i8259Init_spec d
  exact ⟨hinstalled,fun irq _ _ => hrequests irq,hmasks⟩

/-- The driver has left the controllers alone. -/
theorem keeps (ht : Tells h d) {e : LineEvent} {p : Pic} (hp : d.pic.Keeps p)
    (hrequests : ∀ irq, irq ≠ Pic.cascade →
      p.requested irq = asked irq (d.pic.requested irq) (lines.move d e))
    (hopened : ∀ irq before, opened irq before (lines.move d e) = before)
    (hsent : ∀ irq before, maskSent irq before (lines.move d e) = before) :
    Tells (h ++ [lines.move d e]) { d with pic := p } where
  installed := ht.installed.keeps hp
  requests irq hirq hne := by
    rw [List.foldl_concat, ← ht.requests irq hirq hne]
    exact hrequests irq hne
  masks irq hirq := by
    rw [List.foldl_concat, List.foldl_concat, closed_keeps hp, hopened, hsent]
    exact ht.masks irq hirq

/-- The driver writes a mask. -/
theorem mask (ht : Tells h d) {change : BitVec 8 → ℕ → BitVec 8} {bit : Bool} {n : ℕ}
    {e : LineEvent} (hnext : lines.next d e = writeMask change n d)
    (hchange : ∀ m n, ∀ i < 8, (change m n).getLsbD i = if i = n then bit else m.getLsbD i)
    (hasked : ∀ irq before, asked irq before (lines.move d e) = before)
    (hopened : ∀ irq before,
      opened irq before (lines.move d e) = if irq = n then !bit else before)
    (hsent : ∀ irq before,
      maskSent irq before (lines.move d e) = (before || decide (Together irq n))) :
    Tells (h ++ [lines.move d e]) (lines.next d e) := by
  obtain ⟨honly,hmasks⟩ := writeMask_spec ht.installed hchange n
  rw [hnext]
  generalize writeMask change n d = d' at *
  constructor
  · exact ⟨honly.setup.1.trans ht.installed.master,honly.setup.2.trans ht.installed.slave⟩
  · intro irq hirq hne
    rw [List.foldl_concat, hasked, honly.requested, ht.requests irq hirq hne]
  · intro irq hirq
    obtain ⟨hmasked,hclosed⟩ := hmasks irq hirq
    obtain ⟨hmasked',hclosed'⟩ := ht.masks irq hirq
    rw [List.foldl_concat, List.foldl_concat, hopened, hsent, hclosed]
    constructor
    · rw [hmasked]
      split_ifs
      · rw [Bool.not_not]
      · exact hmasked'
    · by_cases htogether : Together irq n
      · simp [htogether]
      · have hne : irq ≠ n := by
          rintro rfl
          unfold Together at htogether
          omega
        rw [hmasked, if_neg htogether, if_neg hne, hclosed']
        simp [htogether]

theorem step (ht : Tells h d) {e : LineEvent} (hok : Numbered d e) :
    Tells (h ++ [lines.move d e]) (lines.next d e) := by
  cases e with
  | raise irq =>
    exact ht.keeps (Pic.raise_keeps irq _) (fun _ _ => Pic.requested_raise irq) (fun _ _ => rfl)
      fun _ _ => rfl
  | take =>
    cases hnext : d.pic.next with
    | none =>
      rw [next_take_none hnext]
      refine ht.keeps ⟨rfl,rfl,rfl,rfl⟩ ?_ (fun _ _ => rfl) fun _ _ => rfl
      intro irq hne
      rw [asked_take, hnext]
      simp
    | some q =>
      rw [next_take_some hnext]
      refine ht.keeps (Pic.accept_keeps q _) ?_ (fun _ _ => rfl) fun _ _ => rfl
      intro irq hne
      rw [asked_take, hnext, Pic.requested_accept hne]
      simp
  | sendEoi irq =>
    have hsent : lines.next d (.sendEoi irq) = { d with pic := d.pic.finish irq } :=
      sendEoi_eq (hok irq rfl) d
    rw [hsent]
    exact ht.keeps (Pic.finish_keeps irq _) (fun _ _ => Pic.requested_finish irq) (fun _ _ => rfl)
      fun _ _ => rfl
  | enableIrq irq => exact ht.mask rfl enable_bit (fun _ _ => rfl) (fun _ _ => rfl) fun _ _ => rfl
  | disableIrq irq =>
    exact ht.mask rfl disable_bit (fun _ _ => rfl) (fun _ _ => rfl) fun _ _ => rfl

theorem run (d : I8259) {events : List LineEvent}
    (hevents : lines.Along Numbered (i8259Init d) events) :
    Tells (lines.trace (i8259Init d) events) (lines.run (i8259Init d) events) :=
  System.Along.history (R := Tells) (fun _ _ _ ht hok => ht.step hok) (.init d) hevents

end Tells

namespace Serves

theorem init (d : I8259) : Serves [] (i8259Init d) :=
  ⟨(i8259Init_spec d).2.1,fun _ hirq => absurd hirq List.not_mem_nil⟩

/-- Neither the processor nor a handler has moved. -/
theorem keeps (hs : Serves h d) {e : LineEvent}
    (hisr : (lines.next d e).pic.master.isr = d.pic.master.isr ∧
      (lines.next d e).pic.slave.isr = d.pic.slave.isr)
    (hwork : ∀ handlers, atWork handlers (lines.move d e) = handlers) :
    Serves (h ++ [lines.move d e]) (lines.next d e) where
  serving := by
    rw [List.foldl_concat, hwork]
    exact hs.serving.congr hisr
  genuine := by
    rw [List.foldl_concat, hwork]
    exact hs.genuine

theorem take (hs : Serves h d) (hd : d.Installed) :
    Serves (h ++ [lines.move d .take]) (lines.next d .take) := by
  cases hnext : d.pic.next with
  | none =>
    refine hs.keeps ?_ fun handlers => ?_
    · rw [next_take_none hnext]
      exact ⟨rfl,rfl⟩
    · rw [atWork_take, hnext]
      rfl
  | some irq =>
    have hwork : (h ++ [lines.move d .take]).foldl atWork [] = irq :: h.foldl atWork [] := by
      rw [List.foldl_concat, atWork_take, hnext]
      rfl
    rw [next_take_some hnext]
    constructor
    · rw [hwork]
      exact hs.serving.accept hd.programmed hnext
    · rw [hwork]
      intro q hq
      rcases List.mem_cons.mp hq with rfl | hq
      · exact (Pic.next_spec hnext).2.2.1
      · exact hs.genuine q hq

theorem sendEoi (hs : Serves h d) {irq : ℕ} (hok : Closes d (.sendEoi irq)) :
    Serves (h ++ [lines.move d (.sendEoi irq)]) (lines.next d (.sendEoi irq)) := by
  obtain ⟨hnumbered,hown⟩ := hok
  have hline : irq ∈ h.foldl atWork [] ∨ Pic.line irq ∉ (h.foldl atWork []).map Pic.line := by
    by_cases hbusy : d.pic.master.isr (Pic.line irq)
    · left
      have hmine := hown irq rfl hbusy
      obtain ⟨q,hq,heq⟩ := List.mem_map.mp ((hs.serving.master _).mp hbusy)
      split_ifs at hmine with hlt
      · unfold Pic.line at heq
        split_ifs at heq
        · exact heq ▸ hq
        · exact absurd heq.symm hmine
      · have hmem := (hs.serving.slave _).mp hmine
        rwa [show 8+(irq-8) = irq by omega] at hmem
    · exact .inr fun hmem => hbusy ((hs.serving.master _).mpr hmem)
  have hsent : lines.next d (.sendEoi irq) = { d with pic := d.pic.finish irq } :=
    sendEoi_eq (hnumbered irq rfl) d
  rw [hsent]
  constructor
  · rw [List.foldl_concat]
    exact hs.serving.finish hline
  · rw [List.foldl_concat]
    intro q hq
    exact hs.genuine q (List.mem_of_mem_filter hq)

theorem step (hs : Serves h d) (hd : d.Installed) {e : LineEvent} (hok : Closes d e) :
    Serves (h ++ [lines.move d e]) (lines.next d e) := by
  cases e with
  | raise irq => exact hs.keeps (Pic.raise_isr irq) fun _ => rfl
  | take => exact hs.take hd
  | sendEoi irq => exact hs.sendEoi hok
  | enableIrq irq => exact hs.keeps (writeMask_spec hd enable_bit irq).1.isr fun _ => rfl
  | disableIrq irq => exact hs.keeps (writeMask_spec hd disable_bit irq).1.isr fun _ => rfl

theorem run (d : I8259) {events : List LineEvent}
    (hevents : lines.Along Closes (i8259Init d) events) :
    Tells (lines.trace (i8259Init d) events) (lines.run (i8259Init d) events) ∧
      Serves (lines.trace (i8259Init d) events) (lines.run (i8259Init d) events) :=
  System.Along.history (R := fun h d => Tells h d ∧ Serves h d)
    (fun _ _ _ h hok => ⟨h.1.step hok.1,h.2.step h.1.installed hok⟩) ⟨.init d,.init d⟩ hevents

end Serves

theorem asks_eq (irq : ℕ) (d : I8259) : d.pic.asks irq =
    (d.pic.requested irq && !d.closed irq && (decide (irq < 8) || !d.closed Pic.cascade)) := by
  have hcascade : d.closed Pic.cascade = d.pic.master.imr.getLsbD Pic.cascade := rfl
  rw [hcascade, Pic.asks, Pic.requested, closed]
  split_ifs with hlt
  · simp [Chip.asks, hlt]
  · simp [Chip.asks, hlt]

/-- In every order of requests, interrupts, handlers' ends and calls of the driver: what the
processor is offered has been asked for since it was taken last, is not masked and outranks all
handlers at work, and comes with the vector of its number. Whenever something does, something of
its rank or above is offered. -/
theorem lines_served (d₀ : I8259) (events : List LineEvent)
    (hevents : lines.Along Closes (i8259Init d₀) events) :
    let d := lines.run (i8259Init d₀) events
    let h := lines.trace (i8259Init d₀) events
    let owed := fun irq => irq < 16 ∧ irq ≠ Pic.cascade ∧ h.foldl (asked irq) false ∧
      d.closed irq = false ∧ (irq < 8 ∨ d.closed Pic.cascade = false) ∧
        ∀ q ∈ h.foldl atWork [], Pic.line irq < Pic.line q
    (∀ irq, d.pic.next = some irq → owed irq ∧ d.pic.vector irq = some (0x20+irq)) ∧
      ∀ irq, owed irq → ∃ q, d.pic.next = some q ∧ Pic.line q ≤ Pic.line irq := by
  intro d h owed
  obtain ⟨ht,hs⟩ := Serves.run d₀ hevents
  constructor
  · intro irq hnext
    obtain ⟨hasks,hlt,hne,-⟩ := Pic.next_spec hnext
    rw [asks_eq, ht.requests irq hlt hne] at hasks
    simp only [Bool.and_eq_true, Bool.not_eq_true', Bool.or_eq_true, decide_eq_true_eq] at hasks
    obtain ⟨⟨hasked,hopen⟩,hcascade⟩ := hasks
    exact ⟨⟨hlt,hne,hasked,hopen,hcascade,fun q hq => hs.serving.above hnext hq⟩,
      ht.installed.vector hlt hne⟩
  · rintro irq ⟨hlt,hne,hasked,hopen,hcascade,habove⟩
    have hasks : d.pic.asks irq := by
      rw [asks_eq, ht.requests irq hlt hne, hasked, hopen]
      simpa using hcascade
    exact hs.serving.exists_next ht.installed.programmed hlt hne hasks habove

theorem closes_of_ne {e : LineEvent} (he : ∀ irq, e ≠ .sendEoi irq) (d : I8259) : Closes d e :=
  ⟨fun irq heq => absurd heq (he irq),fun irq heq => absurd heq (he irq)⟩

/-- Controllers that nobody has programmed. -/
def unprogrammed : I8259 where
  masterMask := 0
  slaveMask := 0
  pic.master := ⟨.ready,false,false,false,0,0,0,fun _ => false,fun _ => false⟩
  pic.slave := ⟨.ready,false,false,false,0,0,0,fun _ => false,fun _ => false⟩

/-- The timer comes while the handler of the clock is at work, and the keyboard after it. -/
def nestedHandlers : List LineEvent :=
  [.enableIrq 1,.enableIrq 2,.enableIrq 8,.enableIrq 0,.raise 8,.take,.raise 1,.raise 0,.take,
    .sendEoi 0]

theorem nestedHandlers_along : lines.Along Closes (i8259Init unprogrammed) nestedHandlers := by
  have hother : ∀ (e : LineEvent) d, (∀ irq, e ≠ .sendEoi irq) → Closes d e :=
    fun _ d he => closes_of_ne he d
  refine ⟨hother _ _ ?_,hother _ _ ?_,hother _ _ ?_,hother _ _ ?_,hother _ _ ?_,hother _ _ ?_,
    hother _ _ ?_,hother _ _ ?_,hother _ _ ?_,⟨?_,?_⟩,trivial⟩
  iterate 9 exact fun _ => LineEvent.noConfusion
  · rintro irq ⟨⟩
    decide
  · rintro irq ⟨⟩ -
    decide

theorem lines_served_nested :
    (lines.run (i8259Init unprogrammed) nestedHandlers).pic.vector 1 = some 0x21 :=
  ((lines_served unprogrammed nestedHandlers nestedHandlers_along).1 1 rfl).2

/-- The masks that the driver keeps tell the last call for each line. A controller has the
driver's mask from the first call for one of its lines on, and until then masks nothing. -/
theorem lines_masked (d₀ : I8259) (events : List LineEvent)
    (hevents : lines.Along Numbered (i8259Init d₀) events) (irq : ℕ) (hirq : irq < 16) :
    let d := lines.run (i8259Init d₀) events
    let h := lines.trace (i8259Init d₀) events
    d.masked irq = !h.foldl (opened irq) false ∧
      d.closed irq = (h.foldl (maskSent irq) false && d.masked irq) :=
  (Tells.run d₀ hevents).masks irq hirq

/-- A call for line 3 closes the lines around it, which were open before. -/
theorem lines_masked_first :
    (lines.run (i8259Init unprogrammed) [.enableIrq 3]).closed 3 = false ∧
      (lines.run (i8259Init unprogrammed) [.enableIrq 3]).closed 5 = true ∧
        (lines.run (i8259Init unprogrammed) [.enableIrq 3]).closed 12 = false := by
  have hevents : lines.Along Numbered (i8259Init unprogrammed) [.enableIrq 3] :=
    ⟨fun _ => LineEvent.noConfusion,trivial⟩
  have hclosed := fun irq hirq => (lines_masked unprogrammed _ hevents irq hirq).2
  exact ⟨(hclosed 3 (by decide)).trans rfl,(hclosed 5 (by decide)).trans rfl,
    (hclosed 12 (by decide)).trans rfl⟩

end
end GameOfThreads
