import Mathlib.Data.Nat.Notation
import Mathlib.Logic.Function.Basic
import Mathlib.Data.List.Nodup

/-! A programmable interrupt controller with eight lines, and two of them in cascade. A chip is
programmed by a sequence of bytes, keeps requests until they are acknowledged, and holds back
what has no priority over a line in service. Priorities are fixed: line 0 comes first. -/
namespace GameOfThreads.Machine

/-- What the next byte at the data port is taken for. -/
inductive Phase
  | ready
  | icw2
  | icw3
  | icw4
  deriving DecidableEq, Repr

structure Chip where
  phase : Phase
  cascaded : Bool
  fourth : Bool
  autoEoi : Bool
  base : BitVec 8
  wiring : BitVec 8
  imr : BitVec 8
  irr : ℕ → Bool
  isr : ℕ → Bool

namespace Chip
variable (c : Chip)

/-- What the initialisation words say. -/
structure Setup where
  phase : Phase
  autoEoi : Bool
  base : BitVec 8
  wiring : BitVec 8
  deriving DecidableEq

def setup : Setup := ⟨c.phase,c.autoEoi,c.base,c.wiring⟩

/-- The lines that ask and are not masked. -/
def asks (i : ℕ) : Bool := c.irr i && !c.imr.getLsbD i

/-- The line first in priority, if nothing of its rank or above is in service. -/
def pending : Option ℕ :=
  if c.phase = .ready then
    ((List.range 8).find? c.asks).filter fun i => (List.range (i+1)).all fun j => !c.isr j
  else none

/-- The first of the lines in service. -/
def served : Option ℕ := (List.range 8).find? c.isr

def raise (i : ℕ) : Chip := { c with irr := Function.update c.irr i true }

def acknowledge (i : ℕ) : Chip :=
  { c with
    irr := Function.update c.irr i false
    isr := if c.autoEoi then c.isr else Function.update c.isr i true }

def finish (i : ℕ) : Chip := { c with isr := Function.update c.isr i false }

/-- A byte at the command port: the first word of an initialisation, which also unmasks every
line; or, among the operation words, an end of interrupt. -/
def command (b : BitVec 8) : Chip :=
  if b.getLsbD 4 then
    { c with
      phase := .icw2, cascaded := !b.getLsbD 1, fourth := b.getLsbD 0, autoEoi := false
      imr := 0, irr := fun _ => false, isr := fun _ => false }
  else if b.getLsbD 3 ∨ !b.getLsbD 5 then c
  else if b.getLsbD 6 then c.finish (b.toNat % 8)
  else
    match c.served with
    | some i => c.finish i
    | none => c

/-- A byte at the data port. -/
def data (b : BitVec 8) : Chip :=
  match c.phase with
  | .ready => { c with imr := b }
  | .icw2 => { c with
      base := b &&& 0xF8
      phase := if c.cascaded then .icw3 else if c.fourth then .icw4 else .ready }
  | .icw3 => { c with wiring := b, phase := if c.fourth then .icw4 else .ready }
  | .icw4 => { c with autoEoi := b.getLsbD 1, phase := .ready }

variable {c} {i j : ℕ}

/-- What a line needs to be the pending one. -/
theorem pending_eq_some : c.pending = some i ↔ c.phase = .ready ∧ i < 8 ∧ c.asks i ∧
    (∀ j < i, c.asks j = false) ∧ ∀ j ≤ i, c.isr j = false := by
  unfold pending
  by_cases hphase : c.phase = .ready
  · rw [if_pos hphase, Option.filter_eq_some_iff, List.find?_range_eq_some]
    simp only [hphase, true_and, List.all_eq_true, List.mem_range, Bool.not_eq_eq_eq_not,
      Bool.not_true]
    constructor
    · rintro ⟨⟨hasks,hlt,hfirst⟩,hfree⟩
      exact ⟨hlt,hasks,hfirst,fun j hj => hfree j (by omega)⟩
    · rintro ⟨hlt,hasks,hfirst,hfree⟩
      exact ⟨⟨hasks,hlt,hfirst⟩,fun j hj => hfree j (by omega)⟩
  · rw [if_neg hphase]
    exact iff_of_false (Option.some_ne_none i).symm fun h => hphase h.1

/-- With nothing of its rank or above in service a line that asks is not held back. -/
theorem exists_pending (hphase : c.phase = .ready) (hi : i < 8) (hasks : c.asks i)
    (hfree : ∀ j ≤ i, c.isr j = false) : ∃ j ≤ i, c.pending = some j := by
  induction i using Nat.strongRecOn with
  | ind i ih =>
    by_cases hfirst : ∃ j < i, c.asks j
    · obtain ⟨j,hj,hasks'⟩ := hfirst
      obtain ⟨l,hl,hpending⟩ := ih j hj (by omega) hasks' fun l hl => hfree l (by omega)
      exact ⟨l,by omega,hpending⟩
    · refine ⟨i,Nat.le_refl i,pending_eq_some.mpr ⟨hphase,hi,hasks,?_,hfree⟩⟩
      intro j hj
      by_contra hask
      exact hfirst ⟨j,hj,by simpa using hask⟩

/-- The specific end of interrupt for line `i`. -/
theorem command_finish (hi : i < 8) : c.command (BitVec.ofNat 8 (0x60 ||| i)) = c.finish i := by
  have hbits : ∀ i < 8, (BitVec.ofNat 8 (0x60 ||| i)).getLsbD 4 = false ∧
      (BitVec.ofNat 8 (0x60 ||| i)).getLsbD 3 = false ∧
      (BitVec.ofNat 8 (0x60 ||| i)).getLsbD 5 = true ∧
      (BitVec.ofNat 8 (0x60 ||| i)).getLsbD 6 = true ∧
      (BitVec.ofNat 8 (0x60 ||| i)).toNat % 8 = i := by decide
  obtain ⟨hinit,hread,hend,hspecific,hline⟩ := hbits i hi
  unfold command
  rw [hinit, hread, hend, hspecific, hline]
  rfl

theorem data_ready (hphase : c.phase = .ready) (b : BitVec 8) : c.data b = { c with imr := b } := by
  unfold data
  rw [hphase]

/-- The four words of an initialisation reach a chip in whatever state it is. -/
theorem initialise (b₂ b₃ b₄ : BitVec 8) :
    ((((c.command 0x11).data b₂).data b₃).data b₄) =
      { phase := .ready, cascaded := true, fourth := true, autoEoi := b₄.getLsbD 1,
        base := b₂ &&& 0xF8, wiring := b₃, imr := 0, irr := fun _ => false,
        isr := fun _ => false } := rfl

end Chip

/-! ### Two chips -/

/-- A second chip behind a line of the first. -/
structure Pic where
  master : Chip
  slave : Chip

namespace Pic
variable (p : Pic)

/-- The line of the first chip that the second one drives. -/
def cascade : ℕ := 2

/-- The line of the first chip that an interrupt comes through. -/
def line (irq : ℕ) : ℕ := if irq < 8 then irq else cascade

/-- The first chip with the request of the second on its line. -/
def front : Chip :=
  { p.master with irr := Function.update p.master.irr cascade p.slave.pending.isSome }

/-- The interrupt that the processor is offered: 0 to 7, or from 8 on those of the second
chip. -/
def next : Option ℕ :=
  match p.front.pending with
  | none => none
  | some i => if i = cascade then p.slave.pending.map (8 + ·) else some i

/-- A device asks. -/
def raise (irq : ℕ) : Pic :=
  if irq < 8 then { p with master := p.master.raise irq }
  else { p with slave := p.slave.raise (irq-8) }

/-- The processor takes an interrupt. -/
def accept (irq : ℕ) : Pic :=
  if irq < 8 then { p with master := p.master.acknowledge irq }
  else { master := p.master.acknowledge cascade, slave := p.slave.acknowledge (irq-8) }

/-- Both chips are told that an interrupt has been handled. -/
def finish (irq : ℕ) : Pic :=
  if irq < 8 then { p with master := p.master.finish irq }
  else { master := p.master.finish cascade, slave := p.slave.finish (irq-8) }

/-- The vector that the processor reads: with a second chip behind the line it comes from the
chip of that number. -/
def vector (irq : ℕ) : Option ℕ :=
  if irq < 8 then
    if p.master.wiring.getLsbD irq then none else some (p.master.base.toNat+irq)
  else if p.master.wiring.getLsbD cascade ∧ p.slave.wiring.toNat = cascade then
    some (p.slave.base.toNat+(irq-8))
  else none

/-- A device has asked and nobody masks its line. -/
def asks (irq : ℕ) : Bool :=
  if irq < 8 then p.master.asks irq else p.slave.asks (irq-8) && !p.master.imr.getLsbD cascade

/-- Both chips have been programmed, with ends of interrupts left to the processor. -/
structure Programmed : Prop where
  master : p.master.phase = .ready
  slave : p.slave.phase = .ready
  masterEoi : p.master.autoEoi = false
  slaveEoi : p.slave.autoEoi = false

/-- The lines in service are those of the handlers at work, the last one first; each has
interrupted those of lower rank only. -/
structure Serving (handlers : List ℕ) : Prop where
  master : ∀ i, p.master.isr i ↔ i ∈ handlers.map line
  slave : ∀ i, p.slave.isr i ↔ 8+i ∈ handlers
  ranked : (handlers.map line).Pairwise (· < ·)

variable {p} {irq : ℕ} {handlers : List ℕ}

theorem front_asks {i : ℕ} (hi : i ≠ cascade) : p.front.asks i = p.master.asks i := by
  simp only [Chip.asks, front, Function.update_of_ne hi]

theorem front_asks_cascade :
    p.front.asks cascade = (p.slave.pending.isSome && !p.master.imr.getLsbD cascade) := by
  simp only [Chip.asks, front, Function.update_self]

theorem next_eq_some : p.next = some irq ↔
    (irq < 8 ∧ irq ≠ cascade ∧ p.front.pending = some irq) ∨
      ∃ i, irq = 8+i ∧ p.front.pending = some cascade ∧ p.slave.pending = some i := by
  unfold next
  cases hfront : p.front.pending with
  | none => simp
  | some i =>
    have hi := (Chip.pending_eq_some.mp hfront).2.1
    by_cases hcascade : i = cascade
    · subst hcascade
      simp only [if_true, Option.map_eq_some_iff, Option.some.injEq, true_and]
      constructor
      · rintro ⟨j,hj,rfl⟩
        exact .inr ⟨j,rfl,hj⟩
      · rintro (⟨-,hne,heq⟩ | ⟨j,rfl,hj⟩)
        · exact absurd heq.symm hne
        · exact ⟨j,hj,rfl⟩
    · simp only [Option.some.injEq, hcascade, if_false, false_and, and_false, exists_false,
        or_false]
      constructor
      · rintro rfl
        exact ⟨hi,hcascade,rfl⟩
      · exact fun h => h.2.2

/-- What is offered has asked, and comes through the line that the first chip has pending. -/
theorem next_spec (h : p.next = some irq) :
    p.asks irq ∧ irq < 16 ∧ irq ≠ cascade ∧ p.front.pending = some (line irq) := by
  rcases next_eq_some.mp h with ⟨hlt,hne,hfront⟩ | ⟨i,rfl,hfront,hslave⟩
  · obtain ⟨-,-,hasks,-⟩ := Chip.pending_eq_some.mp hfront
    rw [front_asks hne] at hasks
    refine ⟨?_,by omega,hne,?_⟩
    · rw [asks, if_pos hlt]
      exact hasks
    · rw [line, if_pos hlt]
      exact hfront
  · obtain ⟨-,hi,hasks,-⟩ := Chip.pending_eq_some.mp hslave
    obtain ⟨-,-,hopen,-⟩ := Chip.pending_eq_some.mp hfront
    rw [front_asks_cascade, hslave, Option.isSome_some, Bool.true_and] at hopen
    refine ⟨?_,by omega,by unfold cascade; omega,?_⟩
    · rw [asks, if_neg (by omega), Nat.add_sub_cancel_left, hasks, hopen]
      rfl
    · rw [line, if_neg (by omega)]
      exact hfront

/-! What the operations do to the registers. -/

theorem accept_master (hp : p.Programmed) (i : ℕ) :
    (p.accept irq).master.isr i ↔ i = line irq ∨ p.master.isr i := by
  unfold accept line
  split_ifs <;> simp [Chip.acknowledge, hp.masterEoi, Function.update_apply]

theorem accept_slave (hp : p.Programmed) (i : ℕ) :
    (p.accept irq).slave.isr i ↔ 8+i = irq ∨ p.slave.isr i := by
  unfold accept
  split_ifs with hlt
  · simp only [show ¬8+i = irq by omega, false_or]
  · simp [Chip.acknowledge, hp.slaveEoi, Function.update_apply, show i = irq-8 ↔ 8+i = irq by omega]

theorem finish_master (i : ℕ) :
    (p.finish irq).master.isr i ↔ i ≠ line irq ∧ p.master.isr i := by
  unfold finish line
  split_ifs <;> simp [Chip.finish, Function.update_apply]

theorem finish_slave (i : ℕ) : (p.finish irq).slave.isr i ↔ 8+i ≠ irq ∧ p.slave.isr i := by
  unfold finish
  split_ifs with hlt
  · simp only [show 8+i ≠ irq by omega, ne_eq, not_false_eq_true, true_and]
  · simp [Chip.finish, Function.update_apply, show i = irq-8 ↔ 8+i = irq by omega]

/-- The programming of the chips and their masks are as before. -/
structure Keeps (p p' : Pic) : Prop where
  master : p'.master.setup = p.master.setup
  slave : p'.slave.setup = p.slave.setup
  masterMask : p'.master.imr = p.master.imr
  slaveMask : p'.slave.imr = p.slave.imr

theorem raise_keeps (irq : ℕ) (p : Pic) : p.Keeps (p.raise irq) := by
  unfold raise
  split_ifs <;> exact ⟨rfl,rfl,rfl,rfl⟩

theorem accept_keeps (irq : ℕ) (p : Pic) : p.Keeps (p.accept irq) := by
  unfold accept
  split_ifs <;> exact ⟨rfl,rfl,rfl,rfl⟩

theorem finish_keeps (irq : ℕ) (p : Pic) : p.Keeps (p.finish irq) := by
  unfold finish
  split_ifs <;> exact ⟨rfl,rfl,rfl,rfl⟩

/-- A chip remembers what a device has asked until the processor takes it. -/
def requested (p : Pic) (irq : ℕ) : Bool :=
  if irq < 8 then p.master.irr irq else p.slave.irr (irq-8)

theorem requested_raise (q : ℕ) :
    (p.raise q).requested irq = (p.requested irq || decide (q = irq)) := by
  unfold requested raise
  split_ifs with hirq hq hq
  · simp only [Chip.raise, Function.update_apply, eq_comm (a := irq)]
    split_ifs with heq <;> simp [heq]
  · simp only [show q ≠ irq by omega, decide_false, Bool.or_false]
  · simp only [show q ≠ irq by omega, decide_false, Bool.or_false]
  · have hline : irq-8 = q-8 ↔ q = irq := by omega
    simp only [Chip.raise, Function.update_apply, hline]
    split_ifs with heq <;> simp [heq]

theorem requested_accept (hne : irq ≠ cascade) (q : ℕ) :
    (p.accept q).requested irq = (p.requested irq && decide (q ≠ irq)) := by
  unfold requested accept
  split_ifs with hirq hq hq
  · simp only [Chip.acknowledge, Function.update_apply, eq_comm (a := irq)]
    split_ifs with heq <;> simp [heq]
  · simp [Chip.acknowledge, Function.update_of_ne hne, show q ≠ irq by omega]
  · simp only [show q ≠ irq by omega, ne_eq, not_false_eq_true, decide_true, Bool.and_true]
  · have hline : irq-8 = q-8 ↔ q = irq := by omega
    simp only [Chip.acknowledge, Function.update_apply, hline]
    split_ifs with heq <;> simp [heq]

theorem requested_finish (q : ℕ) : (p.finish q).requested irq = p.requested irq := by
  unfold requested finish
  split_ifs <;> rfl

theorem raise_isr (q : ℕ) :
    (p.raise q).master.isr = p.master.isr ∧ (p.raise q).slave.isr = p.slave.isr := by
  unfold raise
  split_ifs <;> exact ⟨rfl,rfl⟩

namespace Serving

theorem idle (hmaster : p.master.isr = fun _ => false) (hslave : p.slave.isr = fun _ => false) :
    p.Serving [] where
  master i := by simp [hmaster]
  slave i := by simp [hslave]
  ranked := .nil

theorem congr (h : p.Serving handlers) {p' : Pic}
    (hisr : p'.master.isr = p.master.isr ∧ p'.slave.isr = p.slave.isr) : p'.Serving handlers where
  master i := by rw [hisr.1, h.master]
  slave i := by rw [hisr.2, h.slave]
  ranked := h.ranked

theorem line_inj (h : p.Serving handlers) {q : ℕ} (hirq : irq ∈ handlers) (hq : q ∈ handlers)
    (heq : line q = line irq) : q = irq :=
  List.inj_on_of_nodup_map (h.ranked.imp Nat.ne_of_lt) hq hirq heq

/-- The processor takes nothing of the rank of a handler at work, or below. -/
theorem above (h : p.Serving handlers) (hnext : p.next = some irq) {q : ℕ} (hq : q ∈ handlers) :
    line irq < line q := by
  obtain ⟨-,-,-,hfront⟩ := next_spec hnext
  obtain ⟨-,-,-,-,hfree⟩ := Chip.pending_eq_some.mp hfront
  by_contra hle
  have hbusy : p.master.isr (line q) := (h.master _).mpr (List.mem_map_of_mem hq)
  rw [show p.master.isr (line q) = false from hfree _ (by omega)] at hbusy
  exact Bool.false_ne_true hbusy

theorem accept (h : p.Serving handlers) (hp : p.Programmed) (hnext : p.next = some irq) :
    (p.accept irq).Serving (irq :: handlers) where
  master i := by rw [accept_master hp, h.master, List.map_cons, List.mem_cons]
  slave i := by rw [accept_slave hp, h.slave, List.mem_cons]
  ranked := by
    rw [List.map_cons, List.pairwise_cons]
    refine ⟨?_,h.ranked⟩
    intro i hi
    obtain ⟨q,hq,rfl⟩ := List.mem_map.mp hi
    exact h.above hnext hq

/-- A handler that reports its end leaves the others alone, in whatever order they do. Nothing
happens on a line that nobody serves. -/
theorem finish (h : p.Serving handlers) (hirq : irq ∈ handlers ∨ line irq ∉ handlers.map line) :
    (p.finish irq).Serving (handlers.filter (· ≠ irq)) where
  master i := by
    rw [finish_master, h.master, List.mem_map, List.mem_map]
    constructor
    · rintro ⟨hne,q,hq,rfl⟩
      refine ⟨q,List.mem_filter.mpr ⟨hq,decide_eq_true ?_⟩,rfl⟩
      rintro rfl
      exact hne rfl
    · rintro ⟨q,hq,rfl⟩
      obtain ⟨hq,hne⟩ := List.mem_filter.mp hq
      refine ⟨fun heq => ?_,q,hq,rfl⟩
      rcases hirq with hmem | hfree
      · exact of_decide_eq_true hne (h.line_inj hmem hq heq)
      · exact hfree (heq ▸ List.mem_map_of_mem hq)
  slave i := by
    rw [finish_slave, h.slave, List.mem_filter, and_comm, decide_eq_true_iff]
  ranked := h.ranked.sublist (List.filter_sublist.map line)

/-- A line that asks is held back by handlers of its rank or above only. -/
theorem exists_next (h : p.Serving handlers) (hp : p.Programmed) (hirq : irq < 16)
    (hne : irq ≠ cascade) (hasks : p.asks irq) (hfree : ∀ q ∈ handlers, line irq < line q) :
    ∃ q, p.next = some q ∧ line q ≤ line irq := by
  have hmaster : ∀ j ≤ line irq, p.front.isr j = false := by
    intro j hj
    change p.master.isr j = false
    by_contra hbusy
    obtain ⟨q,hq,heq⟩ := List.mem_map.mp ((h.master j).mp (by simpa using hbusy))
    have hlt := hfree q hq
    omega
  have hfront : p.front.asks (line irq) := by
    by_cases hlt : irq < 8
    · rw [line, if_pos hlt, front_asks hne]
      rwa [asks, if_pos hlt] at hasks
    · rw [asks, if_neg hlt, Bool.and_eq_true] at hasks
      have hslave : ∀ j ≤ irq-8, p.slave.isr j = false := by
        intro j hj
        by_contra hbusy
        have hmem := (h.slave j).mp (by simpa using hbusy)
        have hrank := hfree _ hmem
        rw [line, line, if_neg hlt, if_neg (by omega)] at hrank
        omega
      obtain ⟨j,-,hpending⟩ := Chip.exists_pending hp.slave (by omega) hasks.1 hslave
      rw [line, if_neg hlt, front_asks_cascade, hpending, hasks.2]
      rfl
  have hline : line irq < 8 := by
    unfold line cascade
    split_ifs <;> omega
  obtain ⟨i,hi,hpending⟩ := Chip.exists_pending (c := p.front) hp.master hline hfront hmaster
  by_cases hcascade : i = cascade
  · subst hcascade
    obtain ⟨-,-,hopen,-⟩ := Chip.pending_eq_some.mp hpending
    rw [front_asks_cascade, Bool.and_eq_true, Option.isSome_iff_exists] at hopen
    obtain ⟨⟨j,hj⟩,-⟩ := hopen
    refine ⟨8+j,next_eq_some.mpr (.inr ⟨j,rfl,hpending,hj⟩),?_⟩
    rw [line, if_neg (by omega)]
    exact hi
  · have hlt : i < 8 := by omega
    refine ⟨i,next_eq_some.mpr (.inl ⟨hlt,hcascade,hpending⟩),?_⟩
    rw [line, if_pos hlt]
    exact hi

end Serving
end Pic
end GameOfThreads.Machine
