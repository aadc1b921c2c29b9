import GameOfThreads.Wrappers
import GameOfThreads.ProcessInvariants

/-! PIT_handler on the stack of the context that it interrupts: what is on it when the handler
gives the processor away, and what comes of loading the stack registers again. -/
namespace GameOfThreads
open Machine Processor

def kernelDs : ℕ := 0x0018

/-- Code between two changes of the stack registers. It may use the function's own variables,
and the stack `depth` bytes further down. -/
structure WithinFrame (depth : ℕ) (s s' : Processor) : Prop where
  esp : s'.esp = s.esp
  ebp : s'.ebp = s.ebp
  segments : (s'.cs,s'.ss) = (s.cs,s.ss)
  words : ∀ a, s.ebp ≤ a ∨ a+depth < s.esp → s'.words a = s.words a

/-- What the compiler makes of PIT_handler: a function with its frame in ebp, and the code
before the stack registers are stored, after they are loaded, and of the early return. -/
structure TimerCode where
  gate : Entrance
  returnAddress : ℕ
  locals : ℕ
  depth : ℕ
  before : Kernel → Processor → Processor
  after : Kernel → Processor → Processor
  early : Kernel → Processor → Processor
  ring : gate.selector % 4 = 0
  before_inside : ∀ k s, WithinFrame depth s (before k s)
  after_inside : ∀ k s, WithinFrame depth s (after k s)
  early_inside : ∀ k s, WithinFrame depth s (early k s)

namespace TimerCode
variable (c : TimerCode)

def enter (k : Kernel) (t : Processor) : Processor :=
  let t := t.push t.ebp
  c.before k { t with ebp := t.esp, esp := t.esp-c.locals }

/-- PIT_handler up to its return. -/
def handler (k : Kernel) (t : Processor) : Kernel × Processor :=
  let s := c.enter k t
  let r := pitHandler ⟨s.esp,s.ebp,fun _ => 0⟩ k
  match r.1 with
  | .switched esp ebp => (r.2,(c.after r.2 { s with esp := esp, ebp := ebp }).leave)
  | _ => (r.2,(c.early r.2 s).leave)

/-- PIT_ASM_wrapper from the interrupt on. A stack that came from elsewhere leads elsewhere. -/
def tick (k : Kernel) (s : Processor) : Kernel × Processor :=
  let s := s.interrupt c.gate k.tssEsp0 kernelDs
  let s := s.pushal
  let s := s.push s.eflags
  let r := c.handler k (s.push c.returnAddress)
  let s := r.2.ret
  (r.1,if s.eip = c.returnAddress then s.popfl.popal.iret else s)

/-- The processor when PIT_handler stores the stack registers. -/
def opened (k : Kernel) (s : Processor) : Processor :=
  let b := s.interrupt c.gate k.tssEsp0 kernelDs
  c.enter k ((b.pushal.push b.pushal.eflags).push c.returnAddress)

def capture (k : Kernel) (s : Processor) : Cpu :=
  ⟨(c.opened k s).esp,(c.opened k s).ebp,fun _ => 0⟩

/-- The way from PIT_handler back. -/
def finish (s : Processor) : Processor :=
  if s.leave.ret.eip = c.returnAddress then s.leave.ret.popfl.popal.iret else s.leave.ret

/-- The stack that a tick needs. -/
def need : ℕ := 64+c.locals+c.depth

end TimerCode

/-- The words on the stack of PIT_handler over the interrupted context `s`, which `b` is after the
interrupt. -/
def parked (returnAddress : ℕ) (s b : Processor) : List ℕ :=
  b.ebp :: returnAddress :: b.eflags :: registers b ++ s.frame

/-- A context of process `p` that can be interrupted: it is in ring 0 or 3, and there is room on
its kernel stack. -/
structure Interruptible (c : TimerCode) (p : ℕ) (s : Processor) : Prop where
  ring : s.cs % 4 = 0 ∨ s.cs % 4 = 3
  inner : s.cs % 4 = 0 → s.ss = kernelDs
  room : getPcbAddr p+pcbSize+c.need ≤ s.stackTop (getEsp0 p)
  top : s.stackTop (getEsp0 p) ≤ getEsp0 p

/-- The context `s` of process `p` under a call of PIT_handler, in words that may be the memory of
another moment. -/
structure Saved (c : TimerCode) (p : ℕ) (s : Processor) (esp ebp : ℕ) (words : ℕ → ℕ) : Prop where
  esp : esp+c.locals = ebp
  base : ebp+44+4*s.frame.length = s.stackTop (getEsp0 p)
  stacked : ∃ b, Interrupted (s.stackTop (getEsp0 p)) s b ∧
    { b with esp := ebp, words := words }.Stacked (parked c.returnAddress s b)
  live : ∀ a ∈ stackRegion p, s.stackTop (getEsp0 p) ≤ a → words a = s.words a

/-- The context of process `p` goes on as another one was left: with its registers, but for the
data segments, and with its stack. -/
structure Same (p : ℕ) (s s' : Processor) : Prop where
  registers : s' = { s with
    ds := s'.ds, es := s'.es, fs := s'.fs, gs := s'.gs, words := s'.words }
  words : ∀ a ∈ stackRegion p, s.stackTop (getEsp0 p) ≤ a → s'.words a = s.words a

/-- Stack registers that other code than PIT_handler has stored: the return leads elsewhere, with
room on the kernel stack. -/
structure Away (c : TimerCode) (p esp ebp : ℕ) (words : ℕ → ℕ) : Prop where
  low : getPcbAddr p+pcbSize+c.depth ≤ esp
  frame : esp ≤ ebp
  room : getPcbAddr p+pcbSize+c.need ≤ ebp+8
  top : ebp+8 ≤ getEsp0 p
  elsewhere : words (ebp+4) ≠ c.returnAddress

/-- A process that is known to have been in some context goes on there. -/
def Continues (p : ℕ) (known : Option Processor) (s : Processor) : Prop :=
  ∀ s', known = some s' → Same p s' s

/-- What the stack registers of a process that waits lead to. -/
def Held (c : TimerCode) (known : Option Processor) (p esp ebp : ℕ) (words : ℕ → ℕ) : Prop :=
  (∃ s, Interruptible c p s ∧ Saved c p s esp ebp words ∧ Continues p known s) ∨
    known = none ∧ Away c p esp ebp words

theorem Same.refl (p : ℕ) (s : Processor) : Same p s s := ⟨rfl,fun _ _ _ => rfl⟩

theorem Same.stackTop {p : ℕ} {s s' : Processor} (h : Same p s s') (esp0 : ℕ) :
    s'.stackTop esp0 = s.stackTop esp0 := by
  rw [h.registers]
  rfl

theorem Same.trans {p : ℕ} {s s' s'' : Processor} (h : Same p s s') (h' : Same p s' s'') :
    Same p s s'' where
  registers := by
    rw [h'.registers, h.registers]
  words a ha htop := (h'.words a ha (h.stackTop _ ▸ htop)).trans (h.words a ha htop)

theorem Same.fits {c : TimerCode} {p : ℕ} {s s' : Processor} (h : Same p s s')
    (hs : Interruptible c p s) : Interruptible c p s' := by
  have hcs : s'.cs = s.cs := by rw [h.registers]
  have hss : s'.ss = s.ss := by rw [h.registers]
  exact ⟨hcs ▸ hs.ring,fun hring => hss.trans (hs.inner (hcs ▸ hring)),h.stackTop _ ▸ hs.room,
    h.stackTop _ ▸ hs.top⟩

section
variable {c : TimerCode} {k : Kernel} {p : ℕ} {s b : Processor}

/-- Everything on the stack is pushed one after the other. -/
theorem enter_eq (b : Processor) (l : List ℕ)
    (hl : l = b.ebp :: c.returnAddress :: b.eflags :: registers b) :
    c.enter k ((b.pushal.push b.pushal.eflags).push c.returnAddress) =
      c.before k { b.pushes l with
        ebp := (b.pushes l).esp, esp := (b.pushes l).esp-c.locals } := by
  have hframe : (b.pushal.push b.pushal.eflags).push c.returnAddress =
      b.pushes (c.returnAddress :: b.eflags :: registers b) := by
    rw [saved_eq]
    rfl
  have hebp : (b.pushes (c.returnAddress :: b.eflags :: registers b)).ebp = b.ebp := by
    rw [pushes_rest]
  rw [TimerCode.enter, hframe, hebp, ← pushes_cons, ← hl]

/-- The handler's frame, when it stores the stack registers. -/
theorem enter_spec (hs : Interruptible c p s) (hb : b = s.interrupt c.gate (getEsp0 p) kernelDs)
    {e : Processor} (he : e = c.enter k ((b.pushal.push b.pushal.eflags).push c.returnAddress)) :
    Saved c p s e.esp e.ebp e.words ∧
      (∀ a, s.stackTop (getEsp0 p) ≤ a ∨ a+c.need < s.stackTop (getEsp0 p) →
        e.words a = s.words a) ∧
      (e.cs,e.ss) = (b.cs,b.ss) := by
  have hroom := hs.room
  unfold TimerCode.need at *
  have hinterrupted : Interrupted (s.stackTop (getEsp0 p)) s b :=
    hb ▸ interrupt_interrupted s c.ring kernelDs (by omega)
  have hbwords : ∀ a, s.stackTop (getEsp0 p) ≤ a ∨ a < s.stackTop (getEsp0 p)-4*s.frame.length →
      b.words a = s.words a :=
    fun a ha => hb ▸ interrupt_words c.gate kernelDs (by omega) ha
  have hbase := hinterrupted.esp
  have hlength := (frame_length (s := s)).1
  obtain ⟨l,hl⟩ : ∃ l, l = b.ebp :: c.returnAddress :: b.eflags :: registers b := ⟨_,rfl⟩
  have hcount : 4*l.length = 44 := hl ▸ rfl
  have hstacked : (b.pushes l).Stacked (l ++ s.frame) :=
    pushes_stacked hinterrupted.frame (by omega)
  have hesp := pushes_esp b l
  have hwords : ∀ a, b.esp ≤ a ∨ a < b.esp-4*l.length → (b.pushes l).words a = b.words a :=
    fun a ha => pushes_words (by omega) ha
  have hsegments : ((b.pushes l).cs,(b.pushes l).ss) = (b.cs,b.ss) := by
    rw [pushes_rest]
  have hinside := c.before_inside k { b.pushes l with
      ebp := (b.pushes l).esp, esp := (b.pushes l).esp-c.locals }
  rw [enter_eq b l hl] at he
  rw [← he] at hinside
  generalize b.pushes l = v at *
  have heesp : e.esp = v.esp-c.locals := hinside.esp
  have heebp : e.ebp = v.esp := hinside.ebp
  have hewords : ∀ a, v.esp ≤ a ∨ a+c.depth < v.esp-c.locals → e.words a = v.words a :=
    hinside.words
  have hall : ∀ a, s.stackTop (getEsp0 p) ≤ a ∨
      a+(64+c.locals+c.depth) < s.stackTop (getEsp0 p) → e.words a = s.words a := by
    intro a ha
    rw [hewords a (by omega), hwords a (by omega), hbwords a (by omega)]
  refine ⟨⟨by omega,by omega,⟨b,hinterrupted,?_⟩,fun a _ ha => hall a (.inl ha)⟩,hall,
    hinside.segments.trans hsegments⟩
  have hlist : parked c.returnAddress s b = l ++ s.frame := hl ▸ rfl
  rw [hlist]
  intro i hi
  have hword := hstacked i hi
  rw [← hewords _ (.inl (by omega)), ← heebp] at hword
  exact hword

/-- The stack of the handler after the code that is left of it. -/
theorem Saved.stays {u v : Processor} (h : Saved c p s u.esp u.ebp u.words)
    (hv : WithinFrame c.depth u v) : Saved c p s v.esp v.ebp v.words := by
  have hwords : ∀ a, u.ebp ≤ a → v.words a = u.words a := fun a ha => hv.words a (.inl ha)
  have hbase := h.base
  obtain ⟨b,hb,hstacked⟩ := h.stacked
  rw [hv.esp, hv.ebp]
  refine ⟨h.esp,hbase,⟨b,hb,?_⟩,?_⟩
  · intro i hi
    have hword := hstacked i hi
    rw [← hwords _ (Nat.le_add_right ..)] at hword
    exact hword
  · intro a ha htop
    rw [hwords a (by omega), h.live a ha htop]

/-- From the end of PIT_handler on, the interrupted context goes on. -/
theorem Saved.returns {v : Processor} (h : Saved c p s v.esp v.ebp v.words)
    (hs : Interruptible c p s) (hring : v.cs % 4 = 0) (hss : v.ss = kernelDs) :
    v.leave.ret.eip = c.returnAddress ∧
      v.leave.ret.popfl.popal.iret = { s with
        ds := v.ds, es := v.es, fs := v.fs, gs := v.gs, words := v.words } := by
  have hbase := h.base
  obtain ⟨b,hb,hstacked⟩ := h.stacked
  have hebp : v.words v.ebp = b.ebp := hstacked.top
  have heip : v.words (v.ebp+4) = c.returnAddress := hstacked.drop.top
  have hrest : v.leave.ret.Stacked (b.eflags :: registers b ++ s.frame) :=
    Stacked.after (l := [b.ebp,c.returnAddress]) hstacked rfl rfl
  refine ⟨heip,?_⟩
  have hfields := hb.fields
  simp only [Prod.mk.injEq] at hfields
  obtain ⟨heax,hecx,hedx,hebx,hebp',hesi,hedi,-,-,-,-⟩ := hfields
  have hback : (if s.cs % 4 = 3 then s.esp else v.ebp+8+48) = s.esp ∧
      (if s.cs % 4 = 3 then s.ss else v.ss) = s.ss := by
    split_ifs with houter
    · exact ⟨rfl,rfl⟩
    · have hinner := hs.ring.resolve_right houter
      have hlength := (frame_length (s := s)).2 houter
      rw [stackTop, if_neg houter] at hbase
      exact ⟨by omega,hss.trans (hs.inner hinner).symm⟩
  rw [restored_eq hrest hring hs.ring, leave_ret]
  dsimp only
  rw [hback.1, hback.2, heax, hecx, hedx, hebx, hebp', hesi, hedi]

theorem tick_quiet (hout : (pitHandler (c.capture k s) k).1 = .quiet) :
    c.tick k s = ((pitHandler (c.capture k s) k).2,
      c.finish (c.early (pitHandler (c.capture k s) k).2 (c.opened k s))) := by
  simp only [TimerCode.capture, TimerCode.opened] at hout ⊢
  simp only [TimerCode.tick, TimerCode.handler, TimerCode.finish, hout]

theorem tick_switched {esp ebp : ℕ}
    (hout : (pitHandler (c.capture k s) k).1 = .switched esp ebp) :
    c.tick k s = ((pitHandler (c.capture k s) k).2,
      c.finish (c.after (pitHandler (c.capture k s) k).2
        { c.opened k s with esp := esp, ebp := ebp })) := by
  simp only [TimerCode.capture, TimerCode.opened] at hout ⊢
  simp only [TimerCode.tick, TimerCode.handler, TimerCode.finish, hout]

theorem Interruptible.saved_place (hs : Interruptible c p s) {esp ebp : ℕ} {words : ℕ → ℕ}
    (h : Saved c p s esp ebp words) : getPcbAddr p+pcbSize+c.depth ≤ esp ∧ esp ≤ ebp ∧
      ebp+44+4*s.frame.length ≤ getEsp0 p := by
  have hroom := hs.room
  have htop := hs.top
  have hesp := h.esp
  have hbase := h.base
  have hlength := (frame_length (s := s)).1
  unfold TimerCode.need at hroom
  omega

/-- The stack of a waiting process is in its own region. -/
theorem Saved.keeps {esp ebp : ℕ} {words words' : ℕ → ℕ} (h : Saved c p s esp ebp words)
    (hs : Interruptible c p s) (hwords : ∀ a ∈ stackRegion p, words' a = words a) :
    Saved c p s esp ebp words' := by
  obtain ⟨hlow,hframe,htop⟩ := hs.saved_place h
  obtain ⟨b,hb,hstacked⟩ := h.stacked
  refine ⟨h.esp,h.base,⟨b,hb,?_⟩,fun a ha hlive => (hwords a ha).trans (h.live a ha hlive)⟩
  intro i hi
  have hcount : (parked c.returnAddress s b).length = 11+s.frame.length := by
    simp only [parked, registers, List.length_cons, List.length_append, List.length_nil]
  refine (hwords (ebp+4*i) ⟨?_,?_⟩).trans (hstacked i hi)
  · omega
  · omega

section
variable {known : Option Processor} {esp ebp : ℕ} {words words' : ℕ → ℕ}

theorem Held.keeps (h : Held c known p esp ebp words)
    (hwords : ∀ a ∈ stackRegion p, words' a = words a) : Held c known p esp ebp words' := by
  rcases h with ⟨s,hs,hsaved,hknown⟩ | ⟨hknown,h⟩
  · exact .inl ⟨s,hs,hsaved.keeps hs hwords,hknown⟩
  · refine .inr ⟨hknown,h.low,h.frame,h.room,h.top,?_⟩
    rw [hwords (ebp+4) ⟨?_,?_⟩]
    · exact h.elsewhere
    · have := h.low
      have := h.frame
      omega
    · have := h.top
      omega

theorem Held.place (h : Held c known p esp ebp words) :
    getPcbAddr p+pcbSize+c.depth ≤ esp ∧ esp ≤ ebp ∧ ebp ≤ getEsp0 p := by
  rcases h with ⟨s,hs,hsaved,-⟩ | ⟨-,h⟩
  · obtain ⟨hlow,hframe,htop⟩ := hs.saved_place hsaved
    exact ⟨hlow,hframe,by omega⟩
  · exact ⟨h.low,h.frame,Nat.le_trans (Nat.le_add_right ..) h.top⟩

theorem Held.stays {u v : Processor} (h : Held c known p u.esp u.ebp u.words)
    (hv : WithinFrame c.depth u v) : Held c known p v.esp v.ebp v.words := by
  rcases h with ⟨s,hs,hsaved,hknown⟩ | ⟨hknown,h⟩
  · exact .inl ⟨s,hs,hsaved.stays hv,hknown⟩
  · rw [hv.esp, hv.ebp]
    refine .inr ⟨hknown,h.low,h.frame,h.room,h.top,?_⟩
    rw [hv.words _ (.inl (Nat.le_add_right ..))]
    exact h.elsewhere

/-- The process goes on, and its next tick finds room again. -/
theorem Held.finish {v : Processor} (h : Held c known p v.esp v.ebp v.words)
    (hring : v.cs % 4 = 0) (hss : v.ss = kernelDs) : Interruptible c p (c.finish v) ∧
      Continues p known (c.finish v) ∧ (c.finish v).words = v.words := by
  rcases h with ⟨s,hs,hsaved,hknown⟩ | ⟨hknown,h⟩
  · obtain ⟨heip,hback⟩ := hsaved.returns hs hring hss
    have hfinish : c.finish v = { s with
        ds := v.ds, es := v.es, fs := v.fs, gs := v.gs, words := v.words } :=
      (if_pos heip).trans hback
    have hsame : Same p s (c.finish v) := by
      rw [hfinish]
      exact ⟨rfl,hsaved.live⟩
    refine ⟨hsame.fits hs,fun s' hs' => (hknown s' hs').trans hsame,?_⟩
    rw [hfinish]
  · have hfinish : c.finish v = v.leave.ret := if_neg h.elsewhere
    have htop : (c.finish v).stackTop (getEsp0 p) = v.ebp+8 := by
      rw [hfinish, leave_ret, stackTop, if_neg (by dsimp only; omega)]
    refine ⟨⟨.inl ?_,fun _ => ?_,?_,?_⟩,?_,?_⟩
    · rw [hfinish]
      exact hring
    · rw [hfinish]
      exact hss
    · rw [htop]
      exact h.room
    · rw [htop]
      exact h.top
    · rintro s' hs'
      rw [hknown] at hs'
      cases hs'
    · rw [hfinish]
      rfl

/-- From loaded stack registers on. -/
theorem Held.resume {u v : Processor} (h : Held c known p u.esp u.ebp u.words)
    (hv : WithinFrame c.depth u v) (hring : u.cs % 4 = 0) (hss : u.ss = kernelDs) :
    Interruptible c p (c.finish v) ∧ Continues p known (c.finish v) ∧
      ∀ a, a ∉ stackRegion p → (c.finish v).words a = u.words a := by
  obtain ⟨hlow,hframe,htop⟩ := h.place
  have hsegments := hv.segments
  simp only [Prod.mk.injEq] at hsegments
  obtain ⟨hfits,hcontinues,hwords⟩ := (h.stays hv).finish (hsegments.1 ▸ hring)
    (hsegments.2.trans hss)
  refine ⟨hfits,hcontinues,?_⟩
  intro a ha
  rw [stackRegion, Set.mem_Ico] at ha
  rw [hwords, hv.words a (by omega)]

end

/-- The processor when the stack registers are stored: the interrupted context is under the
handler, and the rest of memory is as it was. -/
theorem opened_spec (hs : Interruptible c p s) (htss : k.tssEsp0 = getEsp0 p) :
    Saved c p s (c.opened k s).esp (c.opened k s).ebp (c.opened k s).words ∧
      (∀ a, a ∉ stackRegion p → (c.opened k s).words a = s.words a) ∧
      (c.opened k s).cs % 4 = 0 ∧ (c.opened k s).ss = kernelDs := by
  have hroom := hs.room
  have htop := hs.top
  have hentry := interrupt_eq s c.gate (getEsp0 p) kernelDs
  have hopened : c.opened k s = c.enter k
      (((s.interrupt c.gate (getEsp0 p) kernelDs).pushal.push
        (s.interrupt c.gate (getEsp0 p) kernelDs).pushal.eflags).push c.returnAddress) := by
    rw [TimerCode.opened, htss]
  obtain ⟨hsaved,hwords,hsegments⟩ := enter_spec hs rfl hopened
  simp only [Prod.mk.injEq] at hsegments
  refine ⟨hsaved,?_,?_,?_⟩
  · intro a ha
    rw [stackRegion, Set.mem_Ico] at ha
    exact hwords a (by omega)
  · rw [hsegments.1, hentry]
    exact c.ring
  · rw [hsegments.2, hentry]
    dsimp only
    split_ifs with houter
    · rfl
    · exact hs.inner (hs.ring.resolve_right houter)

theorem Continues.refl (p : ℕ) (s : Processor) : Continues p (some s) s := by
  rintro s' hs'
  cases hs'
  exact Same.refl p s

/-- A tick that finds no other terminal. -/
theorem tick_stays (hs : Interruptible c p s) (htss : k.tssEsp0 = getEsp0 p)
    (hout : (pitHandler (c.capture k s) k).1 = .quiet) :
    Interruptible c p (c.tick k s).2 ∧ Same p s (c.tick k s).2 ∧
      ∀ a, a ∉ stackRegion p → (c.tick k s).2.words a = s.words a := by
  obtain ⟨hsaved,hwords,hring,hss⟩ := opened_spec hs htss
  have hheld : Held c (some s) p (c.opened k s).esp (c.opened k s).ebp (c.opened k s).words :=
    .inl ⟨s,hs,hsaved,Continues.refl p s⟩
  rw [tick_quiet hout]
  obtain ⟨hfits,hcontinues,hrest⟩ := hheld.resume
    (c.early_inside (pitHandler (c.capture k s) k).2 (c.opened k s)) hring hss
  exact ⟨hfits,hcontinues s rfl,fun a ha => (hrest a ha).trans (hwords a ha)⟩

theorem stackRegion_other {q a : ℕ} (hp : p < maxNumProc) (hq : q < maxNumProc) (hne : p ≠ q)
    (ha : a ∈ stackRegion q) : a ∉ stackRegion p :=
  fun ha' => Set.disjoint_left.mp ((kernel_regions hp hq).2 hne).2 ha' ha

/-- A tick that brings another process: it goes on, and the one that was interrupted is held. -/
theorem tick_moves {q : ℕ} (hs : Interruptible c p s) (htss : k.tssEsp0 = getEsp0 p)
    {esp ebp : ℕ} (hout : (pitHandler (c.capture k s) k).1 = .switched esp ebp)
    (hp : p < maxNumProc) (hq : q < maxNumProc) (hne : p ≠ q) {known known' : Option Processor}
    (hheld : Held c known q esp ebp s.words) (hknown' : Continues p known' s) :
    Interruptible c q (c.tick k s).2 ∧ Continues q known (c.tick k s).2 ∧
      Held c known' p (c.capture k s).esp (c.capture k s).ebp (c.tick k s).2.words ∧
      ∀ a, a ∉ stackRegion p → a ∉ stackRegion q → (c.tick k s).2.words a = s.words a := by
  obtain ⟨hsaved,hwords,hring,hss⟩ := opened_spec hs htss
  rw [tick_switched hout]
  obtain ⟨hfits,hcontinues,hrest⟩ := Held.resume
    (u := { c.opened k s with esp := esp, ebp := ebp })
    (hheld.keeps fun a ha => hwords a (stackRegion_other hp hq hne ha))
    (c.after_inside (pitHandler (c.capture k s) k).2 _) hring hss
  refine ⟨hfits,hcontinues,.inl ⟨s,hs,hsaved.keeps hs ?_,hknown'⟩,?_⟩
  · exact fun a ha => hrest a (stackRegion_other hq hp hne.symm ha)
  · exact fun a ha ha' => (hrest a ha').trans (hwords a ha)

end
end GameOfThreads
