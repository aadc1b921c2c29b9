import GameOfThreads.Machine.Processor
import GameOfThreads.Machine.Word

/-! The assembly around the handlers: what the wrappers of interrupts and the entry of system
calls store, and that the interrupted context gets its registers back. -/
namespace GameOfThreads
open Machine Processor

/-! ### The code of Wrappers.S -/

/-- The macro HANDLER. -/
def handlerWrapper (fn : Processor → Processor) (returnAddress : ℕ) (s : Processor) : Processor :=
  let s := s.pushal
  let s := s.push s.eflags
  let s := s.call returnAddress fn
  s.popfl.popal.iret

/-- What sys_call_handler stores: the first words are the arguments of the call. -/
def callFrame (s : Processor) : List ℕ :=
  [s.ebx,s.ecx,s.edx,s.esi,s.edi,s.ebp,s.gs,s.fs,s.es,s.ds,s.eflags]

/-- The comparisons of eax are signed ones. -/
def InTable (eax : ℕ) : Prop := ¬(i32 eax < 1 ∨ i32 eax > 8)

instance (eax : ℕ) : Decidable (InTable eax) := inferInstanceAs (Decidable (¬(_ ∨ _)))

/-- From end_int on. -/
def endInt (s : Processor) : Processor :=
  let s := { s.drop with ebx := s.top }
  let s := { s.drop with ecx := s.top }
  let s := { s.drop with edx := s.top }
  let s := { s.drop with esi := s.top }
  let s := { s.drop with edi := s.top }
  let s := { s.drop with ebp := s.top }
  let s := { s.drop with gs := s.top }
  let s := { s.drop with fs := s.top }
  let s := { s.drop with es := s.top }
  let s := { s.drop with ds := s.top }
  s.popfl.iret

def sysCallHandler (table : ℕ → Processor → Processor) (returnAddress : ℕ) (s : Processor) :
    Processor :=
  let s := s.pushes (callFrame s)
  let s := if InTable s.eax then s.call returnAddress (table s.eax)
    else { s with eax := 0xFFFFFFFF }
  endInt s

/-! ### What a C function leaves alone -/

/-- A function with `n` words of arguments over its return address: these are its own, but not
what is above them. It may load the data segments, as the string routines do. -/
structure Callee (n : ℕ) (s s' : Processor) : Prop where
  esp : s'.esp = s.esp
  back : s'.words s.esp = s.words s.esp
  words : ∀ a, s.esp+4*n+4 ≤ a → s'.words a = s.words a
  segments : (s'.cs,s'.ss) = (s.cs,s.ss)

section
variable {s : Processor} {n : ℕ} {f : Processor → Processor} {returnAddress : ℕ}

/-- After a call the stack is where it was, and as it was above the arguments. -/
theorem call_spec (hf : Callee n (s.push returnAddress) (f (s.push returnAddress)))
    (hroom : 4 ≤ s.esp) : (s.call returnAddress f).esp = s.esp ∧
      (s.call returnAddress f).eip = returnAddress ∧
      (∀ a, s.esp+4*n ≤ a → (s.call returnAddress f).words a = s.words a) ∧
      ((s.call returnAddress f).cs,(s.call returnAddress f).ss) = (s.cs,s.ss) := by
  have hesp : (s.push returnAddress).esp = s.esp-4 := rfl
  refine ⟨?_,?_,?_,hf.segments⟩
  · change (f (s.push returnAddress)).esp+4 = s.esp
    rw [hf.esp, hesp]
    omega
  · change (f (s.push returnAddress)).words (f (s.push returnAddress)).esp = returnAddress
    rw [hf.esp, hf.back]
    exact Function.update_self ..
  · intro a ha
    change (f (s.push returnAddress)).words a = s.words a
    rw [hf.words a (by omega)]
    exact Function.update_of_ne (by omega) _ _

end

/-- The words of pushal. -/
def registers (s : Processor) : List ℕ :=
  [s.edi,s.esi,s.ebp,s.esp,s.ebx,s.edx,s.ecx,s.eax]

section
variable {s : Processor} {l : List ℕ}

/-- A wrapper up to its call. -/
theorem saved_eq (s : Processor) :
    s.pushal.push s.pushal.eflags = s.pushes (s.eflags :: registers s) := by
  have hflags : s.pushal.eflags = s.eflags := by rw [pushal, pushes_eq]
  rw [hflags]
  rfl

/-- A wrapper from its call on. -/
theorem restored_eq {t old : Processor} {flags : ℕ}
    (h : t.Stacked (flags :: registers s ++ old.frame)) (hring : t.cs % 4 = 0)
    (hold : old.cs % 4 = 0 ∨ old.cs % 4 = 3) : t.popfl.popal.iret =
      { t with
        edi := s.edi, esi := s.esi, ebp := s.ebp, ebx := s.ebx, edx := s.edx, ecx := s.ecx
        eax := s.eax, eip := old.eip, cs := old.cs, eflags := old.eflags
        esp := if old.cs % 4 = 3 then old.esp else t.esp+48
        ss := if old.cs % 4 = 3 then old.ss else t.ss } := by
  have hflags := popfl_eq h
  have hregisters : t.popfl.Stacked (registers s ++ old.frame) := by
    rw [hflags]
    exact h.drop
  have hall := popal_eq hregisters
  have hframe : t.popfl.popal.Stacked (old.frame ++ []) := by
    rw [hall, List.append_nil]
    exact hregisters.after rfl rfl
  have hcs : t.popfl.popal.cs % 4 = 0 := by
    rw [hall, hflags]
    exact hring
  rw [iret_eq hframe hcs hold, hall, hflags]

/-- The frame of an interrupt, the registers on it, and a call from there: the stack that the
wrapper comes back to. -/
theorem called_stacked {f : Processor → Processor} (returnAddress : ℕ)
    (hf : ∀ t, Callee 0 t (f t)) (hl : s.Stacked l) (hroom : 40 ≤ s.esp) :
    let t := (s.pushal.push s.pushal.eflags).call returnAddress f
    t.Stacked (s.eflags :: registers s ++ l) ∧ t.esp+36 = s.esp ∧
      (∀ a, s.esp ≤ a → t.words a = s.words a) ∧
      (t.cs,t.ss) = (s.cs,s.ss) := by
  intro t
  have hspace : 4*(s.eflags :: registers s).length ≤ s.esp :=
    Nat.le_trans (by decide : 36 ≤ 40) hroom
  have hsaved : (s.pushes (s.eflags :: registers s)).Stacked (s.eflags :: registers s ++ l) :=
    pushes_stacked hl hspace
  have hesp : (s.pushes (s.eflags :: registers s)).esp = s.esp-36 := pushes_esp s _
  have habove : ∀ a, s.esp ≤ a → (s.pushes (s.eflags :: registers s)).words a = s.words a :=
    fun _ ha => pushes_words hspace (.inl ha)
  have hsegments := congrArg (fun u : Processor => (u.cs,u.ss))
    (pushes_eq s (s.eflags :: registers s))
  have hsame := saved_eq s
  have ht : t = (s.pushes (s.eflags :: registers s)).call returnAddress f :=
    congrArg (fun u => call u returnAddress f) hsame
  rw [ht]
  generalize s.pushes (s.eflags :: registers s) = c at *
  obtain ⟨htesp,-,hwords,htsegments⟩ := call_spec (s := c) (n := 0) (hf (c.push returnAddress))
    (by omega)
  refine ⟨hsaved.above ⟨htesp,fun a ha => hwords a (by omega)⟩,by omega,?_,?_⟩
  · exact fun a ha => (hwords a (by omega)).trans (habove a ha)
  · exact htsegments.trans hsegments

end

/-- `b` is in ring 0 with the frame of the interrupted context `s` on a stack that begins at
`base`. -/
structure Interrupted (base : ℕ) (s b : Processor) : Prop where
  ring : b.cs % 4 = 0
  frame : b.Stacked s.frame
  esp : b.esp+4*s.frame.length = base
  inner : s.cs % 4 ≠ 3 → s.esp = base ∧ b.ss = s.ss
  words : ∀ a, base ≤ a → b.words a = s.words a
  fields : (b.eax,b.ecx,b.edx,b.ebx,b.ebp,b.esi,b.edi,b.ds,b.es,b.fs,b.gs) =
    (s.eax,s.ecx,s.edx,s.ebx,s.ebp,s.esi,s.edi,s.ds,s.es,s.fs,s.gs)

theorem interrupt_interrupted (s : Processor) {gate : Entrance} (hgate : gate.selector % 4 = 0)
    {esp0 : ℕ} (ss0 : ℕ) (hroom : 20 ≤ s.stackTop esp0) :
    Interrupted (s.stackTop esp0) s (s.interrupt gate esp0 ss0) := by
  have hlength := frame_length (s := s)
  have hentry := interrupt_eq s gate esp0 ss0
  have hesp : (s.interrupt gate esp0 ss0).esp = s.stackTop esp0-4*s.frame.length :=
    congrArg Processor.esp hentry
  refine ⟨?_,interrupt_stacked gate ss0 hroom,by omega,?_,?_,?_⟩
  · rw [hentry]
    exact hgate
  · intro hinner
    rw [stackTop, if_neg hinner, hentry]
    exact ⟨rfl,if_neg hinner⟩
  · exact fun a ha => interrupt_words gate ss0 hroom (.inl ha)
  · rw [hentry]

section
variable {base : ℕ} {s b : Processor}

/-- The stack that the return from an interrupt leaves. -/
theorem Interrupted.back (h : Interrupted base s b) {esp ss : ℕ}
    (hesp : esp = b.esp+12) (hss : ss = b.ss) :
    (if s.cs % 4 = 3 then s.esp else esp) = s.esp ∧ (if s.cs % 4 = 3 then s.ss else ss) = s.ss := by
  split_ifs with houter
  · exact ⟨rfl,rfl⟩
  · obtain ⟨hbase,hsame⟩ := h.inner houter
    have hlength := (frame_length (s := s)).2 houter
    have hplace := h.esp
    exact ⟨by omega,hss.trans hsame⟩

/-- Whatever a handler does to the registers and below its frame, the context that was
interrupted goes on with its flags and all its registers but the data segments, and with its
stack. -/
theorem handlerWrapper_returns (h : Interrupted base s b) {fn : Processor → Processor}
    (hfn : ∀ t, Callee 0 t (fn t)) (returnAddress : ℕ) (hring : s.cs % 4 = 0 ∨ s.cs % 4 = 3)
    (hroom : 60 ≤ base) :
    handlerWrapper fn returnAddress b = { s with
        ds := (handlerWrapper fn returnAddress b).ds, es := (handlerWrapper fn returnAddress b).es
        fs := (handlerWrapper fn returnAddress b).fs, gs := (handlerWrapper fn returnAddress b).gs
        words := (handlerWrapper fn returnAddress b).words } ∧
      ∀ a, base ≤ a → (handlerWrapper fn returnAddress b).words a = s.words a := by
  have hlength := (frame_length (s := s)).1
  have hbase := h.esp
  obtain ⟨hstacked,hesp,hwords,hsegments⟩ := called_stacked returnAddress hfn h.frame
    (by omega)
  rw [handlerWrapper]
  generalize (b.pushal.push b.pushal.eflags).call returnAddress fn = c at *
  have hfields := h.fields
  simp only [Prod.mk.injEq] at hsegments hfields
  obtain ⟨hcs,hss⟩ := hsegments
  obtain ⟨heax,hecx,hedx,hebx,hebp,hesi,hedi,-,-,-,-⟩ := hfields
  obtain ⟨hback,hback'⟩ := h.back (show c.esp+48 = b.esp+12 by omega) hss
  rw [restored_eq hstacked (by rw [hcs]; exact h.ring) hring]
  refine ⟨?_,fun a ha => (hwords a (by omega)).trans (h.words a ha)⟩
  rw [hback, hback', heax, hecx, hedx, hebx, hebp, hesi, hedi]

end

/-- An interrupt of a user program or of the kernel, through any gate and with any handler that
keeps to its own part of the stack, is invisible to the context that it interrupts, but for the
data segments, which the wrapper does not save. -/
theorem handlerWrapper_transparent {fn : Processor → Processor} (hfn : ∀ t, Callee 0 t (fn t))
    (returnAddress : ℕ) (s : Processor) (hring : s.cs % 4 = 0 ∨ s.cs % 4 = 3) (gate : Entrance)
    (hgate : gate.selector % 4 = 0) (esp0 ss0 : ℕ) (hroom : 60 ≤ s.stackTop esp0) :
    let t := handlerWrapper fn returnAddress (s.interrupt gate esp0 ss0)
    t = { s with ds := t.ds, es := t.es, fs := t.fs, gs := t.gs, words := t.words } ∧
      ∀ a, s.stackTop esp0 ≤ a → t.words a = s.words a :=
  handlerWrapper_returns (interrupt_interrupted s hgate ss0 (by omega)) hfn returnAddress hring
    hroom

/-- A user program that asks for the number 3. -/
def userContext : Processor :=
  { eax := 3, ecx := 0x8048100, edx := 128, ebx := 0, esp := 0x83FFFF0, ebp := 0x83FFFF8, esi := 1
    edi := 2, eip := 0x8048094, eflags := 0x202, cs := 0x23, ss := 0x2B, ds := 0x2B, es := 0x2B
    fs := 0x2B, gs := 0x2B, words := fun _ => 0 }

theorem handlerWrapper_transparent_eax :
    (handlerWrapper (fun t => { t with eax := 7, ebx := 8, es := 0x18 }) 0x400100
      (userContext.interrupt ⟨0x10,0x400200,true⟩ 0x7FDFFC 0x18)).eax = 3 := by
  have hcallee : ∀ t : Processor, Callee 0 t { t with eax := 7, ebx := 8, es := 0x18 } :=
    fun _ => ⟨rfl,rfl,fun _ _ => rfl,rfl⟩
  have hkept := (handlerWrapper_transparent hcallee 0x400100 userContext (Or.inr rfl)
    ⟨0x10,0x400200,true⟩ rfl 0x7FDFFC 0x18 (by decide)).1
  rw [hkept]
  rfl

/-! ### System calls -/

section
variable {s t : Processor}

theorem endInt_eq {old : Processor} {ebx ecx edx esi edi ebp gs fs es ds flags : ℕ}
    (h : t.Stacked ([ebx,ecx,edx,esi,edi,ebp,gs,fs,es,ds,flags] ++ old.frame))
    (hring : t.cs % 4 = 0) (hold : old.cs % 4 = 0 ∨ old.cs % 4 = 3) : endInt t =
      { t with
        ebx := ebx, ecx := ecx, edx := edx, esi := esi, edi := edi, ebp := ebp
        gs := gs, fs := fs, es := es, ds := ds
        eip := old.eip, cs := old.cs, eflags := old.eflags
        esp := if old.cs % 4 = 3 then old.esp else t.esp+56
        ss := if old.cs % 4 = 3 then old.ss else t.ss } := by
  have hebx := h.top
  have hecx := h.drop.top
  have hedx := h.drop.drop.top
  have hesi := h.drop.drop.drop.top
  have hedi := h.drop.drop.drop.drop.top
  have hebp := h.drop.drop.drop.drop.drop.top
  have hgs := h.drop.drop.drop.drop.drop.drop.top
  have hfs := h.drop.drop.drop.drop.drop.drop.drop.top
  have hes := h.drop.drop.drop.drop.drop.drop.drop.drop.top
  have hds := h.drop.drop.drop.drop.drop.drop.drop.drop.drop.top
  have hflags := h.drop.drop.drop.drop.drop.drop.drop.drop.drop.drop.top
  simp only [top, drop] at hebx hecx hedx hesi hedi hebp hgs hfs hes hds hflags
  have hpopped : endInt t = Processor.iret { t with
      ebx := ebx, ecx := ecx, edx := edx, esi := esi, edi := edi, ebp := ebp
      gs := gs, fs := fs, es := es, ds := ds, eflags := flags, esp := t.esp+44 } := by
    simp only [endInt, popfl, top, drop, hebx, hecx, hedx, hesi, hedi, hebp, hgs, hfs, hes, hds,
      hflags]
  have hframe : ({ t with
      ebx := ebx, ecx := ecx, edx := edx, esi := esi, edi := edi, ebp := ebp
      gs := gs, fs := fs, es := es, ds := ds, eflags := flags, esp := t.esp+44 } :
        Processor).Stacked (old.frame ++ []) := by
    rw [List.append_nil]
    exact h.after rfl rfl
  rw [hpopped, iret_eq hframe hring hold]

/-- The stack after a call that may have used its three arguments. -/
theorem arguments_stacked {x y z : ℕ} {l : List ℕ} (h : s.Stacked (x :: y :: z :: l))
    (hesp : t.esp = s.esp) (hwords : ∀ a, s.esp+12 ≤ a → t.words a = s.words a) :
    t.Stacked (t.words t.esp :: t.words (t.esp+4) :: t.words (t.esp+8) :: l) := by
  intro i hi
  match i with
  | 0 => rfl
  | 1 => rfl
  | 2 => rfl
  | i+3 =>
    have hword := h (i+3) (by simpa using hi)
    simp only [List.getElem_cons_succ] at hword ⊢
    rw [hesp, hwords _ (by omega), hword]

end

section
variable {base returnAddress : ℕ} {s b c : Processor}

/-- What the entry has stored when it compares eax. -/
theorem entry_stacked (h : Interrupted base s b) (hc : c = b.pushes (callFrame b))
    (hroom : 68 ≤ base) :
    c.Stacked (callFrame b ++ s.frame) ∧ c.esp+44 = b.esp ∧
      (∀ a, base ≤ a → c.words a = s.words a) ∧ (c.eax,c.cs,c.ss) = (b.eax,b.cs,b.ss) := by
  have hlength := (frame_length (s := s)).1
  have hbase := h.esp
  have hspace : 4*(callFrame b).length ≤ b.esp := by
    change 44 ≤ b.esp
    omega
  have hesp : c.esp = b.esp-44 := by
    rw [hc]
    exact pushes_esp b _
  rw [hc]
  refine ⟨pushes_stacked h.frame hspace,by rw [← hc]; omega,?_,?_⟩
  · exact fun a ha => (pushes_words hspace (.inl (by omega))).trans (h.words a ha)
  · rw [pushes_rest]

/-- The end of the entry, with the three words on top that the call has left. -/
theorem endInt_returns (h : Interrupted base s b) {t : Processor} {ebx ecx edx : ℕ}
    (hstacked : t.Stacked ([ebx,ecx,edx,b.esi,b.edi,b.ebp,b.gs,b.fs,b.es,b.ds,b.eflags] ++ s.frame))
    (hesp : t.esp+44 = b.esp) (hsegments : (t.cs,t.ss) = (b.cs,b.ss))
    (hring : s.cs % 4 = 0 ∨ s.cs % 4 = 3) :
    endInt t = { s with eax := t.eax, ebx := ebx, ecx := ecx, edx := edx, words := t.words } := by
  have hfields := h.fields
  simp only [Prod.mk.injEq] at hfields hsegments
  obtain ⟨hcs,hss⟩ := hsegments
  obtain ⟨-,-,-,-,hebp,hesi,hedi,hds,hes,hfs,hgs⟩ := hfields
  obtain ⟨hback,hback'⟩ := h.back (show t.esp+56 = b.esp+12 by omega) hss
  rw [endInt_eq hstacked (by rw [hcs]; exact h.ring) hring]
  rw [hback, hback', hebp, hesi, hedi, hds, hes, hfs, hgs]

theorem sysCall_error (h : Interrupted base s b) (hc : c = b.pushes (callFrame b))
    (hring : s.cs % 4 = 0 ∨ s.cs % 4 = 3) (hroom : 68 ≤ base) :
    endInt { c with eax := 0xFFFFFFFF } = { s with eax := 0xFFFFFFFF, words := c.words } := by
  obtain ⟨hstacked,hesp,-,hsame⟩ := entry_stacked h hc hroom
  simp only [Prod.mk.injEq] at hsame
  have hfields := h.fields
  simp only [Prod.mk.injEq] at hfields
  obtain ⟨-,hecx,hedx,hebx,-⟩ := hfields
  have hstacked' : ({ c with eax := 0xFFFFFFFF } : Processor).Stacked (callFrame b ++ s.frame) :=
    Stacked.after (l := []) hstacked rfl rfl
  rw [endInt_returns h hstacked' hesp (Prod.ext hsame.2.1 hsame.2.2) hring, hebx, hecx, hedx]

/-- The call of a function of the table. -/
theorem sysCall_valid (h : Interrupted base s b) (hc : c = b.pushes (callFrame b))
    {f : Processor → Processor} {r : Processor} (hr : r = c.call returnAddress f)
    (hf : Callee 3 (c.push returnAddress) (f (c.push returnAddress)))
    (hring : s.cs % 4 = 0 ∨ s.cs % 4 = 3) (hroom : 68 ≤ base) :
    endInt r = { s with
      eax := r.eax, ebx := r.words r.esp, ecx := r.words (r.esp+4), edx := r.words (r.esp+8)
      words := r.words } ∧ ∀ a, base ≤ a → r.words a = s.words a := by
  have hlength := (frame_length (s := s)).1
  have hbase := h.esp
  obtain ⟨hstacked,hesp,hwords,hsame⟩ := entry_stacked h hc hroom
  obtain ⟨hresp,-,hrwords,hrsegments⟩ := call_spec hf (by omega)
  rw [← hr] at hresp hrwords hrsegments
  simp only [Prod.mk.injEq] at hsame hrsegments
  have hrstacked := arguments_stacked hstacked hresp fun a ha => hrwords a (by omega)
  have hrsame : (r.cs,r.ss) = (b.cs,b.ss) :=
    Prod.ext (hrsegments.1.trans hsame.2.1) (hrsegments.2.trans hsame.2.2)
  refine ⟨endInt_returns h hrstacked (by omega) hrsame hring,?_⟩
  exact fun a ha => (hrwords a (by omega)).trans (hwords a ha)

end

/-- A system call from any context, with functions that keep to their arguments and their own part
of the stack. The function gets ebx, ecx and edx; its result is in eax, and -1 for a number that
the table does not have. The other registers are as before, but for the three that a function
may leave its arguments in. -/
theorem sysCallHandler_returns (table : ℕ → Processor → Processor)
    (htable : ∀ n t, InTable n → Callee 3 t (table n t)) (returnAddress : ℕ) (s : Processor)
    (hring : s.cs % 4 = 0 ∨ s.cs % 4 = 3) (gate : Entrance) (hgate : gate.selector % 4 = 0)
    (esp0 ss0 : ℕ) (hroom : 68 ≤ s.stackTop esp0) :
    let b := s.interrupt gate esp0 ss0
    let c := b.pushes (callFrame b)
    let r := c.call returnAddress (table s.eax)
    let t := sysCallHandler table returnAddress b
    (∀ a, s.stackTop esp0 ≤ a → t.words a = s.words a) ∧
      (¬InTable s.eax → t = { s with eax := 0xFFFFFFFF, words := t.words }) ∧
      (InTable s.eax → (∃ l, (c.push returnAddress).Stacked
          (returnAddress :: s.ebx :: s.ecx :: s.edx :: l)) ∧
        t = { s with
          eax := r.eax, ebx := r.words r.esp, ecx := r.words (r.esp+4), edx := r.words (r.esp+8)
          words := t.words }) := by
  have h := interrupt_interrupted s hgate ss0 (show 20 ≤ s.stackTop esp0 by omega)
  generalize s.interrupt gate esp0 ss0 = b at *
  have hfields := h.fields
  simp only [Prod.mk.injEq] at hfields
  obtain ⟨heax,hecx,hedx,hebx,-⟩ := hfields
  obtain ⟨hstacked,hesp,hwords,hsame⟩ := entry_stacked h rfl hroom
  simp only [Prod.mk.injEq] at hsame
  have hbase := h.esp
  have hlength := (frame_length (s := s)).1
  dsimp only
  rw [sysCallHandler]
  rw [hsame.1, heax]
  split_ifs with hin
  · obtain ⟨hend,hkeep⟩ := sysCall_valid h rfl rfl (htable s.eax _ hin) hring hroom
    rw [hend]
    have harguments : s.ebx :: s.ecx :: s.edx :: ((callFrame b).drop 3 ++ s.frame) =
        callFrame b ++ s.frame := by
      rw [← hebx, ← hecx, ← hedx]
      rfl
    refine ⟨hkeep,fun hnot => absurd hin hnot,fun _ =>
      ⟨⟨(callFrame b).drop 3 ++ s.frame,?_⟩,rfl⟩⟩
    rw [harguments]
    exact push_stacked hstacked (by omega)
  · rw [sysCall_error h rfl hring hroom]
    exact ⟨hwords,fun _ => rfl,fun hnot => absurd hnot hin⟩

/-- The call returns its number squared and overwrites its first argument. -/
theorem sysCallHandler_returns_square :
    let table := fun n (t : Processor) => { t with
      eax := n*n, es := 0x18, words := Function.update t.words (t.esp+4) 9 }
    let t := sysCallHandler table 0x400100
      (userContext.interrupt ⟨0x10,0x400200,false⟩ 0x7FDFFC 0x18)
    (t.eax,t.ebx,t.ecx,t.esp,t.cs) = (9,9,0x8048100,0x83FFFF0,0x23) := by
  intro table t
  have hframe := (sysCallHandler_returns table
    (fun n t _ => ⟨rfl,Function.update_of_ne (by omega) _ _,
      fun a ha => Function.update_of_ne (by omega) _ _,rfl⟩)
    0x400100 userContext (Or.inr rfl) ⟨0x10,0x400200,false⟩ rfl 0x7FDFFC 0x18
    (by decide)).2.2 (by decide +kernel)
  rw [show t = _ from hframe.2]
  decide

end GameOfThreads
