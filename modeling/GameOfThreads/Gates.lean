import GameOfThreads.Machine.Processor
import GameOfThreads.Machine.Run

/-! The interrupt descriptor table: how its entries are laid out, what init_IDT puts into it, and
where the processor goes by it. -/
namespace GameOfThreads
open Machine

/-- An entry of the table. -/
structure IdtDesc where
  offset1500 : UInt16
  segSelector : UInt16
  reserved4 : UInt8
  reserved3 : Fin 2
  reserved2 : Fin 2
  reserved1 : Fin 2
  size : Fin 2
  reserved0 : Fin 2
  dpl : Fin 4
  present : Fin 2
  offset3116 : UInt16
  deriving DecidableEq

namespace IdtDesc
variable (d : IdtDesc)

def zero : IdtDesc := ⟨0,0,0,0,0,0,0,0,0,0,0⟩

/-- The eight bytes of an entry, the first member in the lowest bits. -/
def word : ℕ :=
  d.offset1500.toNat+d.segSelector.toNat*0x10000+d.reserved4.toNat*0x100000000+
    d.reserved3*0x10000000000+d.reserved2*0x20000000000+d.reserved1*0x40000000000+
    d.size*0x80000000000+d.reserved0*0x100000000000+d.dpl*0x200000000000+
    d.present*0x800000000000+d.offset3116.toNat*0x1000000000000

end IdtDesc

/-! ### The processor -/

/-- How an interrupt comes about. -/
inductive Origin
  | software
  | hardware

/-- What comes of an interrupt: the way through its gate, or a fault. -/
inductive Delivery
  | enter (gate : Entrance)
  | protection
  | notPresent
  deriving DecidableEq

/-- What the processor makes of an entry, from ring `cpl`: a gate of type 14 keeps further
interrupts out, one of type 15 does not, and an instruction may use only gates that are open to
its ring. -/
def deliver (word : ℕ) (origin : Origin) (cpl : ℕ) : Delivery :=
  let type := word/0x10000000000 % 32
  let dpl := word/0x200000000000 % 4
  if type ≠ 14 ∧ type ≠ 15 then .protection
  else if origin matches .software ∧ dpl < cpl then .protection
  else if word/0x800000000000 % 2 = 0 then .notPresent
  else .enter
    { selector := word/0x10000 % 0x10000
      offset := word/0x1000000000000*0x10000+word % 0x10000
      masks := decide (type = 14) }

/-! ### The table -/

def numVec : ℕ := 256
def kernelCs : UInt16 := 0x0010
def syscallInt : ℕ := 0x80
def keyboardInt : ℕ := 0x21
def rtcInt : ℕ := 0x28
def pitInt : ℕ := 0x20
def kernelPriv : Fin 4 := 0
def userPriv : Fin 4 := 3

/-- What has an entry of its own. -/
inductive Handler
  | divZero | debug | nmi | brkpt | overflow | boundrange | invalOP | dnaException | df | coPSeg
  | invalTSS | segNP | stackF | gpe | pf | floatError | alignment | machineChk | simDFP
  | rtcAsmWrapper | keyboardAsmWrapper | sysCallHandler | pitAsmWrapper
  deriving DecidableEq, Repr

abbrev Idt : Type := ℕ → IdtDesc

/-- The members that the loops of init_IDT assign. -/
def IdtDesc.gate (reserved3 : Fin 2) (d : IdtDesc) : IdtDesc :=
  { d with
    reserved4 := 0, reserved3 := reserved3, reserved2 := 1, reserved1 := 1, reserved0 := 0
    dpl := kernelPriv, present := 1, size := 1, segSelector := kernelCs }

/-- What the second loop changes again for system calls. -/
def IdtDesc.userTrap (d : IdtDesc) : IdtDesc := { d with reserved3 := 1, dpl := userPriv }

/-- The offset of a handler, in its two halves. -/
def IdtDesc.route (handler : ℕ) (d : IdtDesc) : IdtDesc :=
  { d with
    offset3116 := UInt16.ofNat (handler/0x10000), offset1500 := UInt16.ofNat handler }

def setIdtEntry (index : ℕ) (handler : ℕ) (idt : Idt) : Idt :=
  Function.update idt index ((idt index).route handler)

/-- The SET_IDT_ENTRY lines, in their order. -/
def routes : List (ℕ × Handler) :=
  [(0,.divZero),(1,.debug),(2,.nmi),(3,.brkpt),(4,.overflow),(5,.boundrange),(6,.invalOP),
    (7,.dnaException),(8,.df),(9,.coPSeg),(10,.invalTSS),(11,.segNP),(12,.stackF),(13,.gpe),
    (14,.pf),(16,.floatError),(17,.alignment),(18,.machineChk),(19,.simDFP),
    (rtcInt,.rtcAsmWrapper),(keyboardInt,.keyboardAsmWrapper),(syscallInt,.sysCallHandler),
    (pitInt,.pitAsmWrapper)]

/-- The loop over the exceptions. -/
def exceptionGates (idt : Idt) : Idt :=
  (List.range 32).foldl (fun idt index =>
    if index = 15 then idt else Function.update idt index ((idt index).gate 1)) idt

/-- The loop over the remaining entries. -/
def interruptGates (idt : Idt) : Idt :=
  (List.range' 32 (numVec-32)).foldl (fun idt index =>
    let idt := Function.update idt index ((idt index).gate 0)
    if index = syscallInt then
      Function.update idt index (idt index).userTrap
    else idt) idt

def initIDT (address : Handler → ℕ) (idt : Idt) : Idt :=
  routes.foldl (fun idt route => setIdtEntry route.1 (address route.2) idt)
    (interruptGates (exceptionGates idt))

/-- The address in the entry of a vector: null where there is no line for it. -/
def target (address : Handler → ℕ) (vector : ℕ) : ℕ :=
  ((routes.find? fun route => route.1 = vector).map fun route => address route.2).getD 0

section
variable (idt : Idt) {vector : ℕ}

theorem exceptionGates_entry : exceptionGates idt vector =
    if vector < 32 ∧ vector ≠ 15 then (idt vector).gate 1 else idt vector := by
  have hbody : (fun (idt : Idt) index =>
      if index = 15 then idt else Function.update idt index ((idt index).gate 1)) =
      fun idt index => Function.update idt index
        (if index = 15 then idt index else (idt index).gate 1) := by
    funext idt index
    split_ifs
    · exact (Function.update_eq_self ..).symm
    · rfl
  have hloop := foldl_update_self (fun index d => if index = 15 then d else IdtDesc.gate 1 d)
    (List.nodup_range (n := 32)) idt vector
  unfold exceptionGates
  rw [hbody, hloop]
  have hmem := List.mem_range (m := vector) (n := 32)
  by_cases hlt : vector < 32
  · rw [if_pos (hmem.mpr hlt)]
    by_cases hreserved : vector = 15 <;> simp [hlt, hreserved]
  · rw [if_neg fun h => hlt (hmem.mp h), if_neg fun h => hlt h.1]

theorem interruptGates_entry (hvector : vector < numVec) : interruptGates idt vector =
    if vector < 32 then idt vector
    else if vector = syscallInt then ((idt vector).gate 0).userTrap
    else (idt vector).gate 0 := by
  have hbody : (fun (idt : Idt) index =>
      let idt := Function.update idt index ((idt index).gate 0)
      if index = syscallInt then
        Function.update idt index (idt index).userTrap
      else idt) =
      fun idt index => Function.update idt index
        (if index = syscallInt then ((idt index).gate 0).userTrap
          else (idt index).gate 0) := by
    funext idt index
    dsimp only
    split_ifs
    · rw [Function.update_idem, Function.update_self]
    · rfl
  have hloop := foldl_update_self
    (fun index d => if index = syscallInt then (IdtDesc.gate 0 d).userTrap else IdtDesc.gate 0 d)
    (List.nodup_range' (s := 32) (n := numVec-32)) idt vector
  unfold interruptGates
  rw [hbody, hloop]
  have hmem : vector ∈ List.range' 32 (numVec-32) ↔ ¬vector < 32 := by
    rw [List.mem_range'_1]
    unfold numVec at *
    omega
  by_cases hlow : vector < 32
  · rw [if_neg fun h => hmem.mp h hlow, if_pos hlow]
  · rw [if_pos (hmem.mpr hlow), if_neg hlow]

/-- What the two loops make of an entry. -/
theorem loops_entry (hvector : vector < numVec) :
    interruptGates (exceptionGates idt) vector =
      if vector = 15 then idt vector
      else if vector < 32 then (idt vector).gate 1
      else if vector = syscallInt then ((idt vector).gate 0).userTrap
      else (idt vector).gate 0 := by
  rw [interruptGates_entry _ hvector, exceptionGates_entry]
  by_cases hlow : vector < 32
  · by_cases hreserved : vector = 15 <;> simp [hlow, hreserved]
  · have hreserved : vector ≠ 15 := by omega
    simp [hlow, hreserved]

theorem initIDT_entry (address : Handler → ℕ) : initIDT address idt vector =
    (routes.find? fun route => route.1 = vector).elim (interruptGates (exceptionGates idt) vector)
      fun route => (interruptGates (exceptionGates idt) vector).route (address route.2) := by
  have hnodup : (routes.map Prod.fst).Nodup := by decide
  exact foldl_update Prod.fst (fun (route : ℕ × Handler) d => IdtDesc.route (address route.2) d)
    hnodup _ vector

end

/-- The bits that the processor looks at. -/
theorem deliver_word (d : IdtDesc) (origin : Origin) (cpl : ℕ) (hsize : d.size = 1)
    (hone : d.reserved1 = 1) (htwo : d.reserved2 = 1) (hzero : d.reserved0 = 0)
    (hpresent : d.present = 1) : deliver d.word origin cpl =
      if origin matches .software ∧ d.dpl < cpl then .protection
      else .enter
        { selector := d.segSelector.toNat, offset := d.offset3116.toNat*0x10000+d.offset1500.toNat
          masks := decide (d.reserved3 = 0) } := by
  obtain ⟨low,selector,four,three,two,one,size,zero,dpl,present,high⟩ := d
  dsimp only at hsize hone htwo hzero hpresent
  subst hsize hone htwo hzero hpresent
  have hlow := low.toNat_lt
  have hselector := selector.toNat_lt
  have hfour := four.toNat_lt
  have hthree := three.isLt
  have hdpl := dpl.isLt
  have hhigh := high.toNat_lt
  have hword : IdtDesc.word ⟨low,selector,four,three,1,1,1,0,dpl,1,high⟩ =
      low.toNat+selector.toNat*0x10000+four.toNat*0x100000000+(14+three)*0x10000000000+
        dpl*0x200000000000+0x800000000000+high.toNat*0x1000000000000 := by
    unfold IdtDesc.word
    dsimp only
    omega
  rw [hword]
  generalize hw : low.toNat+selector.toNat*0x10000+four.toNat*0x100000000+
    (14+three.val)*0x10000000000+dpl.val*0x200000000000+0x800000000000+
    high.toNat*0x1000000000000 = w
  have htype : w/0x10000000000 % 32 = 14+three := by omega
  have hring : w/0x200000000000 % 4 = dpl := by omega
  have hthere : w/0x800000000000 % 2 = 1 := by omega
  have hcode : w/0x10000 % 0x10000 = selector.toNat := by omega
  have hoffset : w/0x1000000000000*0x10000+w % 0x10000 = high.toNat*0x10000+low.toNat := by
    omega
  have hmasks : decide (14+three.val = 14) = decide (three = 0) := by
    apply decide_eq_decide.mpr
    omega
  unfold deliver
  simp only [htype, hring, hthere, hcode, hoffset, hmasks]
  rw [if_neg (by omega)]
  rfl

theorem target_offset (address : Handler → ℕ) (haddress : ∀ h, address h < 4294967296) (h : Handler)
    (d : IdtDesc) :
    (d.route (address h)).offset3116.toNat*0x10000+(d.route (address h)).offset1500.toNat =
      address h := by
  have hlt := haddress h
  change address h/0x10000 % 65536*0x10000+address h % 65536 = address h
  omega

/-- The entry of a vector before its handler is put in. -/
structure Gated (vector : ℕ) (d : IdtDesc) : Prop where
  size : d.size = 1
  one : d.reserved1 = 1
  two : d.reserved2 = 1
  zero : d.reserved0 = 0
  present : d.present = 1
  selector : d.segSelector = kernelCs
  dpl : d.dpl = if vector = syscallInt then userPriv else kernelPriv
  three : d.reserved3 = 0 ↔ 32 ≤ vector ∧ vector ≠ syscallInt

theorem loops_gated {vector : ℕ} (hvector : vector < numVec) (hne : vector ≠ 15) (idt : Idt) :
    Gated vector (interruptGates (exceptionGates idt) vector) := by
  rw [loops_entry idt hvector, if_neg hne]
  split_ifs with hlow hcall
  · have hother : vector ≠ syscallInt := by
      unfold syscallInt
      omega
    refine ⟨rfl,rfl,rfl,rfl,rfl,rfl,(if_neg hother).symm,?_⟩
    exact iff_of_false (by decide : (1 : Fin 2) ≠ 0) fun h => by omega
  · refine ⟨rfl,rfl,rfl,rfl,rfl,rfl,(if_pos hcall).symm,?_⟩
    exact iff_of_false (by decide : (1 : Fin 2) ≠ 0) fun h => h.2 hcall
  · refine ⟨rfl,rfl,rfl,rfl,rfl,rfl,(if_neg hcall).symm,?_⟩
    exact iff_of_true rfl ⟨by omega,hcall⟩

theorem Gated.deliver {vector : ℕ} {d : IdtDesc} (h : Gated vector d) (origin : Origin) {cpl : ℕ}
    (hcpl : cpl ≤ 3) : deliver d.word origin cpl =
      if origin matches .software ∧ 0 < cpl ∧ vector ≠ syscallInt then .protection
      else .enter ⟨kernelCs.toNat,d.offset3116.toNat*0x10000+d.offset1500.toNat,
        decide (32 ≤ vector ∧ vector ≠ syscallInt)⟩ := by
  have hring : (d.dpl : ℕ) < cpl ↔ 0 < cpl ∧ vector ≠ syscallInt := by
    rw [h.dpl]
    split_ifs with hcall
    · exact iff_of_false (Nat.not_lt.mpr hcpl) fun hnot => hnot.2 hcall
    · exact ⟨fun hlt => ⟨hlt,hcall⟩,fun hlt => hlt.1⟩
  rw [deliver_word d origin cpl h.size h.one h.two h.zero h.present, h.selector]
  simp only [hring, h.three]

/-- After init_IDT, whatever the addresses of the handlers: each interrupt goes to the handler of
its vector in the kernel's code segment, null where there is none; the instruction of a user
program gets through with vector 0x80 only; and further interrupts wait for all but exceptions
and system calls. -/
theorem idt_delivers (address : Handler → ℕ) (haddress : ∀ h, address h < 4294967296)
    {vector : ℕ} (hvector : vector < numVec) (origin : Origin) {cpl : ℕ} (hcpl : cpl ≤ 3) :
    deliver (initIDT address (fun _ => .zero) vector).word origin cpl =
      if vector = 15 then .protection
      else if origin matches .software ∧ 0 < cpl ∧ vector ≠ syscallInt then .protection
      else .enter ⟨kernelCs.toNat,target address vector,
        decide (32 ≤ vector ∧ vector ≠ syscallInt)⟩ := by
  rw [initIDT_entry, target]
  by_cases hreserved : vector = 15
  · subst hreserved
    have hfind : routes.find? (fun route => route.1 = 15) = none := by decide
    have hword : IdtDesc.zero.word = 0 := by decide
    rw [hfind, if_pos rfl, Option.elim, loops_entry _ hvector, if_pos rfl, hword]
    simp [deliver]
  rw [if_neg hreserved]
  have hgated := loops_gated hvector hreserved fun _ => .zero
  have hnull : (interruptGates (exceptionGates fun _ => .zero) vector).offset3116 = 0 ∧
      (interruptGates (exceptionGates fun _ => .zero) vector).offset1500 = 0 := by
    rw [loops_entry _ hvector]
    split_ifs <;> exact ⟨rfl,rfl⟩
  generalize interruptGates (exceptionGates fun _ => .zero) vector = d at *
  cases routes.find? fun route => route.1 = vector with
  | none =>
    rw [Option.elim, hgated.deliver origin hcpl, hnull.1, hnull.2]
    rfl
  | some route =>
    have hrouted : Gated vector (d.route (address route.2)) :=
      ⟨hgated.size,hgated.one,hgated.two,hgated.zero,hgated.present,hgated.selector,hgated.dpl,
        hgated.three⟩
    rw [Option.elim, hrouted.deliver origin hcpl, target_offset address haddress]
    rfl

/-- A system call gets through. -/
theorem idt_delivers_call :
    deliver (initIDT (fun _ => 0x401000) (fun _ => .zero) 0x80).word .software 3 =
      .enter ⟨kernelCs.toNat,0x401000,false⟩ := by
  have hplace : 0x401000 < 4294967296 := by decide
  have haddress : ∀ h : Handler, (fun _ => 0x401000 : Handler → ℕ) h < 4294967296 :=
    fun _ => hplace
  have hcall := idt_delivers _ haddress (show 0x80 < numVec by decide) .software (Nat.le_refl 3)
  rw [hcall]
  rfl

end GameOfThreads
