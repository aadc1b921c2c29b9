import GameOfThreads.LineDelivery
import GameOfThreads.Machine.Interruptible

/-! Reads that are interrupted. From its look at the flag on terminal_read copies the line, takes
the flag back, clears the buffer and ends its request, with interrupts on all the way. Keys that
come in between leave the lines alone as long as they do not change a line. -/
namespace GameOfThreads
open Machine

/-! ### terminal_read, access by access -/

/-- The copy loop with `n` bytes to go. -/
def copyBytes (term : ℕ) : ℕ → List UInt8 → Code Kernel (List UInt8)
  | 0,got => .done got
  | n+1,got => .load (fun k => (k.terminal term).keyboardBuffer got.length) fun b =>
    copyBytes term n (got ++ [b])

/-- What terminal_read does up to the end of its copy loop; current_term is the same whenever
its process runs. -/
def copyCode (term limit : ℕ) : Code Kernel (List UInt8) :=
  .load (fun k => (k.terminal term).keyboardBufIdx) fun idx =>
  if limit > idx then
    .load (fun k => (k.terminal term).keyboardBufIdx) fun idx => copyBytes term idx []
  else copyBytes term limit []

/-- What it does behind the copy loop. -/
def clearCode (term : ℕ) : Code Kernel Unit :=
  .store (fun k => k.onTerminal term (Terminal.setEnterFlag 0)) <|
  .each (fun index => .store (storeKey term index noke)) (List.range keyBuffSize) <|
  .store (fun k => k.onTerminal term (Terminal.setIdx 0)) <|
  .store (fun k => k.onTerminal term (Terminal.setReadWanted 0)) (.done ())

/-- How far a terminal_read is that has seen the flag. -/
inductive ReadStage
  | copy (limit : ℕ) (code : Code Kernel (List UInt8))
  | clear (limit : ℕ) (bytes : List UInt8) (code : Code Kernel Unit)

/-- The kernel, and for every terminal the read that its process is in. -/
structure LineReads where
  kernel : Kernel
  reading : ℕ → Option ReadStage

/-- The start of terminal_read, up to its loop on the flag. -/
def readStart (null : Bool) (nbytes : ℤ) (k : Kernel) : Kernel :=
  match terminalReadStart null nbytes k with
  | (none,k) => k
  | (some limit,k) =>
    { k with waiting := Function.update k.waiting k.running (some (.terminal limit)) }

/-- The turn of a process that waits in terminal_read: it looks at the flag. -/
def LineReads.look (fs : FileSystem) (s : LineReads) : LineReads :=
  match s.kernel.waiting s.kernel.running with
  | some (.terminal limit) =>
    if (s.kernel.terminal s.kernel.currentTerm).enterFlag = 0 then s
    else
      ⟨s.kernel,Function.update s.reading s.kernel.currentTerm
        (some (.copy limit (copyCode s.kernel.currentTerm limit)))⟩
  | _ => { s with kernel := (GameOfThreads.kernel fs).next s.kernel .resume }

/-- Its turn behind that: one access. A read that returns reports its limit and its bytes. -/
def LineReads.advance (s : LineReads) : ReadStage → Option (ℕ × List UInt8) × LineReads
  | .copy limit code =>
    match code.advance s.kernel with
    | (.done bytes,k) => (none,⟨k,Function.update s.reading s.kernel.currentTerm
        (some (.clear limit bytes (clearCode s.kernel.currentTerm)))⟩)
    | (code,k) => (none,⟨k,Function.update s.reading s.kernel.currentTerm
        (some (.copy limit code))⟩)
  | .clear limit bytes code =>
    match code.advance s.kernel with
    | (.done _,k) => (some (limit,bytes),
        ⟨freed k,Function.update s.reading s.kernel.currentTerm none⟩)
    | (code,k) => (none,⟨k,Function.update s.reading s.kernel.currentTerm
        (some (.clear limit bytes code))⟩)

/-- A process inside terminal_read makes no call; the copy may fault at the buffer of its caller,
which ends the process. -/
def lineReads (fs : FileSystem) : System LineReads Op (Option (ℕ × List UInt8)) where
  step s op :=
    match op,s.reading s.kernel.currentTerm with
    | .resume,some stage => s.advance stage
    | .resume,none => (none,s.look fs)
    | .read fd null nbytes cpu,none =>
      if s.kernel.ReadsTerminal fd null then
        (none,{ s with kernel := readStart null nbytes s.kernel })
      else (none,{ s with kernel := (kernel fs).next s.kernel (.read fd null nbytes cpu) })
    | .squash cpu,some (.copy _ _) => (none,⟨(kernel fs).next s.kernel (.squash cpu),
        Function.update s.reading s.kernel.currentTerm none⟩)
    | op,none => (none,{ s with kernel := (kernel fs).next s.kernel op })
    | op,some _ =>
      if op.interrupt then (none,{ s with kernel := (kernel fs).next s.kernel op }) else (none,s)

/-- A read that has copied its line and has not yet returned. -/
def LineReads.Clearing (s : LineReads) (t : ℕ) : Prop :=
  ∃ limit bytes code, s.reading t = some (.clear limit bytes code)

theorem copyBytes_finish (term n : ℕ) (got : List UInt8) (k : Kernel) :
    (copyBytes term n got).finish k =
      (got ++ (List.range n).map (fun i => (k.terminal term).keyboardBuffer (got.length+i)),k) := by
  induction n generalizing got with
  | zero => simp [copyBytes]
  | succ n ih =>
    rw [copyBytes, Code.finish_load, ih, List.range_succ_eq_map, List.map_cons, List.map_map,
      List.append_assoc]
    simp [Function.comp_def, Nat.add_assoc, Nat.add_comm 1]

theorem copyCode_finish (term limit : ℕ) (k : Kernel) :
    (copyCode term limit).finish k = ((k.input term).line.take limit,k) := by
  have hcopy : ∀ n, (copyBytes term n []).finish k =
      ((List.range n).map (k.terminal term).keyboardBuffer,k) := by
    intro n
    rw [copyBytes_finish]
    simp
  rw [copyCode, Code.finish_load, Kernel.input, Terminal.input, ← List.map_take, List.take_range]
  split_ifs with h
  · rw [Code.finish_load, hcopy, Nat.min_eq_right (Nat.le_of_lt h)]
  · rw [hcopy, Nat.min_eq_left (Nat.le_of_not_gt h)]

theorem clearCode_finish (term : ℕ) (k : Kernel) :
    (clearCode term).finish k = ((),
      (clearKeyBuf term (k.onTerminal term (Terminal.setEnterFlag 0))).onTerminal term
        (Terminal.setReadWanted 0)) := by
  rw [clearCode, Code.finish_store,
    Code.finish_each (g := fun k index => storeKey term index noke k) fun _ _ _ => rfl]
  rfl

/-- The code leaves current_term alone. -/
def Current {ρ : Type} (term : ℕ) (code : Code Kernel ρ) : Prop :=
  code.Safe {fun k => k.currentTerm = term} (fun _ _ => True) (fun _ _ => True)
    fun k => k.currentTerm = term

theorem Current.load {ρ α : Type} {term : ℕ} {g : Kernel → α} {next : α → Code Kernel ρ}
    (h : ∀ a, Current term (next a)) : Current term (.load g next) :=
  Code.Safe.load (fun _ => trivial) fun k hk => ⟨_,rfl,hk,h (g k)⟩

theorem Current.store {ρ : Type} {term : ℕ} {f : Kernel → Kernel} {next : Code Kernel ρ}
    (hf : ∀ k, (f k).currentTerm = k.currentTerm) (h : Current term next) :
    Current term (.store f next) :=
  Code.Safe.store (fun k hk => ⟨trivial,(hf k).trans hk⟩) rfl h

theorem copyCode_current (term limit : ℕ) : Current term (copyCode term limit) := by
  have hcopy : ∀ n got, Current term (copyBytes term n got) := by
    intro n
    induction n with
    | zero => exact fun _ => Code.Safe.done fun _ _ => trivial
    | succ n ih => exact fun got => Current.load fun b => ih (got ++ [b])
  refine Current.load fun idx => ?_
  split_ifs
  · exact Current.load fun idx => hcopy idx []
  · exact hcopy limit []

theorem clearCode_current (term : ℕ) : Current term (clearCode term) := by
  refine Current.store (fun _ => rfl) ?_
  refine Code.Safe.each (fun index _ next hnext =>
    Current.store (f := storeKey term index noke) (fun _ => rfl) hnext) ?_
  exact Current.store (fun _ => rfl) <| Current.store (fun _ => rfl) <|
    Code.Safe.done fun _ _ => trivial

theorem Current.advances (fs : FileSystem) {ρ : Type} {term : ℕ} {code : Code Kernel ρ}
    {k : Kernel} (hcode : Current term code) (hk : k.currentTerm = term)
    (part : Code Kernel ρ → Kernel → LineReads)
    (h : ∀ f next k, k.currentTerm = term →
      (lineReads fs).next (part (.step f next) k) .resume = part (next k) (f k)) : ∃ n,
    (lineReads fs).run (part code k) (List.replicate n .resume) =
      part (.done (code.finish k).1) (code.finish k).2 := by
  refine Code.exists_advances (I := fun code k => k.currentTerm = term ∧ Current term code)
    ?_ code k ⟨hk,hcode⟩
  rintro f next k ⟨hk,hcode⟩
  obtain ⟨-,_,rfl,hk',hnext⟩ := Code.Safe.advance hcode hk
  exact ⟨h f next k hk,hk',hnext⟩

/-- A reader that finds the flag set goes on to copy. -/
theorem lineReads_look (fs : FileSystem) {s : LineReads} {limit : ℕ}
    (hidle : s.reading s.kernel.currentTerm = none)
    (hwait : s.kernel.waiting s.kernel.running = some (.terminal limit))
    (hflag : (s.kernel.terminal s.kernel.currentTerm).enterFlag ≠ 0) :
    (lineReads fs).step s .resume = (none,⟨s.kernel,Function.update s.reading
      s.kernel.currentTerm (some (.copy limit (copyCode s.kernel.currentTerm limit)))⟩) := by
  simp only [lineReads, hidle, LineReads.look, hwait, if_neg hflag]

/-- A read on `term` that has gone as far as `code` in its copy. -/
def LineReads.copying (s : LineReads) (term limit : ℕ) (code : Code Kernel (List UInt8))
    (k : Kernel) : LineReads :=
  code.resolve (fun bytes =>
      ⟨k,Function.update s.reading term (some (.clear limit bytes (clearCode term)))⟩)
    fun code => ⟨k,Function.update s.reading term (some (.copy limit code))⟩

/-- A read on `term` that has gone as far as `code` behind its copy. -/
def LineReads.clearing (s : LineReads) (term limit : ℕ) (bytes : List UInt8)
    (code : Code Kernel Unit) (k : Kernel) : LineReads :=
  code.resolve (fun _ => ⟨freed k,Function.update s.reading term none⟩)
    fun code => ⟨k,Function.update s.reading term (some (.clear limit bytes code))⟩

theorem copying_next (fs : FileSystem) (s : LineReads) {term limit : ℕ} {f : Kernel → Kernel}
    {next : Kernel → Code Kernel (List UInt8)} {k : Kernel} (hk : k.currentTerm = term) :
    (lineReads fs).next (s.copying term limit (.step f next) k) .resume =
      s.copying term limit (next k) (f k) := by
  subst hk
  simp only [System.next, lineReads, LineReads.copying, Code.resolve, Function.update_self,
    LineReads.advance, Code.advance]
  cases next k <;> simp only [Function.update_idem]

theorem clearing_next (fs : FileSystem) (s : LineReads) {term limit : ℕ} {bytes : List UInt8}
    {f : Kernel → Kernel} {next : Kernel → Code Kernel Unit} {k : Kernel}
    (hk : k.currentTerm = term) :
    (lineReads fs).next (s.clearing term limit bytes (.step f next) k) .resume =
      s.clearing term limit bytes (next k) (f k) := by
  subst hk
  simp only [System.next, lineReads, LineReads.clearing, Code.resolve, Function.update_self,
    LineReads.advance, Code.advance]
  cases next k <;> simp only [Function.update_idem]

/-- Once it has seen the flag, a read that nothing interrupts goes through to its end at once. -/
theorem lineReads_uninterrupted (fs : FileSystem) {s : LineReads} {limit : ℕ}
    (hidle : s.reading s.kernel.currentTerm = none)
    (hwait : s.kernel.waiting s.kernel.running = some (.terminal limit))
    (hflag : (s.kernel.terminal s.kernel.currentTerm).enterFlag ≠ 0) : ∃ n,
      (lineReads fs).run s (List.replicate n .resume) =
        { s with kernel := (kernel fs).next s.kernel .resume } := by
  have hend : (kernel fs).next s.kernel .resume = freed (terminalReadFinish limit s.kernel).2 :=
    congrArg Prod.snd (resume_set hwait hflag)
  have hlook := congrArg Prod.snd (lineReads_look fs hidle hwait hflag)
  generalize hterm : s.kernel.currentTerm = term at *
  obtain ⟨n,hn⟩ := (copyCode_current term limit).advances fs hterm (s.copying term limit)
    fun _ _ _ hk => copying_next fs s hk
  rw [copyCode_finish] at hn
  obtain ⟨m,hm⟩ := (clearCode_current term).advances fs hterm
    (s.clearing term limit ((s.kernel.input term).line.take limit))
    fun _ _ _ hk => clearing_next fs s hk
  rw [clearCode_finish] at hm
  have hrest : Function.update s.reading term none = s.reading :=
    hidle ▸ Function.update_eq_self ..
  refine ⟨n+m+1,?_⟩
  rw [List.replicate_succ, System.run_cons, System.next, hlook, List.replicate_add,
    System.run_append, hend, terminalReadFinish_eq, hterm]
  calc (lineReads fs).run ((lineReads fs).run (s.copying term limit (copyCode term limit)
        s.kernel) _) _
      = (lineReads fs).run (s.clearing term limit ((s.kernel.input term).line.take limit)
          (clearCode term) s.kernel) (List.replicate m .resume) :=
            congrArg (fun s' => (lineReads fs).run s' _) hn
    _ = _ := hm
    _ = _ := congrArg (LineReads.mk _) hrest

/-! ### Between interruptions -/

/-- An access of a read on `term`. -/
structure Clears (term : ℕ) (k k' : Kernel) : Prop where
  terminals : TerminalsOnly k k'
  others : ∀ t, t ≠ term → k'.input t = k.input t

/-- The code reads and clears its terminal only, from inputs with `p` on and among those of `K`,
and ends with `Q`. -/
def Reads {ρ : Type} (term : ℕ) (K : Input → Prop) (Q : ρ → Input → Prop) (p : Input → Prop)
    (code : Code Kernel ρ) : Prop :=
  code.Safe { P | ∃ p : Input → Prop, (∀ i, p i → K i) ∧ P = fun k => p (k.input term) }
    (Clears term) (fun r k => Q r (k.input term)) fun k => p (k.input term)

namespace Reads
variable {ρ : Type} {term : ℕ} {K : Input → Prop} {Q : ρ → Input → Prop} {p : Input → Prop}

theorem done {r : ρ} (h : ∀ i, p i → Q r i) : Reads term K Q p (.done r) :=
  Code.Safe.done fun _ hk => h _ hk

theorem load {α : Type} {g : Kernel → α} {next : α → Code Kernel ρ}
    (hp : ∀ i, p i → K i)
    (h : ∀ k, p (k.input term) → Reads term K Q p (next (g k))) : Reads term K Q p (.load g next) :=
  Code.Safe.load (fun k => ⟨.refl k,fun _ _ => rfl⟩) fun k hk => ⟨_,⟨p,hp,rfl⟩,hk,h k hk⟩

theorem store {f : Kernel → Kernel} {next : Code Kernel ρ} (p' : Input → Prop)
    (h : ∀ k, p (k.input term) → Clears term k (f k) ∧ p' ((f k).input term))
    (hp' : ∀ i, p' i → K i) (hnext : Reads term K Q p' next) :
    Reads term K Q p (.store f next) := Code.Safe.store h ⟨p',hp',rfl⟩ hnext

/-- A store to the terminal itself. -/
theorem onTerminal {f : Terminal → Terminal} {next : Code Kernel ρ} (p' : Input → Prop)
    (hprocess : ∀ t, (f t).process = t.process)
    (h : ∀ t : Terminal, p t.input → p' (f t).input)
    (hp' : ∀ i, p' i → K i) (hnext : Reads term K Q p' next) :
    Reads term K Q p (.store (fun k => k.onTerminal term f) next) := by
  refine store p' (fun k hk => ⟨⟨(TerminalsOnly.refl k).onTerminal hprocess,fun t ht => ?_⟩,?_⟩)
    hp' hnext
  · rw [Kernel.onTerminal_input, Function.update_of_ne ht]
  · rw [Kernel.onTerminal_input, Function.update_self]
    exact h _ hk

theorem each {α : Type} {body : α → Code Kernel ρ → Code Kernel ρ} {l : List α}
    {next : Code Kernel ρ}
    (h : ∀ a ∈ l, ∀ next, Reads term K Q p next → Reads term K Q p (body a next))
    (hnext : Reads term K Q p next) : Reads term K Q p (.each body l next) := Code.Safe.each h hnext

/-- One access, from an input of `K`. -/
theorem advance {code : Code Kernel ρ} {k : Kernel} (h : Reads term K Q p code)
    (hk : p (k.input term)) (hK : K (k.input term)) :
    Clears term k (code.advance k).2 ∧ K ((code.advance k).2.input term) ∧
      ∃ p', p' ((code.advance k).2.input term) ∧ Reads term K Q p' (code.advance k).1 := by
  cases code with
  | done r => exact ⟨⟨.refl k,fun _ _ => rfl⟩,hK,p,hk,h⟩
  | step f next =>
    obtain ⟨hclears,_,⟨p',hp',rfl⟩,hk',hnext⟩ := Code.Safe.advance h hk
    exact ⟨hclears,hp' _ hk',p',hk',hnext⟩

end Reads

def Input.Fits (i : Input) : Prop := i.line.length ≤ keyBuffSize

/-- What a terminal holds: a line in the making or one that waits; a line that a read copies; or
a line in the hand of a read that clears the buffer. -/
def ReadStage.Sound (t : ℕ) (i : Input) : Option ReadStage → List (List UInt8) → Prop
  | none,hand => hand = [] ∧ Orderly i
  | some (.copy limit code),hand => hand = [] ∧ Orderly i ∧ i.enterFlag ≠ 0 ∧
    ∃ p, p i ∧ Reads t (· = i) (fun bytes _ => bytes = i.line.take limit) p code
  | some (.clear limit bytes code),hand => (∃ line, hand = [line] ∧ Handed line (limit,bytes)) ∧
    i.Fits ∧ ∃ last : Input, Orderly last ∧ last.enterFlag = 0 ∧
      ∃ p, p i ∧ Reads t Input.Fits (fun _ j => j = last) p code

/-- The line that is submitted and not yet copied. -/
def LineReads.pending (s : LineReads) (t : ℕ) : List (List UInt8) :=
  match s.reading t with
  | some (.clear _ _ _) => []
  | _ => (s.kernel.input t).pending

/-- The line that an event submits on a terminal. -/
def submittedTo (t : ℕ) (m : Move LineReads Op (Option (ℕ × List UInt8))) : List (List UInt8) :=
  match m.event with
  | .key pressed _ =>
    if m.pre.kernel.viewingTerm = t then
      submits (m.pre.kernel.input t) (.press (m.pre.kernel.key pressed))
    else []
  | _ => []

/-- What a read that returns with an event gets on a terminal, with its limit. -/
def returnedTo (t : ℕ) (m : Move LineReads Op (Option (ℕ × List UInt8))) : List (ℕ × List UInt8) :=
  if m.pre.kernel.currentTerm = t then m.out.toList else []

/-- Lines go from the keys into the buffer, from there into the hand of a read, and with its
return to its caller. -/
def Passes (t : ℕ) (s s' : LineReads) (hand submitted : List (List UInt8))
    (returned : List (ℕ × List UInt8)) : Prop :=
  ∃ taken hand', ReadStage.Sound t (s'.kernel.input t) (s'.reading t) hand' ∧
    hand ++ s.pending t ++ submitted = taken ++ (hand' ++ s'.pending t) ∧
    List.Forall₂ Handed taken returned

theorem Passes.same {t : ℕ} {s s' : LineReads} {hand : List (List UInt8)}
    (h : ReadStage.Sound t (s.kernel.input t) (s.reading t) hand)
    (hinput : s'.kernel.input t = s.kernel.input t) (hreading : s'.reading t = s.reading t) :
    Passes t s s' hand [] [] := by
  refine ⟨[],hand,hinput ▸ hreading ▸ h,?_,.nil⟩
  rw [List.append_nil, List.nil_append, LineReads.pending, LineReads.pending, hinput, hreading]

theorem Orderly.fits {i : Input} (h : Orderly i) : i.Fits := h.line_length

theorem ReadStage.Sound.fits {t : ℕ} {i : Input} {stage : Option ReadStage}
    {hand : List (List UInt8)} (h : ReadStage.Sound t i stage hand) : i.Fits := by
  rcases stage with _ | ⟨limit,code⟩ | ⟨limit,bytes,code⟩
  · exact h.2.fits
  · exact h.2.1.fits
  · exact h.2.1

section
variable {fs : FileSystem} {s : LineReads} {t : ℕ} {hand : List (List UInt8)}

/-- A line that is neither submitted nor in the hand of a read is in the making. -/
theorem ReadStage.Sound.typing
    (h : ReadStage.Sound t (s.kernel.input t) (s.reading t) hand)
    (hflag : (s.kernel.terminal t).enterFlag = 0) (hclearing : ¬s.Clearing t) :
    Plain (s.kernel.input t).line := by
  cases hstage : s.reading t with
  | none =>
    rw [hstage] at h
    exact h.2.typing hflag
  | some stage =>
    rw [hstage] at h
    cases stage with
    | copy limit code => exact absurd hflag h.2.2.1
    | clear limit bytes code => exact absurd ⟨limit,bytes,code,hstage⟩ hclearing

theorem Clears.inRange {k k' : Kernel} {term : ℕ} (h : Clears term k k') (hin : k.InRange) :
    k'.InRange := inRange_of h.terminals.table (inRange_table.mpr hin)

/-- Every terminal is in one of the stages. -/
structure LineReads.Sound (s : LineReads) : Prop where
  inRange : s.kernel.InRange
  stages : ∀ t, ∃ hand, ReadStage.Sound t (s.kernel.input t) (s.reading t) hand

end

/-! ### Runs -/

/-- The lines of a run so far: reads have returned the first of them, one may be in the hand of a
read that is about to return, and one may wait. -/
structure LinesPassed (t : ℕ) (h : List (Move LineReads Op (Option (ℕ × List UInt8))))
    (s : LineReads) (lines hand : List (List UInt8)) : Prop where
  submitted : h.flatMap (submittedTo t) = lines ++ (hand ++ s.pending t)
  returned : List.Forall₂ Handed lines (h.flatMap (returnedTo t))
  plain : ∀ line ∈ h.flatMap (submittedTo t), Plain line
  held : ReadStage.Sound t (s.kernel.input t) (s.reading t) hand

/-- A read that asks for the whole buffer returns a whole line. -/
theorem LinesPassed.whole {t : ℕ} {h : List (Move LineReads Op (Option (ℕ × List UInt8)))}
    {s : LineReads} {lines hand : List (List UInt8)} (hd : LinesPassed t h s lines hand)
    {nbytes : ℤ} (hnbytes : 128 ≤ nbytes) {got : ℕ × List UInt8}
    (hgot : got ∈ h.flatMap (returnedTo t)) (hlimit : got.1 = readLimit nbytes) :
    ∃ line ∈ lines, got.2 = line ++ [newline] := by
  obtain ⟨line,hline,hhanded⟩ := handed_of_mem hd.returned hgot
  have hplain : Plain line := by
    apply hd.plain
    rw [hd.submitted]
    exact List.mem_append_left _ hline
  exact ⟨line,hline,hhanded.whole hplain hnbytes hlimit⟩

/-- The machine after boot, with no read under way. -/
def LineReads.initial (pcb : ℕ → PCB) (phys : ℕ → UInt8) : LineReads :=
  ⟨GameOfThreads.initial pcb phys,fun _ => none⟩

end GameOfThreads
