import GameOfThreads.Display

/-! Waiting for the clock. read_rtc runs in small steps, a process at a time, among clock
interrupts and switches of the timer. An interrupt wakes every reader that waits for it, whatever
the others do; a call that finds the flag of an older interrupt does not wait at all. -/
namespace GameOfThreads
open Machine

/-- Where a process stands with read_rtc: outside of it, at the test of its loop, or behind the
loop with its flag still to clear. -/
inductive RtcLine
  | outside
  | waiting
  | leaving
  deriving DecidableEq, Repr

/-- The kernel, and the line of read_rtc of the process of each terminal. -/
structure Readers where
  kernel : Kernel
  line : ℕ → RtcLine

inductive RtcEvent
  | interrupt
  | pit (cpu : Cpu)
  | call
  | turn

namespace Readers
variable (s : Readers)

/-- The terminal that has the processor. -/
def current : ℕ := s.kernel.currentTerm

def goto (line : RtcLine) : Readers :=
  { s with line := Function.update s.line s.current line }

/-- The flag of the running terminal goes down. -/
def clearFlag : Readers :=
  { s with kernel :=
    { s.kernel with rtcFlag := Function.update s.kernel.rtcFlag s.kernel.currentTerm 0 } }

end Readers

/-- Clock interrupts, switches of the timer, and steps of the running process: it calls read_rtc,
tests its flag, or clears it and returns. Reported is the terminal whose read returns. -/
def readers : System Readers RtcEvent (Option ℕ) where
  step s
    | .interrupt => (none,{ s with kernel := rtcInterrupt s.kernel })
    | .pit cpu => (none,{ s with kernel := (pitHandler cpu s.kernel).2 })
    | .call => (none,if s.line s.current = .outside then s.goto .waiting else s)
    | .turn =>
      match s.line s.current with
      | .outside => (none,s)
      | .waiting => (none,if s.kernel.rtcFlag s.current = 0 then s else s.goto .leaving)
      | .leaving => (some s.current,s.clearFlag.goto .outside)

/-- Nobody in read_rtc. -/
def Readers.idle (k : Kernel) : Readers := ⟨k,fun _ => .outside⟩

/-- The step of an event is one of the terminal `t` in read_rtc. -/
def OwnTurn (t : ℕ) (s : Readers) (a : RtcEvent) : Prop := a = .turn ∧ s.current = t

section
variable {s : Readers} {a : RtcEvent} {t : ℕ}

theorem pitHandler_rtcFlag (cpu : Cpu) (k : Kernel) :
    (pitHandler cpu k).2.rtcFlag = k.rtcFlag := by
  simp only [pitHandler]
  split_ifs <;> rfl

theorem rtcInterrupt_flag {k : Kernel} (ht : t < numTerm) : (rtcInterrupt k).rtcFlag t = 1 := by
  simp [rtcInterrupt, ht]

/-- Without a step of its own a read stays where it is, and only an interrupt moves its flag. -/
theorem readers_other (hin : s.line t ≠ .outside) (hown : ¬OwnTurn t s a) :
    (readers.next s a).line t = s.line t ∧
      (a ≠ .interrupt → (readers.next s a).kernel.rtcFlag t = s.kernel.rtcFlag t) ∧
      readers.out s a ≠ some t := by
  have hnone : (none : Option ℕ) ≠ some t := (Option.some_ne_none t).symm
  cases a with
  | interrupt => exact ⟨rfl,fun h => absurd rfl h,hnone⟩
  | pit cpu => exact ⟨rfl,fun _ => congrFun (pitHandler_rtcFlag cpu s.kernel) t,hnone⟩
  | call =>
    refine ⟨?_,fun _ => ?_,hnone⟩
    · simp only [System.next, readers]
      split_ifs with hout
      · have hne : t ≠ s.current := by
          rintro rfl
          exact hin hout
        exact Function.update_of_ne hne ..
      · rfl
    · simp only [System.next, readers]
      split_ifs <;> rfl
  | turn =>
    have hne : t ≠ s.current := fun h => hown ⟨rfl,h.symm⟩
    simp only [System.next, System.out, readers]
    cases s.line s.current with
    | outside => exact ⟨rfl,fun _ => rfl,hnone⟩
    | waiting =>
      simp only
      split_ifs
      · exact ⟨rfl,fun _ => rfl,hnone⟩
      · exact ⟨Function.update_of_ne hne ..,fun _ => rfl,hnone⟩
    | leaving =>
      refine ⟨Function.update_of_ne hne ..,fun _ => Function.update_of_ne hne ..,?_⟩
      exact fun h => hne (Option.some.inj h).symm

theorem readers_turn_waits (hline : s.line s.current = .waiting)
    (hflag : s.kernel.rtcFlag s.current = 0) : readers.step s .turn = (none,s) := by
  simp [readers, hline, hflag]

theorem readers_turn_leaves (hline : s.line s.current = .waiting)
    (hflag : s.kernel.rtcFlag s.current ≠ 0) :
    readers.step s .turn = (none,s.goto .leaving) := by
  simp [readers, hline, hflag]

theorem readers_turn_returns (hline : s.line s.current = .leaving) :
    readers.step s .turn = (some s.current,s.clearFlag.goto .outside) := by
  simp [readers, hline]

/-- A wait that finds its flag clear stays as it is; one that finds it set comes, in two steps
without others between them, to what the call does at once. -/
theorem readers_readRtc (hline : s.line s.current = .waiting) :
    match readRtc s.kernel with
    | none => readers.next s .turn = s
    | some (_,k') =>
      readers.run s [.turn,.turn] = ⟨k',Function.update s.line s.current .outside⟩ := by
  unfold readRtc
  split_ifs with hflag
  · simp only
    rw [System.next, readers_turn_waits hline hflag]
  · have hleaving : (s.goto .leaving).line (s.goto .leaving).current = .leaving :=
      Function.update_self ..
    have hline' : (s.goto .leaving).clearFlag.goto .outside =
        ⟨s.clearFlag.kernel,Function.update s.line s.current .outside⟩ := by
      simp [Readers.goto, Readers.clearFlag, Readers.current]
    simp only [System.run_cons, System.run_nil, System.next]
    rw [readers_turn_leaves hline hflag, readers_turn_returns hleaving, hline']
    rfl

/-! ### Freshness -/

/-- However things go on, the read of `t` returns after an interrupt only. -/
def Readers.Fresh (s : Readers) (t : ℕ) : Prop :=
  ∀ l a, readers.out (readers.run s l) a = some t → .interrupt ∈ l

theorem readers_out_leaving (h : readers.out s a = some t) :
    s.line t = .leaving ∧ s.current = t := by
  cases a with
  | interrupt => cases h
  | pit cpu => cases h
  | call => cases h
  | turn =>
    simp only [System.out, readers] at h
    cases hline : s.line s.current with
    | outside => simp [hline] at h
    | waiting => simp [hline] at h
    | leaving =>
      simp only [hline, Option.some.injEq] at h
      exact ⟨h ▸ hline,h⟩

/-- A read at its test with the flag clear stays there for as long as no interrupt comes. -/
theorem waits_until_interrupt (hline : s.line t = .waiting) (hflag : s.kernel.rtcFlag t = 0)
    {l : List RtcEvent} (hl : .interrupt ∉ l) :
    (readers.run s l).line t = .waiting ∧ (readers.run s l).kernel.rtcFlag t = 0 := by
  induction l generalizing s with
  | nil => exact ⟨hline,hflag⟩
  | cons a l ih =>
    have hkeeps : (readers.next s a).line t = .waiting ∧
        (readers.next s a).kernel.rtcFlag t = 0 := by
      by_cases hown : OwnTurn t s a
      · obtain ⟨rfl,rfl⟩ := hown
        rw [System.next, readers_turn_waits hline hflag]
        exact ⟨hline,hflag⟩
      · obtain ⟨hline',hflag',-⟩ := readers_other (by simp [hline]) hown
        exact ⟨hline'.trans hline,(hflag' (by rintro rfl; simp at hl)).trans hflag⟩
    exact ih hkeeps.1 hkeeps.2 fun h => hl (by simp [h])

/-- The call of the running process. -/
theorem readers_call (hout : s.line s.current = .outside) :
    readers.next s .call = s.goto .waiting := by
  simp [System.next, readers, hout]

/-- A call waits for an interrupt of its own exactly when it finds its flag clear. -/
theorem fresh_call_iff (hout : s.line s.current = .outside) :
    (readers.next s .call).Fresh s.current ↔ s.kernel.rtcFlag s.current = 0 := by
  have hwaiting : (s.goto .waiting).line s.current = .waiting := Function.update_self ..
  rw [readers_call hout]
  constructor
  · intro h
    by_contra hflag
    have hleaving : ((s.goto .waiting).goto .leaving).line s.current = .leaving :=
      Function.update_self ..
    have hturn : readers.next (s.goto .waiting) .turn = (s.goto .waiting).goto .leaving := by
      rw [System.next, readers_turn_leaves hwaiting hflag]
    have hreturn := h [.turn] .turn
    rw [System.run_cons, System.run_nil, hturn, System.out, readers_turn_returns hleaving]
      at hreturn
    simpa using hreturn rfl
  · intro hflag l a hret
    by_contra hl
    have hstill := (waits_until_interrupt hwaiting hflag hl).1
    rw [(readers_out_leaving hret).1] at hstill
    cases hstill

/-! ### No interrupt is missed -/

/-- How many of the recorded steps were steps of the terminal `t` in read_rtc. -/
def ownTurns (t : ℕ) (h : List (Move Readers RtcEvent (Option ℕ))) : ℕ :=
  h.countP fun m => (match m.event with | .turn => true | _ => false) && m.pre.current = t

/-- However things go on, the read of `t` has returned by the second step of its own. -/
def Readers.Wakes (s : Readers) (t : ℕ) : Prop :=
  ∀ l, 2 ≤ ownTurns t (readers.trace s l) → ∃ m ∈ readers.trace s l, m.out = some t

variable {h : List (Move Readers RtcEvent (Option ℕ))}

theorem ownTurns_own (hown : OwnTurn t s a) :
    ownTurns t (h ++ [readers.move s a]) = ownTurns t h+1 := by
  obtain ⟨rfl,rfl⟩ := hown
  simp [ownTurns, System.move]

theorem ownTurns_other (hown : ¬OwnTurn t s a) :
    ownTurns t (h ++ [readers.move s a]) = ownTurns t h := by
  cases a with
  | turn =>
    have hne : s.current ≠ t := fun h => hown ⟨rfl,h⟩
    simp [ownTurns, System.move, hne]
  | _ => simp [ownTurns, System.move]

/-- How far the read of `t` is by the number of its own steps since the interrupt. -/
structure Woken (t : ℕ) (h : List (Move Readers RtcEvent (Option ℕ))) (s : Readers) : Prop where
  waiting : ownTurns t h = 0 → s.line t = .waiting ∧ s.kernel.rtcFlag t ≠ 0
  leaving : ownTurns t h = 1 → s.line t = .leaving
  returned : 2 ≤ ownTurns t h → ∃ m ∈ h, m.out = some t

theorem Woken.other (ht : t < numTerm) (hw : Woken t h s) (hown : ¬OwnTurn t s a) :
    Woken t (h ++ [readers.move s a]) (readers.next s a) := by
  have hcount := ownTurns_other (h := h) hown
  refine ⟨fun hn => ?_,fun hn => ?_,fun hn => ?_⟩
  · obtain ⟨hline,hflag⟩ := hw.waiting (hcount ▸ hn)
    obtain ⟨hline',hflag',-⟩ := readers_other (by simp [hline]) hown
    refine ⟨hline'.trans hline,?_⟩
    by_cases hint : a = .interrupt
    · subst hint
      exact ne_of_eq_of_ne (rtcInterrupt_flag ht) Nat.one_ne_zero
    · rw [hflag' hint]
      exact hflag
  · have hline := hw.leaving (hcount ▸ hn)
    exact (readers_other (by simp [hline]) hown).1.trans hline
  · obtain ⟨m,hm,hout⟩ := hw.returned (hcount ▸ hn)
    exact ⟨m,by simp [hm],hout⟩

theorem Woken.own (hw : Woken t h s) (hown : OwnTurn t s a) :
    Woken t (h ++ [readers.move s a]) (readers.next s a) := by
  have hcount := ownTurns_own (h := h) hown
  obtain ⟨rfl,rfl⟩ := hown
  refine ⟨fun hn => absurd (hcount ▸ hn) (Nat.succ_ne_zero _),fun hn => ?_,fun hn => ?_⟩
  · obtain ⟨hline,hflag⟩ := hw.waiting (by omega)
    rw [System.next, readers_turn_leaves hline hflag]
    exact Function.update_self ..
  · rcases Nat.lt_or_ge (ownTurns s.current h) 2 with hone | htwo
    · have hline := hw.leaving (by omega)
      refine ⟨readers.move s .turn,by simp,?_⟩
      rw [System.move, System.out, readers_turn_returns hline]
    · obtain ⟨m,hm,hout⟩ := hw.returned htwo
      exact ⟨m,by simp [hm],hout⟩

/-- An interrupt wakes every read that waits for it. -/
theorem interrupt_wakes (ht : t < numTerm) (hline : s.line t = .waiting) :
    (readers.next s .interrupt).Wakes t := by
  intro l hturns
  have hstart : Woken t [] (readers.next s .interrupt) :=
    ⟨fun _ => ⟨hline,ne_of_eq_of_ne (rtcInterrupt_flag ht) Nat.one_ne_zero⟩,nofun,
      fun h => absurd h (by simp [ownTurns])⟩
  have hend := System.history (S := readers) (R := Woken t) (fun h s a hw => by
    by_cases hown : OwnTurn t s a
    · exact hw.own hown
    · exact hw.other ht hown) hstart l
  exact hend.returned hturns

/-! ### Runs -/

/-- In a run every call waits for an interrupt of its own, and no interrupt leaves a read asleep
that waits for it. -/
structure AwaitsTicks (s : Readers) (l : List RtcEvent) : Prop where
  fresh : ∀ p, p ++ [.call] <+: l →
    (readers.run s p).line (readers.run s p).current = .outside →
    (readers.run s (p ++ [.call])).Fresh (readers.run s p).current
  wakes : ∀ p, p ++ [.interrupt] <+: l → ∀ t < numTerm, (readers.run s p).line t = .waiting →
    (readers.run s (p ++ [.interrupt])).Wakes t

/-- The flag of a process that calls read_rtc is clear. -/
def ClearAtCall (s : Readers) (a : RtcEvent) : Prop :=
  a = .call → s.line s.current = .outside → s.kernel.rtcFlag s.current = 0

end

/-- On every run, from every state, reads wait for the next tick exactly when each call finds the
flag of its terminal clear. -/
theorem awaitsTicks_iff (s : Readers) (l : List RtcEvent) :
    AwaitsTicks s l ↔ readers.Along ClearAtCall s l := by
  rw [System.along_iff_prefix]
  constructor
  · rintro h p a hp rfl hout
    have hfresh := h.fresh p hp hout
    rw [System.run_snoc] at hfresh
    exact (fresh_call_iff hout).mp hfresh
  · intro h
    refine ⟨fun p hp hout => ?_,fun p _ t ht hline => ?_⟩
    · rw [System.run_snoc]
      exact (fresh_call_iff hout).mpr (h p .call hp rfl hout)
    · rw [System.run_snoc]
      exact interrupt_wakes ht hline

/-- A call after an interrupt that nobody was waiting for returns without another one. -/
theorem stale_call :
    let s := Readers.idle (initial (fun _ => PCB.zero) fun _ => 0)
    readers.out (readers.run s [.interrupt,.call,.turn]) .turn = some s.current ∧
      ¬AwaitsTicks s [.interrupt,.call] := by
  intro s
  have hin : s.current < numTerm := (initial_inRange (fun _ => PCB.zero) fun _ => 0).current
  have hflag : (readers.run s [.interrupt]).kernel.rtcFlag s.current ≠ 0 :=
    ne_of_eq_of_ne (rtcInterrupt_flag hin) Nat.one_ne_zero
  have hcall : readers.run s [.interrupt,.call] = (readers.next s .interrupt).goto .waiting :=
    readers_call (s := readers.next s .interrupt) rfl
  generalize hs : (readers.next s .interrupt).goto .waiting = w at hcall
  have hcurrent : w.current = s.current := by rw [← hs]; rfl
  have hwaiting : w.line w.current = .waiting := by
    rw [← hs]
    simp [Readers.goto, Readers.current]
  have hset : w.kernel.rtcFlag w.current ≠ 0 := by
    rw [hcurrent, ← hs]
    exact hflag
  constructor
  · have hleaving : (w.goto .leaving).line (w.goto .leaving).current = .leaving :=
      Function.update_self ..
    have hrun : readers.run s [.interrupt,.call,.turn] = w.goto .leaving := by
      rw [show [RtcEvent.interrupt,.call,.turn] = [.interrupt,.call] ++ [.turn] from rfl,
        System.run_snoc, hcall, System.next, readers_turn_leaves hwaiting hset]
    rw [hrun, System.out, readers_turn_returns hleaving]
    exact congrArg some hcurrent
  · intro h
    have hfresh := h.fresh [.interrupt] List.prefix_rfl rfl
    exact hflag ((fresh_call_iff rfl).mp hfresh)

end GameOfThreads
