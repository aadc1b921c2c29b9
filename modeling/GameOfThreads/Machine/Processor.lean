import Mathlib.Data.Nat.Notation
import Mathlib.Logic.Function.Basic
import Mathlib.Data.List.Basic

/-! The registers of a 32-bit processor with its stack, as far as calls, interrupts and returns
go. Memory is seen in words at the addresses of the stack, which does not reach the ends of the
address space. -/
namespace GameOfThreads.Machine

structure Processor where
  eax : ℕ
  ecx : ℕ
  edx : ℕ
  ebx : ℕ
  esp : ℕ
  ebp : ℕ
  esi : ℕ
  edi : ℕ
  eip : ℕ
  eflags : ℕ
  cs : ℕ
  ss : ℕ
  ds : ℕ
  es : ℕ
  fs : ℕ
  gs : ℕ
  words : ℕ → ℕ

/-- What an interrupt finds in its gate: where to go, and whether further interrupts wait. -/
structure Entrance where
  selector : ℕ
  offset : ℕ
  masks : Bool
  deriving DecidableEq

namespace Processor
variable (s : Processor)

def push (v : ℕ) : Processor :=
  { s with esp := s.esp-4, words := Function.update s.words (s.esp-4) v }

def top : ℕ := s.words s.esp

def drop : Processor := { s with esp := s.esp+4 }

/-- Words pushed one after the other, the head of the list last. -/
def pushes (l : List ℕ) : Processor := l.foldr (fun v s => s.push v) s

def pushal : Processor :=
  s.pushes [s.edi,s.esi,s.ebp,s.esp,s.ebx,s.edx,s.ecx,s.eax]

/-- The stored stack pointer is skipped. -/
def popal : Processor :=
  let s := { s.drop with edi := s.top }
  let s := { s.drop with esi := s.top }
  let s := { s.drop with ebp := s.top }
  let s := s.drop
  let s := { s.drop with ebx := s.top }
  let s := { s.drop with edx := s.top }
  let s := { s.drop with ecx := s.top }
  { s.drop with eax := s.top }

def popfl : Processor := { s.drop with eflags := s.top }

def ret : Processor := { s.drop with eip := s.top }

/-- The end of a function that keeps its frame in ebp. -/
def leave : Processor :=
  let s := { s with esp := s.ebp }
  { s.drop with ebp := s.top }

/-- A near call, up to the return of what is called. -/
def call (returnAddress : ℕ) (f : Processor → Processor) : Processor :=
  (f (s.push returnAddress)).ret

/-- The flags that an interrupt leaves set. -/
def flagsMask (masks : Bool) : ℕ := if masks then 0xFFFCBCFF else 0xFFFCBEFF

/-- What an interrupt stores, the last word first: from ring 3 the stack as well. -/
def frame : List ℕ :=
  [s.eip,s.cs,s.eflags] ++ if s.cs % 4 = 3 then [s.esp,s.ss] else []

/-- The stack that an interrupt goes on: from ring 3 that of the task state. -/
def stackTop (esp0 : ℕ) : ℕ := if s.cs % 4 = 3 then esp0 else s.esp

/-- An interrupt through a gate to ring 0. -/
def interrupt (gate : Entrance) (esp0 ss0 : ℕ) : Processor :=
  { { s with
      esp := s.stackTop esp0, ss := if s.cs % 4 = 3 then ss0 else s.ss }.pushes s.frame with
    cs := gate.selector, eip := gate.offset, eflags := s.eflags &&& flagsMask gate.masks }

/-- The return from it. To an outer ring it gives the stack back. -/
def iret : Processor :=
  let ring := s.cs % 4
  let s := { s.drop with eip := s.top }
  let s := { s.drop with cs := s.top }
  let s := { s.drop with eflags := s.top }
  if s.cs % 4 > ring then
    let s' := s.drop
    { s'.drop with esp := s.top, ss := s'.top }
  else s

/-- The words from the stack pointer on, the last one pushed first. -/
def Stacked (l : List ℕ) : Prop := ∀ i (hi : i < l.length), s.words (s.esp+4*i) = l[i]

/-- The stack from the stack pointer on is as it was. -/
structure Above (s s' : Processor) : Prop where
  esp : s'.esp = s.esp
  words : ∀ a, s.esp ≤ a → s'.words a = s.words a

variable {s} {s' : Processor} {l r : List ℕ} {v : ℕ}

theorem stacked_nil : s.Stacked [] := fun _ hi => absurd hi (Nat.not_lt_zero _)

theorem push_stacked (h : s.Stacked l) (hroom : 4 ≤ s.esp) : (s.push v).Stacked (v :: l) := by
  intro i hi
  cases i with
  | zero => exact Function.update_self ..
  | succ i =>
    have hword := h i (Nat.lt_of_succ_lt_succ hi)
    have hplace : s.esp-4+4*(i+1) = s.esp+4*i := by omega
    simp only [push, hplace, List.getElem_cons_succ]
    rw [← hword]
    apply Function.update_of_ne
    omega

theorem pushes_cons : s.pushes (v :: l) = (s.pushes l).push v := rfl

/-- Pushing changes the stack pointer and words only. -/
theorem pushes_eq (s : Processor) (l : List ℕ) :
    s.pushes l = { s with esp := s.esp-4*l.length, words := (s.pushes l).words } := by
  induction l with
  | nil => rfl
  | cons v l ih =>
    have hplace : s.esp-4*l.length-4 = s.esp-4*(l.length+1) := by omega
    rw [pushes_cons, push, ih, List.length_cons, hplace]

theorem pushes_rest (s : Processor) (l : List ℕ) :
    s.pushes l = { s with esp := (s.pushes l).esp, words := (s.pushes l).words } := by
  have heq := pushes_eq s l
  rw [heq]

theorem pushes_esp (s : Processor) (l : List ℕ) : (s.pushes l).esp = s.esp-4*l.length :=
  congrArg esp (pushes_eq s l)

theorem pushes_stacked (h : s.Stacked r) (hroom : 4*l.length ≤ s.esp) :
    (s.pushes l).Stacked (l ++ r) := by
  induction l with
  | nil => exact h
  | cons v l ih =>
    rw [List.length_cons] at hroom
    have hroom' : 4 ≤ (s.pushes l).esp := by
      rw [pushes_esp]
      omega
    exact push_stacked (ih (by omega)) hroom'

/-- What is not between the old and the new stack pointer stays. -/
theorem pushes_words {a : ℕ} (hroom : 4*l.length ≤ s.esp)
    (ha : s.esp ≤ a ∨ a < s.esp-4*l.length) : (s.pushes l).words a = s.words a := by
  induction l with
  | nil => rfl
  | cons v l ih =>
    rw [List.length_cons] at hroom ha
    rw [← ih (by omega) (by omega), pushes_cons, push]
    apply Function.update_of_ne
    rw [pushes_esp]
    omega

/-- An interrupt changes the registers that it stores. -/
theorem interrupt_eq (s : Processor) (gate : Entrance) (esp0 ss0 : ℕ) :
    s.interrupt gate esp0 ss0 = { s with
      esp := s.stackTop esp0-4*s.frame.length, ss := if s.cs % 4 = 3 then ss0 else s.ss
      cs := gate.selector, eip := gate.offset, eflags := s.eflags &&& flagsMask gate.masks
      words := (s.interrupt gate esp0 ss0).words } := by
  simp only [interrupt]
  rw [pushes_eq]

theorem frame_length : s.frame.length ≤ 5 ∧ (s.cs % 4 ≠ 3 → s.frame.length = 3) := by
  unfold frame
  split_ifs with houter
  · exact ⟨Nat.le_refl _,fun hinner => absurd houter hinner⟩
  · exact ⟨Nat.le_of_ble_eq_true rfl,fun _ => rfl⟩

theorem interrupt_stacked (gate : Entrance) {esp0 : ℕ} (ss0 : ℕ) (hroom : 20 ≤ s.stackTop esp0) :
    (s.interrupt gate esp0 ss0).Stacked s.frame := by
  have hlength := (frame_length (s := s)).1
  have hpushed : ({ s with
      esp := s.stackTop esp0, ss := if s.cs % 4 = 3 then ss0 else s.ss }.pushes s.frame).Stacked
        (s.frame ++ []) :=
    pushes_stacked stacked_nil (show 4*s.frame.length ≤ s.stackTop esp0 by omega)
  rw [List.append_nil] at hpushed
  exact hpushed

/-- Only the frame is stored. -/
theorem interrupt_words (gate : Entrance) {esp0 : ℕ} (ss0 : ℕ) (hroom : 20 ≤ s.stackTop esp0)
    {a : ℕ} (ha : s.stackTop esp0 ≤ a ∨ a < s.stackTop esp0-4*s.frame.length) :
    (s.interrupt gate esp0 ss0).words a = s.words a := by
  have hlength := (frame_length (s := s)).1
  exact pushes_words (s := { s with
    esp := s.stackTop esp0, ss := if s.cs % 4 = 3 then ss0 else s.ss })
    (show 4*s.frame.length ≤ s.stackTop esp0 by omega) ha

/-- The return from a function with its frame in ebp. -/
theorem leave_ret (s : Processor) : s.leave.ret =
    { s with ebp := s.words s.ebp, eip := s.words (s.ebp+4), esp := s.ebp+8 } := rfl

namespace Stacked

theorem top (h : s.Stacked (v :: l)) : s.top = v := h 0 (Nat.succ_pos _)

theorem drop (h : s.Stacked (v :: l)) : s.drop.Stacked l := by
  intro i hi
  have hword := h (i+1) (Nat.succ_lt_succ hi)
  rw [List.getElem_cons_succ] at hword
  rw [← hword]
  exact congrArg s.words (show s.esp+4+4*i = s.esp+4*(i+1) by omega)

/-- The rest of the stack, from its place on. -/
theorem after (h : s.Stacked (l ++ r)) (hesp : s'.esp = s.esp+4*l.length)
    (hwords : s'.words = s.words) : s'.Stacked r := by
  intro i hi
  have hword := h (l.length+i) (by rw [List.length_append]; omega)
  rw [List.getElem_append_right (Nat.le_add_right ..)] at hword
  simp only [Nat.add_sub_cancel_left] at hword
  rw [hwords, ← hword, hesp]
  exact congrArg s.words (by omega)

/-- What leaves the words above alone leaves the stack. -/
theorem above (h : s.Stacked l) (hs : Above s s') : s'.Stacked l := by
  intro i hi
  rw [hs.esp, hs.words _ (Nat.le_add_right ..)]
  exact h i hi

end Stacked

/-- The registers come back from where they were stored. -/
theorem popal_eq {edi esi ebp skipped ebx edx ecx eax : ℕ}
    (h : s.Stacked (edi :: esi :: ebp :: skipped :: ebx :: edx :: ecx :: eax :: l)) :
    s.popal = { s with
      edi := edi, esi := esi, ebp := ebp, ebx := ebx, edx := edx, ecx := ecx, eax := eax
      esp := s.esp+32 } := by
  have hedi := h.top
  have hesi := h.drop.top
  have hebp := h.drop.drop.top
  have hebx := h.drop.drop.drop.drop.top
  have hedx := h.drop.drop.drop.drop.drop.top
  have hecx := h.drop.drop.drop.drop.drop.drop.top
  have heax := h.drop.drop.drop.drop.drop.drop.drop.top
  simp only [top, drop] at hedi hesi hebp hebx hedx hecx heax
  simp only [popal, top, drop, hedi, hesi, hebp, hebx, hedx, hecx, heax]

theorem popfl_eq (h : s.Stacked (v :: l)) : s.popfl = { s with eflags := v, esp := s.esp+4 } := by
  have hv := h.top
  simp only [top] at hv
  simp only [popfl, top, drop, hv]

/-- The return to a context whose frame is on the stack. -/
theorem iret_eq {old : Processor} (h : s.Stacked (old.frame ++ l)) (hring : s.cs % 4 = 0)
    (hold : old.cs % 4 = 0 ∨ old.cs % 4 = 3) :
    s.iret = { s with
      eip := old.eip, cs := old.cs, eflags := old.eflags
      esp := if old.cs % 4 = 3 then old.esp else s.esp+12
      ss := if old.cs % 4 = 3 then old.ss else s.ss } := by
  rcases hold with hinner | houter
  · have hframe : old.frame = [old.eip,old.cs,old.eflags] := by
      rw [frame, if_neg (by omega), List.append_nil]
    rw [hframe] at h
    have heip := h.top
    have hcs := Stacked.top (Stacked.drop h)
    have hflags := Stacked.top (Stacked.drop (Stacked.drop h))
    simp only [top, drop] at heip hcs hflags
    simp only [iret, top, drop, heip, hcs, hflags, hring, hinner]
    rfl
  · have hframe : old.frame = [old.eip,old.cs,old.eflags,old.esp,old.ss] := by
      rw [frame, if_pos houter]
      rfl
    rw [hframe] at h
    have heip := h.top
    have hcs := Stacked.top (Stacked.drop h)
    have hflags := Stacked.top (Stacked.drop (Stacked.drop h))
    have hesp := Stacked.top (Stacked.drop (Stacked.drop (Stacked.drop h)))
    have hss := Stacked.top (Stacked.drop (Stacked.drop (Stacked.drop (Stacked.drop h))))
    simp only [top, drop] at heip hcs hflags hesp hss
    simp only [iret, top, drop, heip, hcs, hflags, hesp, hss, hring, houter]
    rfl

end Processor
end GameOfThreads.Machine
