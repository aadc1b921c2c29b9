import GameOfThreads.TerminalInput

/-! One line for one read. As long as no key touches a line that has been submitted and not
yet been read, the buffer of a terminal holds either a line in the making or one line with
its newline, and the reads get the submitted lines one by one. A key that does touch it is
merged into the line of the read that waits. -/
namespace GameOfThreads
open Machine

/-- A line without its newline, with room for one. -/
def Plain (line : List UInt8) : Prop := newline ∉ line ∧ line.length < keyBuffSize

/-- A line in the making, or one line that waits with its newline for a read. -/
structure Orderly (i : Input) : Prop where
  typing : i.enterFlag = 0 → Plain i.line
  waiting : i.enterFlag ≠ 0 → i.readWanted ≠ 0 ∧ ∃ line, i.line = line ++ [newline] ∧ Plain line
  history : ∀ r, Plain (i.history r)

/-- A press that does something to the line. -/
def Key.Changes (i : Input) : Key → Prop
  | .char _ => i.line.length < keyBuffSize-1
  | .tab => i.line.length+3 < keyBuffSize
  | .erase => i.line ≠ []
  | .enter _ => True
  | .history _ => True
  | .none => False

/-- A request that leaves a submitted line alone. -/
def Calm (i : Input) (r : Request) : Prop :=
  i.enterFlag ≠ 0 → ∀ key, r = .press key → ¬key.Changes i

/-- No request types a newline. -/
def Request.Typable (r : Request) : Prop := ∀ c, r = .press (.char c) → c ≠ newline

/-- The line that is submitted and not yet read. -/
def Input.pending (i : Input) : List (List UInt8) :=
  if i.enterFlag = 0 then [] else [i.line.dropLast]

/-- What Enter submits to a pending read. -/
def submits (i : Input) : Request → List (List UInt8)
  | .press (.enter _) => if i.readWanted ≠ 0 then [i.line] else []
  | _ => []

/-- What a read gets, with its limit. -/
def receives (i : Input) (r : Request) : List (ℕ × List UInt8) :=
  match r.limit with
  | some limit => (editor.out i r).toList.map fun bytes => (limit,bytes)
  | none => []

/-- A read gets a line and its newline, as far as its limit reaches. -/
def Handed (line : List UInt8) (got : ℕ × List UInt8) : Prop :=
  got.2 = (line ++ [newline]).take got.1

/-! ### The line editor -/

theorem Plain.nil : Plain [] := ⟨List.not_mem_nil,by decide⟩

theorem Plain.sublist {line line' : List UInt8} (h : Plain line) (hsub : line'.Sublist line) :
    Plain line' := ⟨fun hmem => h.1 (hsub.subset hmem),hsub.length_le.trans_lt h.2⟩

theorem Plain.append {line typed : List UInt8} (h : Plain line) (htyped : newline ∉ typed)
    (hroom : line.length+typed.length < keyBuffSize) : Plain (line ++ typed) := by
  refine ⟨?_,?_⟩
  · rw [List.mem_append, not_or]
    exact ⟨h.1,htyped⟩
  · rwa [List.length_append]

/-- What ends with something else than a newline is not a submitted line. -/
theorem not_ends {line : List UInt8} {c : UInt8} (hc : c ≠ newline) :
    ¬∃ line', line ++ [c] = line' ++ [newline] ∧ Plain line' := by
  rintro ⟨line',heq,-⟩
  exact hc (List.append_inj' heq rfl |>.2 |> List.singleton_injective)

section
variable {i : Input} {r : Request}

theorem Plain.ne_entered {line line' : List UInt8} (h : Plain line) :
    line ≠ line' ++ [newline] := by
  rintro rfl
  exact h.1 (by simp)

theorem press_unchanged {key : Key} (h : ¬key.Changes i) : i.press key = i := by
  cases key with
  | char c => exact if_neg h
  | tab => exact if_neg h
  | erase =>
    have hnil : i.line = [] := not_not.mp h
    rw [Input.press, hnil, List.dropLast_nil, ← hnil]
  | enter row => exact absurd trivial h
  | history row => exact absurd trivial h
  | none => rfl

/-- A press while a line is in the making. -/
theorem press_typing {key : Key} (hi : Orderly i) (hflag : i.enterFlag = 0)
    (hkey : ∀ c, key = .char c → c ≠ newline) : Orderly (i.press key) := by
  have hline := hi.typing hflag
  have hedit : ∀ line, Plain line → Orderly { i with line := line } := fun line hplain =>
    ⟨fun _ => hplain,fun h => absurd hflag h,hi.history⟩
  cases key with
  | char c =>
    simp only [Input.press]
    split_ifs with hroom
    · have hc : newline ∉ [c] :=
        List.not_mem_cons_of_ne_of_not_mem (hkey c rfl).symm List.not_mem_nil
      exact hedit _ (hline.append hc (Nat.add_lt_of_lt_sub hroom))
    · exact hi
  | tab =>
    simp only [Input.press]
    split_ifs with hroom
    · exact hedit _ (hline.append (by decide) hroom)
    · exact hi
  | erase => exact hedit _ (hline.sublist (List.dropLast_sublist _))
  | enter row =>
    have hhistory : ∀ r, Plain (Function.update i.history row
        (i.line.takeWhile (· ≠ noke)) r) := by
      intro r
      by_cases hr : r = row
      · rw [hr, Function.update_self]
        exact hline.sublist (List.takeWhile_sublist _)
      · rw [Function.update_of_ne hr]
        exact hi.history r
    simp only [Input.press]
    split_ifs with hwanted
    · exact ⟨fun h => absurd h Nat.one_ne_zero,fun _ => ⟨hwanted,i.line,rfl,hline⟩,hhistory⟩
    · exact ⟨fun _ => Plain.nil,fun h => absurd rfl h,hhistory⟩
  | history row => exact hedit _ (hi.history row)
  | none => exact hi

/-- A press on a submitted line. -/
theorem press_waiting {key : Key} (hi : Orderly i) (hflag : i.enterFlag ≠ 0)
    (hkey : ∀ c, key = .char c → c ≠ newline) : Orderly (i.press key) ↔ ¬key.Changes i := by
  obtain ⟨hwanted,line,hline,hplain⟩ := hi.waiting hflag
  have hbroken : ∀ i' : Input, i'.enterFlag ≠ 0 →
      (¬∃ line', i'.line = line' ++ [newline] ∧ Plain line') → ¬Orderly i' := by
    intro i' hflag' hnone h
    exact hnone (h.waiting hflag').2
  cases key with
  | char c =>
    simp only [Input.press, Key.Changes]
    split_ifs with hroom
    · exact iff_of_false (hbroken _ hflag (not_ends (hkey c rfl))) fun h => h hroom
    · exact iff_of_true hi hroom
  | tab =>
    simp only [Input.press, Key.Changes]
    split_ifs with hroom
    · refine iff_of_false (hbroken _ hflag ?_) fun h => h hroom
      have hlast : i.line ++ [space,space,space] = (i.line ++ [space,space]) ++ [space] := by simp
      rw [hlast]
      exact not_ends (by decide)
    · exact iff_of_true hi hroom
  | erase =>
    refine iff_of_false (hbroken _ hflag ?_) fun h => h ?_
    · rintro ⟨line',heq,-⟩
      have herased : (i.press .erase).line = line := by
        rw [Input.press, hline, List.dropLast_concat]
      rw [herased] at heq
      exact hplain.ne_entered heq
    · rw [Key.Changes, hline]
      exact List.concat_ne_nil _ _
  | enter row =>
    refine iff_of_false (hbroken _ ?_ ?_) fun h => h trivial
    · simp only [Input.press, if_pos hwanted]
      exact Nat.one_ne_zero
    · simp only [Input.press, if_pos hwanted]
      rintro ⟨line',heq,hplain'⟩
      have hsame := (List.append_inj' heq rfl).1
      exact hplain'.1 (by simp [← hsame, hline])
  | history row =>
    refine iff_of_false (hbroken _ hflag ?_) fun h => h trivial
    rintro ⟨line',heq,-⟩
    exact (hi.history row).ne_entered heq
  | none => exact iff_of_true hi id

theorem ask_orderly (hi : Orderly i) : Orderly i.ask where
  typing := hi.typing
  waiting h := ⟨Nat.one_ne_zero,(hi.waiting h).2⟩
  history := hi.history

theorem look_orderly (hi : Orderly i) (limit : ℕ) : Orderly (i.look limit).2 := by
  unfold Input.look
  split_ifs
  · exact hi
  · exact ⟨fun _ => Plain.nil,fun h => absurd rfl h,hi.history⟩

/-- Order is kept exactly by the requests that leave submitted lines alone. -/
theorem editor_orderly (hi : Orderly i) (hr : r.Typable) :
    Orderly (editor.next i r) ↔ Calm i r := by
  cases r with
  | press key =>
    have hkey : ∀ c, key = .char c → c ≠ newline := by
      rintro c rfl
      exact hr c rfl
    by_cases hflag : i.enterFlag = 0
    · exact iff_of_true (press_typing hi hflag hkey) fun h => absurd hflag h
    · refine (press_waiting hi hflag hkey).trans ⟨?_,fun h => h hflag key rfl⟩
      rintro h - key' ⟨⟩
      exact h
  | ask limit =>
    refine iff_of_true ?_ fun _ key h => by cases h
    cases limit with
    | none => exact ask_orderly hi
    | some limit => exact look_orderly (ask_orderly hi) limit
  | look limit => exact iff_of_true (look_orderly hi limit) fun _ key h => by cases h

/-- A loop that looks at the flag takes the line that is pending, or nothing. -/
theorem look_law (hi : Orderly i) (limit : ℕ) :
    ∃ taken, i.pending = taken ++ (i.look limit).2.pending ∧
      List.Forall₂ Handed taken ((i.look limit).1.toList.map fun bytes => (limit,bytes)) := by
  unfold Input.look
  by_cases hflag : i.enterFlag = 0
  · rw [if_pos hflag]
    exact ⟨[],rfl,.nil⟩
  · obtain ⟨-,line,hline,-⟩ := hi.waiting hflag
    rw [if_neg hflag]
    refine ⟨[line],?_,.cons ?_ .nil⟩
    · rw [Input.pending, if_neg hflag, hline, List.dropLast_concat]
      rfl
    · rw [Handed, hline]

/-- A press submits what becomes pending. -/
theorem press_law {key : Key} (hcalm : Calm i (.press key)) :
    i.pending ++ submits i (.press key) = (i.press key).pending := by
  by_cases hflag : i.enterFlag = 0
  · have hnone : i.pending = [] := if_pos hflag
    rw [hnone, List.nil_append]
    cases key with
    | enter row =>
      simp only [submits, Input.press]
      split_ifs with hwanted
      · rw [Input.pending, if_neg Nat.one_ne_zero, List.dropLast_concat]
      · rfl
    | char c =>
      simp only [submits, Input.press]
      split_ifs <;> exact (if_pos hflag).symm
    | tab =>
      simp only [submits, Input.press]
      split_ifs <;> exact (if_pos hflag).symm
    | erase => exact (if_pos hflag).symm
    | history row => exact (if_pos hflag).symm
    | none => exact (if_pos hflag).symm
  · have hsame := hcalm hflag key rfl
    rw [press_unchanged hsame]
    cases key with
    | enter row => exact absurd trivial hsame
    | _ => exact List.append_nil _

/-- Lines pass through the line editor in order: what is pending and what is submitted is
what reads get and what stays pending. -/
theorem editor_law (hi : Orderly i) (hcalm : Calm i r) :
    ∃ taken, i.pending ++ submits i r = taken ++ (editor.next i r).pending ∧
      List.Forall₂ Handed taken (receives i r) := by
  cases r with
  | press key => exact ⟨[],press_law hcalm,.nil⟩
  | ask limit =>
    cases limit with
    | none => exact ⟨[],List.append_nil _,.nil⟩
    | some limit =>
      obtain ⟨taken,hpending,hhanded⟩ := look_law (ask_orderly hi) limit
      exact ⟨taken,(List.append_nil _).trans hpending,hhanded⟩
  | look limit =>
    obtain ⟨taken,hpending,hhanded⟩ := look_law hi limit
    exact ⟨taken,(List.append_nil _).trans hpending,hhanded⟩

end

/-! ### The kernel -/

theorem scancode_newline : ∀ table < 4, newline ∉ scancode table := by decide +kernel

/-- A character in none of the tables is typed by no key. -/
theorem getchar_ne {c : UInt8} (hc : c ≠ noke) (h : ∀ table < 4, c ∉ scancode table) (code : ℕ)
    (k : Kernel) : getchar code k ≠ c := by
  have hentry : ∀ table < 4, (scancode table).getD code noke ≠ c := by
    intro table htable heq
    by_cases hcode : code < (scancode table).length
    · rw [List.getD_eq_getElem _ _ hcode] at heq
      exact h table htable (heq ▸ List.getElem_mem hcode)
    · rw [List.getD_eq_default _ _ (Nat.le_of_not_lt hcode)] at heq
      exact hc heq.symm
  unfold getchar
  split_ifs
  · exact hentry 0 (by omega)
  · exact hentry 1 (by omega)
  · exact hentry 2 (by omega)
  · exact hentry 3 (by omega)

theorem key_typable {k : Kernel} {pressed : ℕ} {c : UInt8} (h : k.key pressed = .char c) :
    c ≠ newline := by
  rw [(key_getchar h).1]
  exact getchar_ne (by decide) scancode_newline pressed k

/-- Every terminal holds a line in the making or one that waits. -/
def Kernel.Orderly (k : Kernel) : Prop := ∀ t, GameOfThreads.Orderly (k.input t)

/-- No key changes a line that has been submitted and not yet been read. -/
def Undisturbed (k : Kernel) (op : Op) : Prop :=
  ∀ pressed cpu, op = .key pressed cpu → (k.terminal k.viewingTerm).enterFlag ≠ 0 →
    ¬(k.key pressed).Changes (k.input k.viewingTerm)

section
variable {fs : FileSystem} {k : Kernel} {op : Op}

theorem request_typable {t : ℕ} {r : Request} (h : k.request op = some (t,r)) : r.Typable := by
  rintro c rfl
  obtain ⟨pressed,cpu,-,-,hkey⟩ := request_press h
  exact key_typable hkey.symm

theorem Undisturbed.calm (h : Undisturbed k op) {t : ℕ} {r : Request}
    (hrequest : k.request op = some (t,r)) : Calm (k.input t) r := by
  rintro hflag key rfl
  obtain ⟨pressed,cpu,hop,rfl,rfl⟩ := request_press hrequest
  exact h pressed cpu hop hflag

theorem Orderly.line_length {i : Input} (hi : Orderly i) : i.line.length ≤ keyBuffSize := by
  by_cases hflag : i.enterFlag = 0
  · exact (hi.typing hflag).2.le
  · obtain ⟨-,line,hline,hplain⟩ := hi.waiting hflag
    rw [hline, List.length_append]
    exact hplain.2

theorem Undisturbed.fits (h : Undisturbed k op) (hk : k.Orderly) : KeyFits k op := by
  intro pressed cpu hop
  have hlength := (hk k.viewingTerm).line_length
  rw [Kernel.input_line_length] at hlength
  refine ⟨hlength,?_⟩
  rintro rfl
  by_cases hflag : (k.terminal k.viewingTerm).enterFlag = 0
  · have hroom := ((hk k.viewingTerm).typing hflag).2
    rwa [Kernel.input_line_length] at hroom
  · exact absurd trivial (h 0x1C cpu hop hflag)

/-- A newline that does not fit cuts the line: it lands in the index. -/
theorem endLine_cut {term : ℕ} (h : (k.terminal term).keyboardBufIdx = keyBuffSize) :
    (endLine term k).input = Function.update k.input term
      { k.input term with line := (k.input term).line.take 11, enterFlag := 1 } := by
  have hcut : (endLine term k).terminal term =
      { k.terminal term with enterFlag := 1, keyboardBufIdx := 11 } := by
    simp [endLine, storeKey, Terminal.setEnterFlag, Terminal.storeKey, h, Terminal.incIdx, newline]
  have hline : (k.input term).line.take 11 =
      (List.range 11).map (k.terminal term).keyboardBuffer := by
    rw [Kernel.input, Terminal.input, h]
    simp only
    rw [← List.map_take, List.take_range]
    rfl
  funext t
  by_cases ht : t = term
  · rw [ht, Function.update_self, hline, Kernel.input, hcut]
    rfl
  · rw [Function.update_of_ne ht, Kernel.input, (endLine_overflow h).2.2 t ht]
    rfl

theorem enterPress_cut (h : (k.terminal k.viewingTerm).keyboardBufIdx = keyBuffSize)
    (hwanted : (k.input k.viewingTerm).readWanted ≠ 0) :
    ((enterPress k).input k.viewingTerm).line = (k.input k.viewingTerm).line.take 11 ∧
      ((enterPress k).input k.viewingTerm).enterFlag = 1 := by
  have hcut := endLine_cut h
  have hidx := (endLine_overflow h).2.1
  have hterm := congrFun hcut k.viewingTerm
  rw [Function.update_self] at hterm
  rw [enterPress_eq, submitLine_input (by omega) (by rw [hidx]; decide) rfl, Function.update_self,
    hterm]
  simp only
  rw [if_pos hwanted]
  exact ⟨rfl,rfl⟩

/-- Enter on a full buffer leaves a line without its newline. -/
theorem overflow_disorder (fs : FileSystem) (cpu : Cpu) (hk : k.Orderly)
    (h : (k.terminal k.viewingTerm).keyboardBufIdx = keyBuffSize) :
    ¬((kernel fs).next k (.key 0x1C cpu)).Orderly := by
  have hlength := k.input_line_length k.viewingTerm
  rw [h] at hlength
  have hflag : (k.input k.viewingTerm).enterFlag ≠ 0 := by
    intro hclear
    exact absurd hlength (Nat.ne_of_lt ((hk _).typing hclear).2)
  obtain ⟨hwanted,line,hline,hplain⟩ := (hk k.viewingTerm).waiting hflag
  obtain ⟨hcut,hset⟩ := enterPress_cut (k := { k with interrupts := false }) h hwanted
  have hshort : (k.input k.viewingTerm).line.take 11 = line.take 11 := by
    rw [hline, List.length_append] at hlength
    rw [hline, List.take_append_of_le_length]
    unfold keyBuffSize at hlength
    simp only [List.length_singleton] at hlength
    omega
  intro hnext
  have hset' : (((kernel fs).next k (.key 0x1C cpu)).input k.viewingTerm).enterFlag ≠ 0 :=
    hset.trans_ne Nat.one_ne_zero
  obtain ⟨-,line',hline',-⟩ := (hnext k.viewingTerm).waiting hset'
  have hbroken : line.take 11 = line' ++ [newline] := (hshort.symm.trans hcut.symm).trans hline'
  exact (hplain.sublist (List.take_sublist 11 line)).ne_entered hbroken

/-- Order is kept exactly by the events that leave submitted lines alone. -/
theorem step_orderly (fs : FileSystem) (hop : op.Proper) (hin : k.InRange) (hk : k.Orderly) :
    ((kernel fs).next k op).Orderly ↔ Undisturbed k op := by
  by_cases hfits : KeyFits k op
  · rw [Kernel.Orderly, step_input fs hop hin hfits]
    constructor
    · rintro hnext pressed cpu rfl hflag hchanges
      have hrequest : k.request (.key pressed cpu) =
          some (k.viewingTerm,.press (k.key pressed)) := rfl
      have hview := hnext k.viewingTerm
      rw [hrequest, serve, Function.update_self] at hview
      exact (editor_orderly (hk _) (request_typable hrequest)).mp hview hflag _ rfl hchanges
    · intro hcalm t
      cases hrequest : k.request op with
      | none => exact hk t
      | some request =>
        obtain ⟨u,r⟩ := request
        by_cases ht : t = u
        · subst ht
          rw [serve, Function.update_self]
          exact (editor_orderly (hk t) (request_typable hrequest)).mpr (hcalm.calm hrequest)
        · rw [serve, Function.update_of_ne ht]
          exact hk t
  · refine iff_of_false ?_ fun h => hfits (h.fits hk)
    simp only [KeyFits, not_forall] at hfits
    obtain ⟨pressed,cpu,rfl,hfull⟩ := hfits
    have hlength := (hk k.viewingTerm).line_length
    rw [Kernel.input_line_length] at hlength
    obtain ⟨rfl,hidx⟩ : pressed = 0x1C ∧
        (k.terminal k.viewingTerm).keyboardBufIdx = keyBuffSize := by
      rw [not_and_or, Classical.not_imp] at hfull
      omega
    exact overflow_disorder fs cpu hk hidx

end

/-! ### Runs -/

/-- The line that a step submits on terminal `t`: Enter is pressed there while a read is
wanted. -/
def submitted (t : ℕ) (m : Move Kernel Op Out) : List (List UInt8) :=
  match requestTo t m with
  | some r => submits (m.pre.input t) r
  | none => []

/-- What a terminal_read that returns with a step gets on terminal `t`, with its limit. -/
def received (t : ℕ) (m : Move Kernel Op Out) : List (ℕ × List UInt8) :=
  match (requestTo t m).bind Request.limit, m.out with
  | some limit,.reply (.done _ bytes) => [(limit,bytes)]
  | _,_ => []

section
variable {fs : FileSystem} {k : Kernel} {op : Op}

theorem received_eq (t : ℕ) (k : Kernel) (op : Op) :
    received t ((kernel fs).move k op) =
      match requestTo t ((kernel fs).move k op) with
      | some r => receives (k.input t) r
      | none => [] := by
  unfold received
  cases hrequest : requestTo t ((kernel fs).move k op) with
  | none => rfl
  | some r =>
    have hto : k.request op = some (t,r) := requestTo_eq_some.mp hrequest
    simp only [Option.bind_some, receives]
    cases hlimit : r.limit with
    | none => rfl
    | some limit =>
      have hout : ((kernel fs).move k op).out = .reply (delivery (editor.out (k.input t) r)) :=
        step_delivery fs hto hlimit
      rw [hout]
      cases editor.out (k.input t) r <;> rfl

/-- A step takes lines from what is pending and adds those that it submits. -/
theorem step_law (fs : FileSystem) (t : ℕ) (hop : op.Proper) (hin : k.InRange) (hk : k.Orderly)
    (hcalm : Undisturbed k op) :
    ∃ taken, (k.input t).pending ++ submitted t ((kernel fs).move k op) =
        taken ++ (((kernel fs).next k op).input t).pending ∧
      List.Forall₂ Handed taken (received t ((kernel fs).move k op)) := by
  have hnext := congrFun (step_input fs hop hin (hcalm.fits hk)) t
  have hmove := serve_requestTo k.input t ((kernel fs).move k op)
  rw [received_eq, hnext]
  simp only [submitted]
  have hserve : serve k.input (k.request op) t =
      editor.run (k.input t) (requests t [(kernel fs).move k op]) := hmove
  rw [hserve, requests, List.filterMap_cons, List.filterMap_nil]
  cases hrequest : requestTo t ((kernel fs).move k op) with
  | none => exact ⟨[],List.append_nil _,.nil⟩
  | some r =>
    have hto : k.request op = some (t,r) := requestTo_eq_some.mp hrequest
    exact editor_law (hk t) (hcalm.calm hto)

/-- A submitted line is one in the making, so it has no newline. -/
theorem submitted_plain {t : ℕ} (hk : k.Orderly) (hcalm : Undisturbed k op) :
    ∀ line ∈ submitted t ((kernel fs).move k op), Plain line := by
  intro line hline
  simp only [submitted] at hline
  cases hrequest : requestTo t ((kernel fs).move k op) with
  | none =>
    rw [hrequest] at hline
    cases hline
  | some r =>
    have hto : k.request op = some (t,r) := requestTo_eq_some.mp hrequest
    have hcalm := hcalm.calm hto
    rw [hrequest] at hline
    cases r with
    | press key =>
      cases key with
      | enter row =>
        have hclear : (k.input t).enterFlag = 0 := by
          by_contra hflag
          exact hcalm hflag (.enter row) rfl trivial
        simp only [submits] at hline
        split_ifs at hline
        · obtain rfl := List.mem_singleton.mp hline
          exact (hk t).typing hclear
        · cases hline
      | _ => cases hline
    | _ => cases hline

end

theorem initial_input (pcb : ℕ → PCB) (phys : ℕ → UInt8) (t : ℕ) :
    (initial pcb phys).input t =
      { line := [], enterFlag := 0, readWanted := 0, history := fun _ => [] } := by
  have hprints := congrFun (initial_prints pcb phys).input t
  have hrow : ((blank pcb phys).terminal t).row = fun _ => [] := by
    funext r
    have hzero : (List.range keyBuffSize).map (((blank pcb phys).terminal t).historyBuf r) =
        List.replicate keyBuffSize noke := by
      refine List.eq_replicate_iff.mpr ⟨by simp,?_⟩
      intro c hc
      obtain ⟨i,-,rfl⟩ := List.mem_map.mp hc
      simp only [blank, setTerminals]
      split_ifs
      · simp only [Terminal.init]
        split_ifs <;> rfl
      · rfl
    rw [Terminal.row, hzero, List.takeWhile_replicate]
    rfl
  have hflags : ((blank pcb phys).terminal t).enterFlag = 0 ∧
      ((blank pcb phys).terminal t).readWanted = 0 := by
    simp only [blank, setTerminals]
    split_ifs <;> exact ⟨rfl,rfl⟩
  rw [hprints, Kernel.input, Terminal.input, hrow, (blank_terminal pcb phys t).2.2, hflags.1,
    hflags.2]
  rfl

theorem initial_orderly (pcb : ℕ → PCB) (phys : ℕ → UInt8) : (initial pcb phys).Orderly := by
  intro t
  rw [initial_input]
  exact ⟨fun _ => Plain.nil,fun h => absurd rfl h,fun _ => Plain.nil⟩

/-- The lines of a run so far: reads have had the first of them, one waits or none. -/
structure LinesDelivered (t : ℕ) (h : List (Move Kernel Op Out)) (k : Kernel)
    (lines : List (List UInt8)) : Prop where
  submitted : h.flatMap (submitted t) = lines ++ (k.input t).pending
  received : List.Forall₂ Handed lines (h.flatMap (received t))
  plain : ∀ line ∈ h.flatMap (GameOfThreads.submitted t), Plain line

theorem run_delivered (fs : FileSystem) {k : Kernel} {ops : List Op} (hin : k.InRange)
    (hk : k.Orderly) {t : ℕ} (hempty : (k.input t).pending = [])
    (hops : (kernel fs).Along (fun k op => op.Proper ∧ Undisturbed k op) k ops) :
    ∃ lines, LinesDelivered t ((kernel fs).trace k ops) ((kernel fs).run k ops) lines := by
  have hall := System.Along.history (S := kernel fs) (R := fun h k' => k'.InRange ∧ k'.Orderly ∧
    ∃ lines, LinesDelivered t h k' lines) ?_ ⟨hin,hk,[],by rw [hempty]; rfl,.nil,by simp⟩ hops
  · exact hall.2.2
  · rintro h k' op ⟨hin',hk',lines,hsubmitted,hreceived,hplain⟩ ⟨hop,hcalm⟩
    obtain ⟨taken,hlaw,hhanded⟩ := step_law fs t hop hin' hk' hcalm
    have horder := (step_orderly fs hop hin' hk').mpr hcalm
    refine ⟨step_inRange fs hop hin',horder,lines ++ taken,?_,?_,?_⟩
    · rw [List.flatMap_append, hsubmitted, List.append_assoc, List.append_assoc, ← hlaw]
      simp
    · rw [List.flatMap_append]
      refine List.rel_append hreceived ?_
      simpa using hhanded
    · intro line hline
      rw [List.flatMap_append, List.mem_append] at hline
      rcases hline with hline | hline
      · exact hplain line hline
      · exact submitted_plain hk' hcalm line (by simpa using hline)

theorem handed_of_mem {lines : List (List UInt8)} {gots : List (ℕ × List UInt8)}
    (h : List.Forall₂ Handed lines gots) {got : ℕ × List UInt8} (hgot : got ∈ gots) :
    ∃ line ∈ lines, Handed line got := by
  induction h with
  | nil => cases hgot
  | cons hhead htail ih =>
    rcases List.mem_cons.mp hgot with rfl | hrest
    · exact ⟨_,List.mem_cons_self ..,hhead⟩
    · obtain ⟨line,hline,hhanded⟩ := ih hrest
      exact ⟨line,List.mem_cons_of_mem _ hline,hhanded⟩

/-- The whole buffer has room for a line and its newline. -/
theorem Handed.whole {line : List UInt8} {got : ℕ × List UInt8} (h : Handed line got)
    (hplain : Plain line) {nbytes : ℤ} (hnbytes : 128 ≤ nbytes)
    (hlimit : got.1 = readLimit nbytes) : got.2 = line ++ [newline] := by
  have hwhole := readLimit_eq (show 0 ≤ nbytes by omega)
  refine h.trans (List.take_of_length_le ?_)
  have hlength := hplain.2
  unfold keyBuffSize at hlength
  rw [hlimit, List.length_append, List.length_singleton]
  omega

/-- A read that asks for the whole buffer gets a whole line. -/
theorem LinesDelivered.whole {t : ℕ} {h : List (Move Kernel Op Out)} {k : Kernel}
    {lines : List (List UInt8)} (hd : LinesDelivered t h k lines) {nbytes : ℤ}
    (hnbytes : 128 ≤ nbytes) {got : ℕ × List UInt8}
    (hgot : got ∈ h.flatMap (GameOfThreads.received t))
    (hlimit : got.1 = readLimit nbytes) : ∃ line ∈ lines, got.2 = line ++ [newline] := by
  obtain ⟨line,hline,hhanded⟩ := handed_of_mem hd.received hgot
  have hplain : Plain line := by
    apply hd.plain
    rw [hd.submitted]
    exact List.mem_append_left _ hline
  exact ⟨line,hline,hhanded.whole hplain hnbytes hlimit⟩

/-- In every run with uninterrupted reads the terminals stay in order as long as, and only as long
as, no key changes a submitted line before it is read. Then the reads on each terminal get the
lines submitted there, one each and in order, and what is submitted and not yet read is pending. -/
theorem lines_delivered_iff (fs : FileSystem) (pcb : ℕ → PCB) (phys : ℕ → UInt8) {ops : List Op}
    (hops : ∀ op ∈ ops, op.Proper) :
    ((∀ p, p <+: ops → ((kernel fs).run (initial pcb phys) p).Orderly) ↔
      (kernel fs).Along Undisturbed (initial pcb phys) ops) ∧
    ((kernel fs).Along Undisturbed (initial pcb phys) ops → ∀ t,
      let h := (kernel fs).trace (initial pcb phys) ops
      ∃ lines, LinesDelivered t h ((kernel fs).run (initial pcb phys) ops) lines ∧
        ∀ nbytes ≥ 128, ∀ got ∈ h.flatMap (received t), got.1 = readLimit nbytes →
          ∃ line ∈ lines, got.2 = line ++ [newline]) := by
  have hin := initial_inRange pcb phys
  have hk := initial_orderly pcb phys
  constructor
  · refine System.always_iff_along (S := kernel fs) (J := Kernel.InRange) ?_ ?_ hin hk hops
    · intro k op hin hop
      exact step_inRange fs hop hin
    · intro k op hin hop hk
      exact step_orderly fs hop hin hk
  · intro hcalm t h
    have hempty : ((initial pcb phys).input t).pending = [] := by
      rw [initial_input]
      rfl
    obtain ⟨lines,hd⟩ := run_delivered fs hin hk hempty (hcalm.legal hops)
    exact ⟨lines,hd,fun nbytes hnbytes got hgot hlimit => hd.whole hnbytes hgot hlimit⟩

end GameOfThreads
