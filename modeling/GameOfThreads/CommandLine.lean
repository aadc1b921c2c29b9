import GameOfThreads.Machine.Cursor
import GameOfThreads.ProcessRuns

/-! The loops of parse_args, with the index of every store into the two buffers of execute, and
what they come to: the first word of the line and the rest of it behind the blanks. -/
namespace GameOfThreads
open Machine

/-- The loop over leading spaces. `end` is still 0 in its test of the command. -/
def skipSpaces (command : ℕ → UInt8) : (fuel start : ℕ) → Option ℕ
  | 0,start => some start
  | fuel+1,start =>
    if command start = space then
      if command 0 = newline ∨ command 0 = noke then none else skipSpaces command fuel (start+1)
    else some start

/-- The stores of parse_args into `filename` and `args`, or nothing when it returns -1. -/
def parseLoops (command : ℕ → UInt8) (fuel : ℕ) :
    Option (List (ℕ × UInt8) × List (ℕ × UInt8)) :=
  match skipSpaces command fuel 0 with
  | none => none
  | some start =>
    let word := copyWhile inWord command start fuel start
    let filename := word.1 ++ [(word.2-start,noke)]
    let start := scanWhile (· = space) command fuel word.2
    let rest := copyWhile inLine command start fuel start
    some (filename,rest.1 ++ [(rest.2-start,noke)])

/-- The text of a command: up to the first newline or NUL. -/
def textLine (command : List UInt8) : List UInt8 := command.takeWhile inLine

/-- The first word of the text. -/
def firstWord (command : List UInt8) : List UInt8 :=
  ((textLine command).dropWhile (· = space)).takeWhile inWord

/-- The text behind the first word and the spaces after it. -/
def restOfLine (command : List UInt8) : List UInt8 :=
  (((textLine command).dropWhile (· = space)).dropWhile inWord).dropWhile (· = space)

section
variable {command : List UInt8}

theorem stands_cstring (s : List UInt8) : Stands (cstring s) 0 s noke := by
  intro j _
  rw [Nat.zero_add]
  rfl

/-! ### The text of a command -/

theorem inLine_of_inWord {c : UInt8} (h : inLine c = false) : inWord c = false := by
  simp only [inLine, inWord, decide_eq_false_iff_not] at *
  tauto

theorem inLine_of_space {c : UInt8} (h : inLine c = false) : decide (c = space) = false := by
  rw [decide_eq_false_iff_not]
  rintro rfl
  exact absurd h (by decide)

/-- Behind the text stands what ends it. -/
theorem textLine_split (command : List UInt8) : ∃ rest, command = textLine command ++ rest ∧
    ∀ c ∈ rest.head?, inLine c = false := by
  refine ⟨command.dropWhile inLine,List.takeWhile_append_dropWhile.symm,?_⟩
  intro c hc
  have hhead := List.head?_dropWhile_not inLine command
  rw [hc] at hhead
  exact hhead

theorem textLine_inLine (command : List UInt8) : ∀ c ∈ textLine command, inLine c := fun _ h =>
  List.mem_takeWhile_imp h

/-- A command that starts with a space is not empty, so the test in the loop never holds. -/
theorem skipLeading_eq (command cursor : List UInt8)
    (h : cstring command 0 = space ∨ cursor.head? ≠ some space) :
    skipLeading command cursor = some (cursor.dropWhile (· = space)) := by
  induction cursor with
  | nil => rfl
  | cons c cursor ih =>
    rw [skipLeading]
    by_cases hc : c = space
    · have hfirst : cstring command 0 = space := h.resolve_right fun hne => hne (by rw [hc]; rfl)
      have htest : ¬(cstring command 0 = newline ∨ cstring command 0 = noke) := by
        rw [hfirst]
        decide
      rw [if_pos hc, if_neg htest, ih (.inl hfirst), List.dropWhile_cons_of_pos (by simpa using hc)]
    · rw [if_neg hc, List.dropWhile_cons_of_neg (by simpa using hc)]

theorem skipLeading_command (command : List UInt8) :
    skipLeading command command = some (command.dropWhile (· = space)) := by
  apply skipLeading_eq
  cases command with
  | nil => exact .inr nofun
  | cons c command =>
    by_cases hc : c = space
    · exact .inl hc
    · exact .inr fun h => hc (Option.some.inj h)

/-- parse_args finds the first word of the text and the rest of it. -/
theorem parseArgs_eq (command : List UInt8) :
    parseArgs (some command) = some (firstWord command,restOfLine command) := by
  obtain ⟨rest,hsplit,hrest⟩ := textLine_split command
  have hspace : ∀ c ∈ rest.head?, decide (c = space) = false := fun c hc =>
    inLine_of_space (hrest c hc)
  have hword : ∀ c ∈ rest.head?, inWord c = false := fun c hc => inLine_of_inWord (hrest c hc)
  have hline : ∀ c ∈ restOfLine command, inLine c := by
    intro c hc
    apply textLine_inLine command
    exact (((List.dropWhile_sublist _).trans (List.dropWhile_sublist _)).trans
      (List.dropWhile_sublist _)).subset hc
  have hcursor : command.dropWhile (· = space) =
      (textLine command).dropWhile (· = space) ++ rest := by
    conv_lhs => rw [hsplit]
    exact dropWhile_append_stop hspace
  simp only [parseArgs, skipLeading_command, hcursor]
  rw [takeWhile_append_stop hword, dropWhile_append_stop hword, dropWhile_append_stop hspace,
    takeWhile_append_stop hrest]
  exact congrArg (fun args => some (firstWord command,args)) (takeWhile_whole hline)

/-- The text is a word and the rest, with spaces before the word and between the two, and both
have room in the buffers. -/
structure SplitLine (command before w gap r : List UInt8) : Prop where
  text : textLine command = before ++ (w ++ (gap ++ r))
  leading : ∀ c ∈ before, c = space
  between : ∀ c ∈ gap, c = space
  nonempty : w ≠ []
  word : space ∉ w
  ends : gap = [] → r = []
  rest : ∀ c ∈ r.head?, c ≠ space
  wordFits : w.length < comBufSize
  restFits : r.length < comBufSize

/-- parse_args finds the two parts. -/
theorem SplitLine.parts {before w gap r : List UInt8} (h : SplitLine command before w gap r) :
    firstWord command = w ∧ restOfLine command = r := by
  have hspaces : ∀ {s : List UInt8}, (∀ c ∈ s, c = space) → ∀ c ∈ s, decide (c = space) :=
    fun hs c hc => decide_eq_true (hs c hc)
  have hhead : ∀ c ∈ (w ++ (gap ++ r)).head?, decide (c = space) = false := by
    intro c hc
    obtain ⟨b,w',rfl⟩ := List.exists_cons_of_ne_nil h.nonempty
    cases hc
    exact decide_eq_false fun hb => h.word (by simp [hb])
  have hword : ∀ c ∈ w, inWord c := by
    intro c hc
    have hline := textLine_inLine command c (by rw [h.text]; simp [hc])
    have hspace : c ≠ space := ne_of_mem_of_not_mem hc h.word
    simp only [inLine, inWord, decide_eq_true_eq] at *
    exact ⟨hspace,hline.2,hline.1⟩
  have hend : ∀ c ∈ (gap ++ r).head?, inWord c = false := by
    intro c hc
    cases hgap : gap with
    | nil =>
      rw [hgap, h.ends hgap] at hc
      cases hc
    | cons b gap' =>
      rw [hgap] at hc
      cases hc
      rw [h.between c (by simp [hgap])]
      rfl
  have hrest : ∀ c ∈ r.head?, decide (c = space) = false := fun c hc =>
    decide_eq_false (h.rest c hc)
  have hcursor : (textLine command).dropWhile (· = space) = w ++ (gap ++ r) := by
    rw [h.text, List.dropWhile_append_of_pos (hspaces h.leading), dropWhile_none hhead]
  constructor
  · rw [firstWord, hcursor, takeWhile_append_stop hend, takeWhile_whole hword]
  · rw [restOfLine, hcursor, dropWhile_append_stop hend, dropWhile_whole hword, List.nil_append,
      List.dropWhile_append_of_pos (hspaces h.between), dropWhile_none hrest]

/-! ### The loops -/

theorem skipSpaces_eq {f : ℕ → UInt8} {i : ℕ} {s : List UInt8} (hs : Stands f i s noke)
    (h : f 0 = space ∨ s.head? ≠ some space) {fuel : ℕ} (hfuel : s.length < fuel) :
    skipSpaces f fuel i = some (i+(s.takeWhile (· = space)).length) := by
  induction s generalizing i fuel with
  | nil =>
    obtain ⟨fuel,rfl⟩ := Nat.exists_eq_add_of_lt hfuel
    have hend : ¬f i = space := by
      rw [hs.nil]
      decide
    rw [skipSpaces, if_neg hend]
    rfl
  | cons c s ih =>
    obtain ⟨fuel,rfl⟩ : ∃ n, fuel = n+1 := ⟨fuel-1,by omega⟩
    rw [List.length_cons, Nat.succ_lt_succ_iff] at hfuel
    rw [skipSpaces, hs.head]
    by_cases hc : c = space
    · have hfirst : f 0 = space := h.resolve_right fun hne => hne (by rw [hc]; rfl)
      have htest : ¬(f 0 = newline ∨ f 0 = noke) := by
        rw [hfirst]
        decide
      rw [if_pos hc, if_neg htest, ih hs.tail (.inl hfirst) hfuel,
        List.takeWhile_cons_of_pos (by simpa using hc), List.length_cons, Nat.add_right_comm,
        Nat.add_assoc]
    · rw [if_neg hc, List.takeWhile_cons_of_neg (by simpa using hc)]
      rfl

theorem skipSpaces_command (command : List UInt8) {fuel : ℕ} (hfuel : command.length < fuel) :
    skipSpaces (cstring command) fuel 0 = some (0+(command.takeWhile (· = space)).length) := by
  refine skipSpaces_eq (stands_cstring command) ?_ hfuel
  cases command with
  | nil => exact .inr nofun
  | cons c command =>
    by_cases hc : c = space
    · exact .inl hc
    · exact .inr fun h => hc (Option.some.inj h)

/-- With enough fuel the loops store the first word and the rest of the line from the start of
their buffers on, each with a NUL behind it, and nothing else. -/
theorem parseLoops_eq (command : List UInt8) {fuel : ℕ} (hfuel : command.length < fuel) :
    parseLoops (cstring command) fuel =
      some (storesFrom 0 (firstWord command ++ [noke]),
        storesFrom 0 (restOfLine command ++ [noke])) := by
  have hparse := parseArgs_eq command
  simp only [parseArgs, skipLeading_command] at hparse
  obtain ⟨hfirst,hrest⟩ := Prod.mk.inj (Option.some.inj hparse)
  have hstart := skipSpaces_command command hfuel
  have hcursor := (stands_cstring command).dropWhile (p := (· = space))
  have hlength := (List.dropWhile_sublist (l := command) (· = space)).length_le
  generalize command.dropWhile (· = space) = cursor at *
  generalize 0+(command.takeWhile (· = space)).length = start at *
  have hcopy := copyWhile_terminated hcursor (p := inWord) rfl (hlength.trans_lt hfuel) noke
  have hword := copyWhile_eq hcursor (p := inWord) rfl le_rfl (hlength.trans_lt hfuel)
  have hblank := hcursor.dropWhile (p := inWord)
  have hlength' := (List.dropWhile_sublist (l := cursor) inWord).length_le.trans hlength
  have hscan := scanWhile_eq hblank (p := (· = space)) rfl (hlength'.trans_lt hfuel)
  have hargs := hblank.dropWhile (p := (· = space))
  have hlength'' := (List.dropWhile_sublist (l := cursor.dropWhile inWord)
    (· = space)).length_le.trans hlength'
  have hcopy' := copyWhile_terminated hargs (p := inLine) rfl (hlength''.trans_lt hfuel) noke
  have hend : (copyWhile inWord (cstring command) start fuel start).2 =
      start+(cursor.takeWhile inWord).length := by rw [hword]
  simp only [parseLoops, hstart, hcopy]
  rw [hend, hscan, hcopy', hfirst, hrest]

end

/-! ### The buffers of execute -/

/-- The buffers that a command is copied into: the locals of execute, and the member of the
PCB. -/
inductive CopyBuffer
  | filename
  | args
  | pcbArgs
  deriving DecidableEq, Repr

/-- The stores of strcpy. -/
def strcpyStores (src : ℕ → UInt8) (fuel : ℕ) : List (ℕ × UInt8) :=
  let r := copyWhile (· ≠ noke) src 0 fuel 0
  r.1 ++ [(r.2,noke)]

/-- The indices that a call of execute stores to in the three buffers. What the locals held
before is part of the stack. -/
def executeStores (fs : FileSystem) (cpu : Cpu) (command : Option (List UInt8)) (k : Kernel) :
    List (CopyBuffer × ℕ) :=
  match (pidAvailable k).1,command with
  | some _,some line =>
    match parseLoops (cstring line) (line.length+1) with
    | none => []
    | some (filename,args) =>
      filename.map (fun s => (.filename,s.1)) ++ args.map (fun s => (.args,s.1)) ++
        match (execute fs cpu command k).1 with
        | .started _ _ =>
          (strcpyStores (written cpu.stack args) args.length).map fun s => (.pcbArgs,s.1)
        | _ => []
  | _,_ => []

/-- Every store is inside its buffer of 128 bytes, and a command that does not fit is refused. -/
structure CopiesFit (fs : FileSystem) (cpu : Cpu) (command : Option (List UInt8)) (k : Kernel) :
    Prop where
  inside : ∀ s ∈ executeStores fs cpu command k, s.2 < comBufSize
  refused : ∀ line, command = some line →
    comBufSize ≤ (firstWord line).length ∨ comBufSize ≤ (restOfLine line).length →
      (execute fs cpu command k).1 = .failed

/-- The indices of a string stored with its NUL. -/
theorem mem_copied {buffer : CopyBuffer} {s : List UInt8} {store : CopyBuffer × ℕ} :
    store ∈ (storesFrom 0 (s ++ [noke])).map (fun c => (buffer,c.1)) ↔
      store.1 = buffer ∧ store.2 ≤ s.length := by
  have hindex := storesFrom_index 0 (s ++ [noke])
  have hmap : (storesFrom 0 (s ++ [noke])).map (fun c => (buffer,c.1)) =
      (List.range' 0 (s.length+1)).map (Prod.mk buffer) := by
    rw [List.length_append, List.length_singleton] at hindex
    rw [← hindex, List.map_map]
    rfl
  rw [hmap, List.mem_map]
  constructor
  · rintro ⟨i,hi,rfl⟩
    have hlt := (List.mem_range'_1.mp hi).2
    exact ⟨rfl,by omega⟩
  · rintro ⟨rfl,hi⟩
    exact ⟨store.2,List.mem_range'_1.mpr ⟨Nat.zero_le _,by omega⟩,rfl⟩

theorem strcpyStores_eq {s : List UInt8} (hs : noke ∉ s) {src : ℕ → UInt8}
    (hsrc : Stands src 0 s noke) {fuel : ℕ} (hfuel : s.length < fuel) :
    strcpyStores src fuel = storesFrom 0 (s ++ [noke]) := by
  have hcopy := copyWhile_terminated hsrc (p := (· ≠ noke)) rfl hfuel noke
  have hwhole : s.takeWhile (· ≠ noke) = s :=
    takeWhile_whole fun c hc => by simpa using ne_of_mem_of_not_mem hc hs
  rw [hwhole] at hcopy
  exact hcopy

theorem restOfLine_no_nul (line : List UInt8) : noke ∉ restOfLine line := by
  intro h
  have hline : noke ∈ textLine line :=
    (((List.dropWhile_sublist _).trans (List.dropWhile_sublist _)).trans
      (List.dropWhile_sublist _)).subset h
  exact absurd (textLine_inLine line noke hline) (by decide)

section
variable {fs : FileSystem} {cpu : Cpu} {line : List UInt8} {k : Kernel}

theorem executeStores_none (command : Option (List UInt8)) (h : k.table.nextPid = none) :
    executeStores fs cpu command k = [] := by
  simp only [executeStores, pidAvailable_none h]

theorem executeStores_null : executeStores fs cpu none k = [] := by
  unfold executeStores
  cases (pidAvailable k).1 with
  | none => rfl
  | some pid => rfl

theorem mem_executeStores {pid : ℕ} (hpid : k.table.nextPid = some pid) {s : CopyBuffer × ℕ} :
    s ∈ executeStores fs cpu (some line) k ↔
      s.1 = .filename ∧ s.2 ≤ (firstWord line).length ∨
      s.1 = .args ∧ s.2 ≤ (restOfLine line).length ∨
      s.1 = .pcbArgs ∧ s.2 ≤ (restOfLine line).length ∧
        ∃ p entry, (execute fs cpu (some line) k).1 = .started p entry := by
  have hfuel : (restOfLine line).length <
      (storesFrom 0 (restOfLine line ++ [noke])).length := by
    rw [storesFrom_length, List.length_append]
    exact Nat.lt_succ_self _
  have hstrcpy := strcpyStores_eq (restOfLine_no_nul line)
    (stands_written (restOfLine line) noke cpu.stack) hfuel
  simp only [executeStores, pidAvailable_some hpid, parseLoops_eq line (Nat.lt_succ_self _)]
  rw [hstrcpy, List.mem_append, List.mem_append, mem_copied, mem_copied, or_assoc]
  generalize (execute fs cpu (some line) k).1 = r
  cases r with
  | started p entry =>
    simp only [mem_copied]
    simp
  | failed => simp
  | overrun => simp

/-- A copy of a command that does not fit runs past the end of its buffer. -/
theorem copies_overrun {pid : ℕ} (hpid : k.table.nextPid = some pid)
    (h : comBufSize ≤ (firstWord line).length ∨ comBufSize ≤ (restOfLine line).length) :
    ∃ s ∈ executeStores fs cpu (some line) k, s.2 = comBufSize := by
  rcases h with h | h
  · exact ⟨(.filename,comBufSize),(mem_executeStores hpid).mpr (.inl ⟨rfl,h⟩),rfl⟩
  · exact ⟨(.args,comBufSize),(mem_executeStores hpid).mpr (.inr (.inl ⟨rfl,h⟩)),rfl⟩

end

/-- execute keeps to its buffers and refuses what does not fit them exactly when no process can
be started anyway, there is no command, or the word and the arguments have room with their
terminators. -/
theorem copies_fit_iff (fs : FileSystem) (cpu : Cpu) (command : Option (List UInt8)) (k : Kernel) :
    CopiesFit fs cpu command k ↔ (∀ p < maxNumProc, k.pcbInUse p ≠ 0) ∨
      ∀ line, command = some line →
        (firstWord line).length < comBufSize ∧ (restOfLine line).length < comBufSize := by
  have hfull : (∀ p < maxNumProc, k.pcbInUse p ≠ 0) ↔ k.table.nextPid = none :=
    (Table.nextPid_eq_none (T := k.table)).symm
  rw [hfull]
  cases hpid : k.table.nextPid with
  | none =>
    refine iff_of_true ⟨?_,?_⟩ (.inl rfl)
    · rw [executeStores_none command hpid]
      exact List.forall_mem_nil _
    · intro line _ _
      rw [execute_eq, hpid]
  | some pid =>
    constructor
    · rintro ⟨hinside,-⟩
      refine .inr ?_
      rintro line rfl
      by_contra hlong
      have hlong : comBufSize ≤ (firstWord line).length ∨
          comBufSize ≤ (restOfLine line).length := by omega
      obtain ⟨s,hs,hindex⟩ := copies_overrun hpid hlong
      exact absurd (hinside s hs) (by omega)
    · rintro (hnone | hshort)
      · cases hnone
      · constructor
        · cases command with
          | none =>
            rw [executeStores_null]
            exact List.forall_mem_nil _
          | some line =>
            obtain ⟨hword,hrest⟩ := hshort line rfl
            intro s hs
            rcases (mem_executeStores hpid).mp hs with ⟨-,hi⟩ | ⟨-,hi⟩ | ⟨-,hi,-⟩
            · omega
            · omega
            · omega
        · intro line hline hlong
          obtain ⟨hword,hrest⟩ := hshort line hline
          omega

/-- A word of 128 characters runs over the end of `filename`, with its NUL behind it. -/
theorem copies_overrun_word :
    let line := List.replicate 128 (97 : UInt8)
    let k := initial (fun _ => PCB.zero) fun _ => 0
    (.filename,128) ∈ executeStores shellImage ⟨1,1,fun _ => 0⟩ (some line) k ∧
      (execute shellImage ⟨1,1,fun _ => 0⟩ (some line) k).1 = .overrun ∧
      ¬CopiesFit shellImage ⟨1,1,fun _ => 0⟩ (some line) k := by
  intro line k
  have hpid : k.table.nextPid = some 0 := by
    rw [initial_table]
    rfl
  have hstore : (.filename,128) ∈ executeStores shellImage ⟨1,1,fun _ => 0⟩ (some line) k :=
    (mem_executeStores hpid).mpr (.inl ⟨rfl,by decide +kernel⟩)
  refine ⟨hstore,?_,fun h => absurd (h.inside _ hstore) (by decide)⟩
  rw [execute_eq, hpid]
  have hverdict : shellImage.verdict (fun _ => 0) (some line) = .overrun := by
    have hparse := parseArgs_eq line
    simp only [FileSystem.verdict, Option.isNone_some, Bool.false_eq_true, if_false, hparse]
    exact if_pos (.inl (by decide +kernel))
  rw [hverdict]
  rfl

end GameOfThreads
