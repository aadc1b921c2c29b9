import GameOfThreads.CommandLine

/-! Blank commands. The test of parse_args for them looks at the start of the command, where a
space stands whenever the loop around it runs, so that it never fires: a blank command is taken
for one with an empty filename. -/
namespace GameOfThreads
open Machine

/-- parse_args with its three pointers, each NULL or a buffer: the value that it returns and what
the other two point to afterwards. -/
def parseArgsCall (fuel : ℕ) (command : Option (List UInt8)) (filename args : Option (ℕ → UInt8)) :
    ℤ × Option (ℕ → UInt8) × Option (ℕ → UInt8) :=
  match command,filename,args with
  | some command,some filename,some args =>
    match parseLoops (cstring command) fuel with
    | none => (-1,some filename,some args)
    | some stores => (0,some (written filename stores.1),some (written args stores.2))
  | _,_,_ => (-1,filename,args)

/-- No word: spaces, and behind them a newline or the NUL. -/
def Blank (command : List UInt8) : Prop :=
  ∃ n, (∀ i < n, cstring command i = space) ∧
    (cstring command n = newline ∨ cstring command n = noke)

theorem blank_nil : Blank [] := ⟨0,fun _ h => absurd h (Nat.not_lt_zero _),.inr rfl⟩

theorem blank_space (command : List UInt8) : Blank (space :: command) ↔ Blank command := by
  constructor
  · rintro ⟨n,hspaces,hstop⟩
    cases n with
    | zero =>
      have hspace : ¬(space = newline ∨ space = noke) := by decide
      exact absurd hstop hspace
    | succ n => exact ⟨n,fun i hi => hspaces (i+1) (by omega),hstop⟩
  · rintro ⟨n,hspaces,hstop⟩
    refine ⟨n+1,fun i hi => ?_,hstop⟩
    cases i with
    | zero => rfl
    | succ i => exact hspaces i (by omega)

theorem blank_other {c : UInt8} (hc : c ≠ space) (command : List UInt8) :
    Blank (c :: command) ↔ c = newline ∨ c = noke := by
  constructor
  · rintro ⟨n,hspaces,hstop⟩
    cases n with
    | zero => exact hstop
    | succ n => exact absurd (hspaces 0 (by omega)) hc
  · intro h
    exact ⟨0,fun _ h => absurd h (Nat.not_lt_zero _),h⟩

/-- The first word stands behind the leading spaces. -/
theorem firstWord_eq (command : List UInt8) :
    firstWord command = (command.dropWhile (· = space)).takeWhile inWord := by
  have hparse := parseArgs_eq command
  simp only [parseArgs, skipLeading_command] at hparse
  exact (Prod.mk.inj (Option.some.inj hparse)).1.symm

/-- A command is blank exactly when it has no first word. -/
theorem blank_iff (command : List UInt8) : Blank command ↔ firstWord command = [] := by
  rw [firstWord_eq]
  induction command with
  | nil => exact iff_of_true blank_nil rfl
  | cons c command ih =>
    by_cases hc : c = space
    · subst hc
      rw [blank_space, ih, List.dropWhile_cons_of_pos (by simp)]
    · rw [blank_other hc, List.dropWhile_cons_of_neg (by simpa using hc), List.takeWhile_cons]
      by_cases hword : inWord c = true
      · rw [if_pos hword]
        simp only [inWord, decide_eq_true_eq] at hword
        exact iff_of_false (by tauto) (List.cons_ne_nil _ _)
      · rw [if_neg hword]
        simp only [inWord, decide_eq_true_eq] at hword
        exact iff_of_true (by tauto) rfl

/-! ### The call -/

section
variable {fuel : ℕ} {line : List UInt8} {filename args : ℕ → UInt8}

/-- A command that is there is always taken, for its first word and the rest of its line. -/
theorem parseArgsCall_taken (hfuel : line.length < fuel) :
    parseArgsCall fuel (some line) (some filename) (some args) =
      (0,some (written filename (storesFrom 0 (firstWord line ++ [noke]))),
        some (written args (storesFrom 0 (restOfLine line ++ [noke])))) := by
  rw [parseArgsCall, parseLoops_eq line hfuel]

theorem parseArgsCall_null {command : Option (List UInt8)} {filename args : Option (ℕ → UInt8)}
    (h : command = none ∨ filename = none ∨ args = none) :
    (parseArgsCall fuel command filename args).1 = -1 := by
  rcases h with rfl | rfl | rfl
  · rfl
  · cases command <;> rfl
  · cases command <;> cases filename <;> rfl

/-- The filename is what stands in front of its NUL. -/
theorem filename_empty_iff (line : List UInt8) (filename : ℕ → UInt8) :
    written filename (storesFrom 0 (firstWord line ++ [noke])) 0 = noke ↔ Blank line := by
  have hstands := stands_written (firstWord line) noke filename
  rw [blank_iff]
  cases hword : firstWord line with
  | nil =>
    rw [hword] at hstands
    exact iff_of_true hstands.nil rfl
  | cons c word =>
    have hfirst : c ∈ firstWord line := by simp [hword]
    rw [firstWord_eq] at hfirst
    have hin : inWord c = true := List.mem_takeWhile_imp hfirst
    simp only [inWord, decide_eq_true_eq] at hin
    rw [hword] at hstands
    refine iff_of_false ?_ (List.cons_ne_nil _ _)
    rw [hstands.head]
    exact hin.2.2

end

/-- There is nothing to execute: a pointer is NULL, or the command holds no word. -/
def Wordless (command : Option (List UInt8)) (filename args : Option (ℕ → UInt8)) : Prop :=
  command = none ∨ filename = none ∨ args = none ∨ ∃ line, command = some line ∧ Blank line

/-- parse_args refuses a command exactly when there is nothing to execute, and gives a filename
that is not empty for any other. -/
structure RejectsBlank (command : Option (List UInt8)) (filename args : Option (ℕ → UInt8)) :
    Prop where
  rejected : ∀ fuel > (command.getD []).length,
    (parseArgsCall fuel command filename args).1 = -1 ↔ Wordless command filename args
  accepted : ¬Wordless command filename args → ∀ fuel > (command.getD []).length,
    (parseArgsCall fuel command filename args).1 = 0 ∧
      ∃ buffer, (parseArgsCall fuel command filename args).2.1 = some buffer ∧ buffer 0 ≠ noke

/-- It does so exactly for the commands that are not blank, and where a pointer is NULL. -/
theorem rejectsBlank_iff (command : Option (List UInt8)) (filename args : Option (ℕ → UInt8)) :
    RejectsBlank command filename args ↔
      (filename ≠ none → args ≠ none → ∀ line, command = some line → ¬Blank line) := by
  by_cases hnull : command = none ∨ filename = none ∨ args = none
  · have hwordless : Wordless command filename args := by
      unfold Wordless
      tauto
    refine iff_of_true ⟨fun fuel _ => ?_,fun h => absurd hwordless h⟩ ?_
    · exact iff_of_true (parseArgsCall_null hnull) hwordless
    · rintro hfilename hargs line rfl
      simp [hfilename, hargs] at hnull
  · push Not at hnull
    obtain ⟨hcommand,hfilename,hargs⟩ := hnull
    obtain ⟨line,rfl⟩ := Option.ne_none_iff_exists'.mp hcommand
    obtain ⟨filename,rfl⟩ := Option.ne_none_iff_exists'.mp hfilename
    obtain ⟨args,rfl⟩ := Option.ne_none_iff_exists'.mp hargs
    have hwordless : Wordless (some line) (some filename) (some args) ↔ Blank line := by
      simp [Wordless]
    have hzero : (0 : ℤ) ≠ -1 := by decide
    constructor
    · rintro h - - line' heq hblank
      cases heq
      have hminus := (h.rejected (line.length+1) (Nat.lt_succ_self _)).mpr (hwordless.mpr hblank)
      rw [parseArgsCall_taken (Nat.lt_succ_self _)] at hminus
      exact hzero hminus
    · intro h
      have hword := h nofun nofun line rfl
      refine ⟨fun fuel (hfuel : line.length < fuel) => ?_,
        fun _ fuel (hfuel : line.length < fuel) => ?_⟩
      · rw [parseArgsCall_taken hfuel, hwordless]
        exact iff_of_false hzero hword
      · rw [parseArgsCall_taken hfuel]
        exact ⟨rfl,_,rfl,fun hempty => hword ((filename_empty_iff line filename).mp hempty)⟩

/-- A space and a newline are taken for a command without a name. -/
theorem rejectsBlank_space_newline :
    let r := parseArgsCall 3 (some [space,newline]) (some fun _ => 7) (some fun _ => 7)
    r.1 = 0 ∧ Blank [space,newline] ∧
      ¬RejectsBlank (some [space,newline]) (some fun _ => 7) (some fun _ => 7) := by
  have hblank : Blank [space,newline] := ⟨1,by decide,by decide⟩
  refine ⟨rfl,hblank,fun h => ?_⟩
  have hminus := (h.rejected 3 (by decide)).mpr (.inr (.inr (.inr ⟨_,rfl,hblank⟩)))
  exact absurd hminus (by decide)

end GameOfThreads
