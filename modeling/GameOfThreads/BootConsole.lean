import GameOfThreads.ProcessRuns

/-! The boot console, which putc drives before the terminals exist. Its column is the number of
characters since the last newline, modulo the width; its row counts the newlines without a bound
and never the ends of full lines. -/
namespace GameOfThreads
open Machine

/-- clear: spaces on the whole screen, and the cursor home. -/
def clear (k : Kernel) : Kernel :=
  let phys := (List.range (numRows*numCols)).foldl (fun phys i =>
    Function.update (Function.update phys (videoAddr+2*i) space) (videoAddr+2*i+1) 7) k.video.phys
  { k with video := { k.video with phys := phys }, bootX := 0, bootY := 0 }

/-- What putc takes for the end of a line. -/
def lineBreak (c : UInt8) : Bool := c = newline ∨ c = carriage

/-- The state after a text, printed on a cleared screen. -/
def console (k : Kernel) (s : List UInt8) : Kernel := printf s (clear k)

theorem console_snoc (k : Kernel) (s : List UInt8) (c : UInt8) :
    console k (s ++ [c]) = putc c (console k s) := by simp [console, printf]

/-- The number of characters since the last line break. -/
def trail (s : List UInt8) : ℕ := (s.reverse.takeWhile fun c => !lineBreak c).length

/-- The number of line breaks. -/
def breaks (s : List UInt8) : ℕ := s.countP lineBreak

section
variable {k : Kernel} {s l : List UInt8} {c : UInt8}

theorem trail_break (hc : lineBreak c = true) : trail (s ++ [c]) = 0 := by simp [trail, hc]

theorem trail_char (hc : lineBreak c = false) : trail (s ++ [c]) = trail s+1 := by
  simp [trail, hc]

theorem trail_append (hl : ∀ c ∈ l, lineBreak c = false) :
    trail (s ++ l) = trail s+l.length := by
  induction l using List.reverseRecOn with
  | nil => simp
  | append_singleton l c ih =>
    rw [← List.append_assoc, trail_char (hl c (by simp)), ih fun d hd => hl d (by simp [hd]),
      List.length_append, Nat.add_assoc]
    rfl

theorem trail_split (s : List UInt8) :
    ∃ p l, s = p ++ l ∧ (∀ c ∈ l, lineBreak c = false) ∧ l.length = trail s := by
  induction s using List.reverseRecOn with
  | nil => exact ⟨[],[],rfl,by simp,rfl⟩
  | append_singleton s c ih =>
    cases hc : lineBreak c with
    | true => exact ⟨s ++ [c],[],by simp,by simp,(trail_break hc).symm⟩
    | false =>
      obtain ⟨p,l,rfl,hl,hlength⟩ := ih
      refine ⟨p,l ++ [c],by simp,?_,?_⟩
      · intro d hd
        rcases List.mem_append.mp hd with hd | hd
        · exact hl d hd
        · rw [List.mem_singleton.mp hd, hc]
      · rw [trail_char hc, ← hlength]
        simp

theorem breaks_snoc : breaks (s ++ [c]) = breaks s+if lineBreak c then 1 else 0 := by
  simp [breaks, List.countP_append, List.countP_cons]

/-! ### The cursor -/

theorem ScreenOnly.termsOn {k k' : Kernel} (h : ScreenOnly k k') : k'.termsOn = k.termsOn := by
  rw [h.rest]

theorem console_termsOn (hk : k.termsOn ≠ 1) (s : List UInt8) : (console k s).termsOn ≠ 1 := by
  have hprint : (console k s).termsOn = (clear k).termsOn := (printf_screenOnly s (clear k)).termsOn
  have hclear : (clear k).termsOn = k.termsOn := by simp only [clear]
  rwa [hprint, hclear]

theorem putc_break (hk : k.termsOn ≠ 1) (hc : lineBreak c = true) :
    putc c k = { k with bootX := 0, bootY := i32 (k.bootY+1) } := by
  rw [putc, if_neg hk, if_pos (by simpa [lineBreak] using hc)]

/-- A character goes to the cell of the cursor, which moves on within its line; the row is only
brought back into the screen. -/
theorem putc_char (hk : k.termsOn ≠ 1) (hc : lineBreak c = false) (h₀ : 0 ≤ k.bootX)
    (h : k.bootX < 80) :
    let a := videoAddr+2*(numCols*k.bootY+k.bootX)
    putc c k = { k with
      video := { k.video with
        phys := Function.update (Function.update k.video.phys (u32 a) c) (u32 (a+1)) 7 }
      bootX := (k.bootX+1) % 80
      bootY := k.bootY.tmod 25 } := by
  have hx : (k.bootX+1).tmod 80 = (k.bootX+1) % 80 := Int.tmod_eq_emod_of_nonneg (by omega)
  have hquot : ((k.bootX+1) % 80).tdiv 80 = 0 := Int.tdiv_eq_zero_of_lt (by omega) (by omega)
  have hcond : ¬(c = newline ∨ c = carriage) := by simpa [lineBreak] using hc
  simp only [putc, if_neg hk, if_neg hcond, numCols, numRows, Nat.cast_ofNat]
  rw [hx, hquot, add_zero]

/-- The column counts the characters of the line modulo the width. -/
theorem console_x (hk : k.termsOn ≠ 1) (s : List UInt8) :
    (console k s).bootX = (trail s : ℤ) % 80 := by
  induction s using List.reverseRecOn with
  | nil => rfl
  | append_singleton s c ih =>
    have hon := console_termsOn hk s
    rw [console_snoc]
    cases hc : lineBreak c with
    | true => rw [putc_break hon hc, trail_break hc]; rfl
    | false =>
      rw [putc_char hon hc (by omega) (by omega), trail_char hc]
      simp only [ih]
      omega

/-! ### The rows -/

/-- The cursor is on a cell of the screen. -/
structure Kernel.InScreen (k : Kernel) : Prop where
  left : 0 ≤ k.bootX
  right : k.bootX < 80
  top : 0 ≤ k.bootY
  bottom : k.bootY < 25

/-- Every character finds the cursor on the screen. -/
def CharsInside (k : Kernel) (s : List UInt8) : Prop :=
  ∀ p c, p ++ [c] <+: s → lineBreak c = false → (console k p).InScreen

/-- Every character has fewer line breaks before it than the screen has rows. -/
def FewBreaks (s : List UInt8) : Prop :=
  ∀ p c, p ++ [c] <+: s → lineBreak c = false → breaks p % 4294967296 < 25

theorem charsInside_snoc : CharsInside k (s ++ [c]) ↔
    CharsInside k s ∧ (lineBreak c = false → (console k s).InScreen) :=
  System.forall_prefix_snoc (R := fun p c => lineBreak c = false → (console k p).InScreen)

theorem fewBreaks_snoc : FewBreaks (s ++ [c]) ↔
    FewBreaks s ∧ (lineBreak c = false → breaks s % 4294967296 < 25) :=
  System.forall_prefix_snoc (R := fun p c => lineBreak c = false → breaks p % 4294967296 < 25)

theorem i32_row (n : ℕ) : (0 ≤ i32 n ∧ i32 n < 25) ↔ n % 4294967296 < 25 := by
  unfold i32
  split_ifs <;> omega

/-- As long as the characters are on the screen, the row counts the line breaks. -/
theorem console_y (hk : k.termsOn ≠ 1) (hs : FewBreaks s) :
    (console k s).bootY = i32 (breaks s) := by
  induction s using List.reverseRecOn with
  | nil =>
    have hzero : i32 ((breaks [] : ℕ) : ℤ) = 0 := i32_of_range (by decide) (by decide)
    rw [hzero]
    rfl
  | append_singleton s c ih =>
    obtain ⟨hs,hc⟩ := fewBreaks_snoc.mp hs
    have hon := console_termsOn hk s
    have hx := console_x hk s
    rw [console_snoc]
    cases hbreak : lineBreak c with
    | true =>
      rw [putc_break hon hbreak, breaks_snoc, if_pos hbreak]
      simp only [ih hs, i32_i32_add]
      push_cast
      rfl
    | false =>
      rw [putc_char hon hbreak (by omega) (by omega), breaks_snoc, hbreak]
      simp only [ih hs, Bool.false_eq_true, if_false, Nat.add_zero]
      obtain ⟨h₀,h⟩ := (i32_row (breaks s)).mpr (hc hbreak)
      exact Int.tmod_eq_of_lt h₀ h

theorem charsInside_iff (hk : k.termsOn ≠ 1) (s : List UInt8) : CharsInside k s ↔ FewBreaks s := by
  induction s using List.reverseRecOn with
  | nil => exact iff_of_true (fun p c h => by simp at h) fun p c h => by simp at h
  | append_singleton s c ih =>
    rw [charsInside_snoc, fewBreaks_snoc, ih]
    refine and_congr_right fun hs => imp_congr_right fun _ => ?_
    have hx := console_x hk s
    have hy := console_y hk hs
    rw [← i32_row, ← hy]
    constructor
    · intro h
      exact ⟨h.top,h.bottom⟩
    · rintro ⟨htop,hbottom⟩
      exact ⟨by omega,by omega,htop,hbottom⟩

/-! ### The ends of the lines -/

/-- The character after one in the last column goes to the start of the next row. -/
def Wraps (k : Kernel) (s : List UInt8) : Prop :=
  ∀ p c d, p ++ [c,d] <+: s → lineBreak c = false → lineBreak d = false →
    (console k p).bootX = 79 →
    (console k (p ++ [c])).bootX = 0 ∧
      (console k (p ++ [c])).bootY = ((console k p).bootY+1) % 25

/-- No more characters without a line break than a row has columns. -/
def ShortLines (s : List UInt8) : Prop :=
  ∀ p l, p ++ l <+: s → (∀ c ∈ l, lineBreak c = false) → l.length ≤ 80

/-- The quotient that should move the row on is taken after the remainder, and is always zero. -/
theorem no_wrap (hk : k.termsOn ≠ 1) (hc : lineBreak c = false) (hx : (console k s).bootX = 79) :
    (console k (s ++ [c])).bootY ≠ ((console k s).bootY+1) % 25 := by
  rw [console_snoc, putc_char (console_termsOn hk s) hc (by omega) (by omega)]
  have hmod := Int.tmod_def (console k s).bootY 25
  simp only
  omega

theorem wraps_iff_trail (hk : k.termsOn ≠ 1) (s : List UInt8) : Wraps k s ↔
    ∀ p c d, p ++ [c,d] <+: s → lineBreak c = false → lineBreak d = false →
      trail p % 80 ≠ 79 := by
  constructor
  · intro h p c d hp hc hd htrail
    have hx : (console k p).bootX = 79 := by
      rw [console_x hk]
      omega
    exact no_wrap hk hc hx (h p c d hp hc hd hx).2
  · intro h p c d hp hc hd hx
    rw [console_x hk] at hx
    exact absurd (by omega) (h p c d hp hc hd)

theorem wraps_iff (hk : k.termsOn ≠ 1) (s : List UInt8) : Wraps k s ↔ ShortLines s := by
  rw [wraps_iff_trail hk]
  constructor
  · intro h p l hp hl
    by_contra hlong
    -- the character of the line that fills the last column, and the one after it
    obtain ⟨i,hi⟩ : ∃ i, i = 79-trail p % 80 := ⟨_,rfl⟩
    have hc : i < l.length := by omega
    have hd : i+1 < l.length := by omega
    have hsplit : l = l.take i ++ [l[i],l[i+1]] ++ l.drop (i+2) := by
      rw [List.append_assoc, List.cons_append, List.cons_append, List.nil_append,
        List.getElem_cons_drop, List.getElem_cons_drop, List.take_append_drop]
    have htake : ∀ c ∈ l.take i, lineBreak c = false := fun c hc => hl c (List.mem_of_mem_take hc)
    refine h (p ++ l.take i) l[i] l[i+1] ?_ (hl _ (List.getElem_mem hc))
      (hl _ (List.getElem_mem hd)) ?_
    · refine List.IsPrefix.trans ?_ hp
      conv_rhs => rw [hsplit]
      simp only [List.append_assoc]
      exact (List.prefix_append_right_inj p).mpr
        ((List.prefix_append_right_inj _).mpr (List.prefix_append ..))
    · rw [trail_append htake, List.length_take]
      omega
  · intro h p c d hp hc hd htrail
    obtain ⟨q,l,rfl,hl,hlength⟩ := trail_split p
    have hline : ∀ b ∈ l ++ [c,d], lineBreak b = false := by
      intro b hb
      simp only [List.mem_append, List.mem_cons, List.not_mem_nil, or_false] at hb
      rcases hb with hb | rfl | rfl
      · exact hl b hb
      · exact hc
      · exact hd
    have hshort := h q (l ++ [c,d]) (by rwa [List.append_assoc] at hp) hline
    rw [List.length_append, hlength] at hshort
    simp only [List.length_cons, List.length_nil] at hshort
    omega

/-! ### The console -/

/-- With the cursor on the screen a character changes the bytes of one of its cells only. -/
theorem putc_stores (hk : k.termsOn ≠ 1) (hc : lineBreak c = false) (hin : k.InScreen) {a : ℕ}
    (ha : (putc c k).video.phys a ≠ k.video.phys a) :
    ∃ i < numCols*numRows, a = videoAddr+2*i ∨ a = videoAddr+2*i+1 := by
  obtain ⟨hleft,hright,htop,hbottom⟩ := hin
  refine ⟨(80*k.bootY+k.bootX).toNat,?_,?_⟩
  · simp only [numCols, numRows]
    omega
  · by_contra hne
    rw [not_or] at hne
    rw [putc_char hk hc hleft hright] at ha
    simp only [u32, videoAddr, numCols] at ha hne
    rw [Function.update_of_ne (by omega), Function.update_of_ne (by omega)] at ha
    exact ha rfl

/-- A text stays on the screen and is wrapped there: the cursor of every character is on it, so
that no byte outside of its cells changes, and full lines go on in the next row. -/
structure KeepsOnScreen (k : Kernel) (s : List UInt8) : Prop where
  inside : CharsInside k s
  stores : ∀ p c, p ++ [c] <+: s → lineBreak c = false → ∀ a,
    (putc c (console k p)).video.phys a ≠ (console k p).video.phys a →
      ∃ i < numCols*numRows, a = videoAddr+2*i ∨ a = videoAddr+2*i+1
  wraps : Wraps k s

/-- Before the terminals exist that is so exactly for the texts with fewer line breaks before each
character than rows and with no more characters in a line than columns. -/
theorem keepsOnScreen_iff (hk : k.termsOn ≠ 1) (s : List UInt8) :
    KeepsOnScreen k s ↔ FewBreaks s ∧ ShortLines s := by
  rw [← charsInside_iff hk, ← wraps_iff hk]
  constructor
  · intro h
    exact ⟨h.inside,h.wraps⟩
  · rintro ⟨hinside,hwraps⟩
    refine ⟨hinside,fun p c hp hc a ha => ?_,hwraps⟩
    exact putc_stores (console_termsOn hk p) hc (hinside p c hp hc) ha

end

/-- A short text on the console of a machine that boots. -/
theorem keepsOnScreen_ok :
    KeepsOnScreen (staticStorage (fun _ => PCB.zero) fun _ => 0) [79,75] := by
  refine (keepsOnScreen_iff (by decide) [79,75]).mpr ⟨fun p c hp _ => ?_,fun p l hp _ => ?_⟩
  · have hnone : breaks p ≤ 0 := ((List.prefix_append p [c]).trans hp).sublist.countP_le
    omega
  · have hlength := hp.length_le
    simp only [List.length_append, List.length_cons, List.length_nil] at hlength
    omega

/-- 81 characters without a line break, and a character behind 25 line breaks. -/
theorem console_leaves_screen :
    let k := staticStorage (fun _ => PCB.zero) fun _ => 0
    ¬KeepsOnScreen k (List.replicate 81 120) ∧
      ¬KeepsOnScreen k (List.replicate 25 newline ++ [120]) := by
  have hk : (staticStorage (fun _ => PCB.zero) fun _ => 0).termsOn ≠ 1 := by decide
  constructor
  · intro h
    have hshort := (wraps_iff hk _).mp h.wraps
    have hline := hshort [] (List.replicate 81 120) List.prefix_rfl fun c hc => by
      rw [List.eq_of_mem_replicate hc]
      rfl
    rw [List.length_replicate] at hline
    omega
  · intro h
    have hfew := (charsInside_iff hk _).mp h.inside
    have hbreaks := hfew (List.replicate 25 newline) 120 List.prefix_rfl rfl
    have hcount : breaks (List.replicate 25 newline) = 25 := by decide
    rw [hcount] at hbreaks
    omega

end GameOfThreads
