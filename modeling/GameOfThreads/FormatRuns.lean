import GameOfThreads.Itoa

/-! What printf prints, and where it stops. Behind a whole format it has looked at no more than
its NUL; in one that ends within a conversion it steps over the NUL and reads on. -/
namespace GameOfThreads
open Machine

/-- The numeral of a signed value, with a sign where it is negative. -/
def signedDigits (value : ℤ) : List UInt8 :=
  if value < 0 then 45 :: digits 10 (u32 (-value)) else digits 10 (u32 value)

/-- The numeral of a value in eight hexadecimal places. -/
def hexDigits8 (v : ℕ) : List UInt8 :=
  List.replicate (8-(digits 16 v).length) 48 ++ digits 16 v

example : hexDigits8 14 = text "0000000E" := by decide +kernel

section
variable {fuel : ℕ} {convBuf buffer : ℕ → UInt8} {a : ℕ} {s : List UInt8}

/-! ### The conversions -/

theorem putsText_eq (h : Stands buffer a s 0) (hs : 0 ∉ s) (hfuel : s.length < fuel) :
    putsText fuel buffer a = some s := loop_pass h hs hfuel

theorem putsText_digits {radix v : ℕ} (hr : 1 < radix) (hr' : radix ≤ 36) (hv : v < 4294967296)
    (hfuel : 32 < fuel) (a : ℕ) :
    putsText fuel (written buffer (storesFrom a (digits radix v ++ [0]))) a =
      some (digits radix v) :=
  putsText_eq (stands_written_from _ 0 _ a) (digits_no_nul hr hr' v)
    ((digits_length_le hr hv).trans_lt hfuel)

theorem unsignedText_eq (hfuel : 32 < fuel) (convBuf : ℕ → UInt8) (v : UInt32) :
    unsignedText fuel convBuf v = some (digits 10 v.toNat) := by
  have hv := v.toNat_lt
  rw [unsignedText, itoa_eq (by omega) (by omega) hv hfuel, Option.bind_some]
  exact putsText_digits (by omega) (by omega) hv hfuel 0

theorem loop_zeros {n : ℕ} (hn : n ≤ 8) (buffer : ℕ → UInt8) (hfuel : 8-n < fuel) :
    loop zeroRound fuel (n,buffer) =
      some (written buffer (storesFrom n (List.replicate (8-n) 48))) := by
  refine loop_ends (n := 8-n)
    (f := fun i => (n+i,written buffer (storesFrom n (List.replicate i 48)))) (fun i hi => ?_) ?_
    hfuel
  · have hstore : storesFrom n (List.replicate (i+1) (48 : UInt8)) =
        storesFrom n (List.replicate i 48) ++ [(n+i,48)] := by
      rw [List.replicate_succ', storesFrom_append, List.length_replicate]
      rfl
    rw [zeroRound, if_pos (by omega), hstore, written_snoc]
    rfl
  · rw [zeroRound, if_neg (by omega)]

theorem hexDigits_length_le {v : ℕ} (hv : v < 4294967296) : (digits 16 v).length ≤ 8 :=
  numeral_length_le (by omega) (by omega) (hv.trans_le (by norm_num))

/-- The zeros below the digits make one string with them. -/
theorem zeros_stand {n : ℕ} (hn : n ≤ 8) (h : Stands buffer 8 s 0) :
    Stands (written buffer (storesFrom n (List.replicate (8-n) 48))) n
      (List.replicate (8-n) 48 ++ s) 0 := by
  intro j hj
  rw [List.length_append, List.length_replicate] at hj
  rw [written_storesFrom]
  by_cases hlow : j < 8-n
  · rw [List.getD_append _ _ _ _ (by simpa using hlow), List.getD_replicate _ hlow,
      List.getD_replicate _ hlow]
  · have hhigh := h (j-(8-n)) (by omega)
    rw [show 8+(j-(8-n)) = n+j by omega] at hhigh
    rw [List.getD_eq_default _ _ (by rw [List.length_replicate]; omega), hhigh,
      List.getD_append_right _ _ _ _ (by rw [List.length_replicate]; omega),
      List.length_replicate]

theorem hexText_eq (hfuel : 32 < fuel) (convBuf : ℕ → UInt8) (alternate : Bool) (v : UInt32) :
    hexText fuel convBuf alternate v =
      some (if alternate then hexDigits8 v.toNat else digits 16 v.toNat) := by
  have hv := v.toNat_lt
  have hnul := @digits_no_nul 16 (by omega) (by omega) v.toNat
  have hlength := hexDigits_length_le hv
  have hstands := stands_written_from (digits 16 v.toNat) 0 convBuf 8
  cases alternate with
  | false =>
    simp only [hexText, Bool.false_eq_true, if_false]
    rw [itoa_eq (by omega) (by omega) hv hfuel, Option.bind_some]
    exact putsText_digits (by omega) (by omega) hv hfuel 0
  | true =>
    have hzeros : (0 : UInt8) ∉ hexDigits8 v.toNat := by
      rw [hexDigits8, List.mem_append, not_or]
      exact ⟨fun h => absurd (List.eq_of_mem_replicate h) (by decide),hnul⟩
    simp only [hexText, if_true]
    rw [itoa_eq (by omega) (by omega) hv hfuel, Option.bind_some,
      loop_length hstands hnul (by omega), Option.bind_some, loop_zeros hlength _ (by omega),
      Option.bind_some]
    refine putsText_eq (zeros_stand hlength hstands) hzeros ?_
    rw [hexDigits8, List.length_append, List.length_replicate]
    omega

/-- A sign in front of a string makes one string with it. -/
theorem sign_stands (s : List UInt8) (convBuf : ℕ → UInt8) :
    Stands (written (Function.update convBuf 0 45) (storesFrom 1 (s ++ [0]))) 0 (45 :: s) 0 := by
  intro j hj
  cases j with
  | zero =>
    rw [Nat.add_zero, written_low _ Nat.zero_lt_one]
    rfl
  | succ j =>
    rw [List.length_cons] at hj
    have hrest := stands_written_from s 0 (Function.update convBuf 0 45) 1 j (by omega)
    rw [List.getD_cons_succ, ← hrest]
    congr 1
    omega

theorem signedText_eq (hfuel : 33 < fuel) (convBuf : ℕ → UInt8) (v : UInt32) :
    signedText fuel convBuf v = some (signedDigits (i32 v.toNat)) := by
  simp only [signedText, signedDigits]
  generalize i32 v.toNat = value
  split_ifs
  · have hv := u32_lt (-value)
    generalize u32 (-value) = v at *
    have hnul := @digits_no_nul 10 (by omega) (by omega) v
    have hlength := @digits_length_le 10 v (by omega) hv
    rw [itoa_eq (by omega) (by omega) hv (by omega), Option.bind_some]
    refine putsText_eq (sign_stands _ convBuf) ?_ (by rw [List.length_cons]; omega)
    rw [List.mem_cons, not_or]
    exact ⟨by decide,hnul⟩
  · have hv := u32_lt value
    generalize u32 value = v at *
    rw [itoa_eq (by omega) (by omega) hv (by omega), Option.bind_some]
    exact putsText_digits (by omega) (by omega) hv (by omega) 0

end

namespace FormatCall
variable (call : FormatCall) {fuel : ℕ}

/-- The characters of a conversion. -/
def text (alternate : Bool) (v : UInt32) : Conversion → List UInt8
  | .hex => if alternate then hexDigits8 v.toNat else digits 16 v.toNat
  | .unsigned => digits 10 v.toNat
  | .signed => signedDigits (i32 v.toNat)
  | .char => [v.toUInt8]
  | .string => (call.strings v).takeWhile (· ≠ 0)

theorem convert_eq (hfuel : 33 < fuel) (alternate : Bool) (v : UInt32) (conv : Conversion) :
    call.convert fuel alternate v conv = some (call.text alternate v conv) := by
  cases conv with
  | hex => exact hexText_eq (by omega) call.convBuf alternate v
  | unsigned => exact unsignedText_eq (by omega) call.convBuf v
  | signed => exact signedText_eq hfuel call.convBuf v
  | char => rfl
  | string => rfl

/-! ### One look at the format -/

/-- Whether printf is behind a `%` after a character, and has seen a `#` there. -/
def mode (alternate : Option Bool) (c : UInt8) : Option Bool :=
  match alternate with
  | none => if c = percent then some false else none
  | some _ => if c = sharp then some true else none

/-- The arguments that a character takes. -/
def taken (alternate : Option Bool) (c : UInt8) : ℕ :=
  if alternate.isSome ∧ (conversion c).isSome then 1 else 0

/-- What a character prints. -/
def printed (alternate : Option Bool) (esp : ℕ) (c : UInt8) : List UInt8 :=
  match alternate with
  | none => if c = percent then [] else [c]
  | some alternate =>
    if c = percent then [percent]
    else
      match conversion c with
      | none => []
      | some conv => call.text alternate (call.args esp) conv

/-- Where printf goes from a position that does not end it. -/
def next (s : Formatting) : Formatting where
  buf := s.buf+1
  esp := s.esp+taken s.alternate (call.format s.buf)
  alternate := mode s.alternate (call.format s.buf)
  out := s.out ++ call.printed s.alternate s.esp (call.format s.buf)
  examined := s.buf :: s.examined

/-- Only the outer loop tests for the NUL. -/
theorem round_eq (hfuel : 33 < fuel) (s : Formatting) :
    call.round fuel s =
      if s.alternate = none ∧ call.format s.buf = 0 then
        .inr (some ⟨i32 s.buf,s.out,s.buf :: s.examined⟩)
      else .inl (call.next s) := by
  obtain ⟨buf,esp,alternate,out,examined⟩ := s
  cases alternate with
  | none =>
    by_cases hzero : call.format buf = 0
    · simp [round, hzero]
    by_cases hc : call.format buf = percent
    · simp [round, next, mode, taken, printed, hc, percent]
    · simp [round, next, mode, taken, printed, hzero, hc]
  | some alternate =>
    by_cases hc : call.format buf = percent
    · simp [round, next, mode, taken, printed, hc, percent, sharp, conversion]
    by_cases hsharp : call.format buf = sharp
    · simp [round, next, mode, taken, printed, hsharp, percent, sharp, conversion]
    cases hconv : conversion (call.format buf) with
    | none => simp [round, next, mode, taken, printed, hc, hsharp, hconv]
    | some conv =>
      simp [round, next, mode, taken, printed, hc, hsharp, hconv, convert_eq call hfuel]

/-! ### The whole format -/

/-- What printf prints of a stretch of the format. -/
def render : (alternate : Option Bool) → (esp : ℕ) → List UInt8 → List UInt8
  | _,_,[] => []
  | alternate,esp,c :: s =>
    call.printed alternate esp c ++ render (mode alternate c) (esp+taken alternate c) s

/-- How many arguments a stretch of the format takes. -/
def argsTaken : (alternate : Option Bool) → List UInt8 → ℕ
  | _,[] => 0
  | alternate,c :: s => taken alternate c+argsTaken (mode alternate c) s

/-- Where printf is behind a stretch of the format. -/
def passed (st : Formatting) (s : List UInt8) : Formatting where
  buf := st.buf+s.length
  esp := st.esp+argsTaken st.alternate s
  alternate := s.foldl mode st.alternate
  out := st.out ++ call.render st.alternate st.esp s
  examined := (List.range' st.buf s.length).reverse ++ st.examined

end FormatCall

/-- A format that does not end within a conversion. -/
def Complete (s : List UInt8) : Prop := s.foldl FormatCall.mode none = none

instance (s : List UInt8) : Decidable (Complete s) := inferInstanceAs (Decidable (_ = _))

namespace FormatCall
variable (call : FormatCall) {inner fuel : ℕ} {s : List UInt8} {st : Formatting} {r : Formatted}

/-- printf goes through every stretch of the format without a NUL. -/
theorem loop_passed (hinner : 33 < inner) (hs : 0 ∉ s)
    (h : ∀ j < s.length, call.format (st.buf+j) = s.getD j 0) (fuel : ℕ) :
    loop (call.round inner) (fuel+s.length) st =
      loop (call.round inner) fuel (call.passed st s) := by
  induction s generalizing st with
  | nil => simp [passed, render, argsTaken]
  | cons c s ih =>
    have hc : call.format st.buf = c := h 0 (by simp)
    have hround : call.round inner st = .inl (call.next st) := by
      rw [round_eq call hinner, if_neg]
      rintro ⟨-,hnul⟩
      exact hs (by simp [← hnul, hc])
    have hrest : ∀ j < s.length, call.format (st.buf+1+j) = s.getD j 0 := by
      intro j hj
      have hnext := h (j+1) (by simpa using hj)
      rw [List.getD_cons_succ] at hnext
      rw [← hnext]
      congr 1
      omega
    have hpassed : call.passed (call.next st) s = call.passed st (c :: s) := by
      simp [passed, next, hc, render, argsTaken, List.range'_succ, Nat.add_assoc,
        Nat.add_comm 1]
    rw [List.length_cons, ← Nat.add_assoc, loop_again hround, ← hpassed]
    exact ih (fun hmem => hs (by simp [hmem])) hrest

/-- What printf has looked at stays recorded, and so does the position it is at. -/
theorem loop_examined (hinner : 33 < inner)
    (h : loop (call.round inner) fuel st = some (some r)) :
    st.buf ∈ r.examined ∧ ∀ i ∈ st.examined, i ∈ r.examined := by
  induction fuel generalizing st with
  | zero => cases h
  | succ fuel ih =>
    have hround := round_eq call hinner st
    by_cases hend : st.alternate = none ∧ call.format st.buf = 0
    · rw [if_pos hend] at hround
      rw [loop_leave hround] at h
      cases h
      exact ⟨by simp,fun i hi => by simp [hi]⟩
    · rw [if_neg hend] at hround
      rw [loop_again hround] at h
      have hrest := (ih h).2
      exact ⟨hrest _ (by simp [next]),fun i hi => hrest i (by simp [next, hi])⟩

/-- printf of a complete format ends, with the length of the format, and has looked once at each
of its bytes and its NUL. -/
theorem printf_complete (h : Stands call.format 0 s 0) (hs : 0 ∉ s) (hwhole : Complete s)
    (hfuel : s.length+33 < fuel) :
    call.printf fuel =
      some ⟨i32 s.length,call.render none 0 s,(List.range (s.length+1)).reverse⟩ := by
  obtain ⟨rounds,rfl⟩ : ∃ n, fuel = n+1+s.length := ⟨fuel-s.length-1,by omega⟩
  have hinner : 33 < rounds+1+s.length := by omega
  have hpassed : loop (call.round (rounds+1+s.length)) (rounds+1+s.length) ⟨0,0,none,[],[]⟩ =
      loop (call.round (rounds+1+s.length)) (rounds+1) (call.passed ⟨0,0,none,[],[]⟩ s) :=
    loop_passed call hinner hs (fun j hj => h j hj.le) (rounds+1)
  have hround := round_eq call hinner (call.passed ⟨0,0,none,[],[]⟩ s)
  rw [if_pos ⟨hwhole,h.at_stop⟩] at hround
  rw [printf, hpassed, loop_leave hround, List.range_succ, List.reverse_append]
  simp [passed, List.range_eq_range']

/-- The call ends, returns the length of the format, and looks at no byte behind its NUL. -/
def StopsAtEnd (s : List UInt8) : Prop :=
  ∀ fuel > s.length+33, ∃ r, call.printf fuel = some r ∧ r.value = i32 s.length ∧
    ∀ i ∈ r.examined, i ≤ s.length

/-- Within a conversion the NUL is stepped over, and the byte behind it is looked at. -/
theorem printf_overruns (h : Stands call.format 0 s 0) (hs : 0 ∉ s) (hcut : ¬Complete s)
    (hfuel : 33 < fuel) (hprintf : call.printf fuel = some r) : s.length+1 ∈ r.examined := by
  have hloop : loop (call.round fuel) fuel ⟨0,0,none,[],[]⟩ = some (some r) :=
    Option.join_eq_some_iff.mp hprintf
  have hpassed : loop (call.round fuel) (fuel+1+s.length) ⟨0,0,none,[],[]⟩ =
      loop (call.round fuel) (fuel+1) (call.passed ⟨0,0,none,[],[]⟩ s) :=
    loop_passed call hfuel hs (fun j hj => h j hj.le) (fuel+1)
  rw [loop_mono hloop (by omega)] at hpassed
  have hround := round_eq call hfuel (call.passed ⟨0,0,none,[],[]⟩ s)
  rw [if_neg fun hend => hcut hend.1] at hround
  rw [loop_again hround] at hpassed
  have hat := (loop_examined call hfuel hpassed.symm).1
  simpa [next, passed] using hat

/-- printf stops at the end of exactly the formats that do not end within a conversion. -/
theorem stopsAtEnd_iff (h : Stands call.format 0 s 0) (hs : 0 ∉ s) :
    call.StopsAtEnd s ↔ Complete s := by
  constructor
  · intro hstops
    by_contra hcut
    obtain ⟨r,hr,-,hexamined⟩ := hstops (s.length+34) (by omega)
    have hover := printf_overruns call h hs hcut (by omega) hr
    exact absurd (hexamined _ hover) (by omega)
  · intro hwhole fuel hfuel
    refine ⟨_,printf_complete call h hs hwhole hfuel,rfl,fun i hi => ?_⟩
    rw [List.mem_reverse, List.mem_range] at hi
    omega

end FormatCall

theorem sharps_cut (alternate : Bool) (n : ℕ) :
    (List.replicate n sharp).foldl FormatCall.mode (some alternate) ≠ none := by
  induction n generalizing alternate with
  | zero => exact Option.some_ne_none _
  | succ n ih => exact ih true

/-- What makes a format incomplete: a `%` behind complete text, and only `#` behind it. -/
theorem not_complete_iff (s : List UInt8) : ¬Complete s ↔
    ∃ t n, Complete t ∧ s = t ++ percent :: List.replicate n sharp := by
  constructor
  · intro hcut
    induction s using List.reverseRecOn with
    | nil => exact absurd rfl hcut
    | append_singleton s c ih =>
      rw [Complete, List.foldl_append, List.foldl_cons, List.foldl_nil] at hcut
      by_cases hwhole : Complete s
      · rw [show s.foldl FormatCall.mode none = none from hwhole] at hcut
        have hc : c = percent := by
          by_contra hc
          exact hcut (if_neg hc)
        exact ⟨s,0,hwhole,by rw [hc]; rfl⟩
      · obtain ⟨alternate,hmode⟩ := Option.ne_none_iff_exists'.mp hwhole
        rw [hmode] at hcut
        have hc : c = sharp := by
          by_contra hc
          exact hcut (if_neg hc)
        obtain ⟨t,n,ht,rfl⟩ := ih hwhole
        refine ⟨t,n+1,ht,?_⟩
        rw [hc, List.replicate_succ', List.append_assoc, List.cons_append]
  · rintro ⟨t,n,ht,rfl⟩
    rw [Complete, List.foldl_append, show t.foldl FormatCall.mode none = none from ht]
    exact sharps_cut false n

/-- A call with the format and nothing else in memory. -/
def plainCall (s : List UInt8) : FormatCall where
  format := cstring s
  args _ := 0
  strings _ := []
  convBuf _ := 0

theorem plainCall_stands (s : List UInt8) : Stands (plainCall s).format 0 s 0 := by
  intro j _
  rw [Nat.zero_add]
  rfl

/-- A format with a percent sign printed as such. -/
theorem stopsAtEnd_percents : (plainCall [percent,percent]).StopsAtEnd [percent,percent] :=
  (FormatCall.stopsAtEnd_iff _ (plainCall_stands _) (by decide)).mpr (by decide)

/-- With a `%` as the whole format it reads the byte behind the NUL. -/
theorem percent_overruns : ¬(plainCall [percent]).StopsAtEnd [percent] := by
  intro h
  obtain ⟨r,hr,-,hexamined⟩ := h 40 (by decide)
  have hover := FormatCall.printf_overruns _ (plainCall_stands _) (by decide) (by decide)
    (by omega) hr
  exact absurd (hexamined _ hover) (by decide)

end GameOfThreads
