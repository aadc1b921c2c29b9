import GameOfThreads.FormatRuns

/-! Numbers print as themselves: the conversions of printf wherever they stand in a format, and
what itoa leaves in a buffer for every radix. -/
namespace GameOfThreads
open Machine

/-- A numeral of the value without leading zeros, and the only one. -/
structure OnlyNumeral (radix : ℕ) (s : List UInt8) (v : ℕ) : Prop where
  numeral : Numeral digitChar radix s v
  only : ∀ t, Numeral digitChar radix t v → t = s

/-- The decimal numeral of a signed value, with a sign where it is negative. -/
def SignedNumeral (s : List UInt8) (value : ℤ) : Prop :=
  ∃ magnitude, OnlyNumeral 10 magnitude value.natAbs ∧
    s = if value < 0 then 45 :: magnitude else magnitude

theorem digits_onlyNumeral {radix : ℕ} (hr : 1 < radix) (hr' : radix ≤ 36) (v : ℕ) :
    OnlyNumeral radix (digits radix v) v :=
  ⟨numeral_numeral hr (digitChar_distinct hr') v,fun _ ht => ht.unique hr⟩

/-- Eight places hold every value, and what is filled up stands for nothing. -/
theorem hexDigits8_denotes {v : ℕ} (hv : v < 4294967296) :
    (hexDigits8 v).length = 8 ∧ Denotes digitChar 16 (hexDigits8 v) v := by
  have hlength := hexDigits_length_le hv
  constructor
  · rw [hexDigits8, List.length_append, List.length_replicate]
    omega
  · exact (numeral_denotes (by omega) v).pad (by omega) _

/-- Negation modulo 2^32 gives the magnitude of every negative value. -/
theorem signedDigits_signed {value : ℤ} (hlow : -2147483648 ≤ value)
    (hhigh : value < 2147483648) : SignedNumeral (signedDigits value) value := by
  refine ⟨digits 10 value.natAbs,digits_onlyNumeral (by omega) (by omega) _,?_⟩
  rw [signedDigits]
  split_ifs with hneg
  · rw [u32_eq_toNat (by omega) (by omega), show (-value).toNat = value.natAbs by omega]
  · rw [u32_eq_toNat (by omega) (by omega), show value.toNat = value.natAbs by omega]

namespace FormatCall
variable (call : FormatCall)

theorem render_append (alternate : Option Bool) (esp : ℕ) (s t : List UInt8) :
    call.render alternate esp (s ++ t) = call.render alternate esp s ++
      call.render (s.foldl mode alternate) (esp+argsTaken alternate s) t := by
  induction s generalizing alternate esp with
  | nil => rfl
  | cons c s ih =>
    rw [List.cons_append, render, render, ih, List.append_assoc, List.foldl_cons, argsTaken,
      Nat.add_assoc]

/-- What `conv` stands for in a format: wherever printf comes to it, it takes the next argument,
prints characters that show it and goes on behind it. -/
structure Emits (conv : List UInt8) (shows : List UInt8 → UInt32 → Prop) : Prop where
  inPlace : ∀ inner > 33, ∀ st : Formatting, st.alternate = none →
    (∀ j < conv.length, call.format (st.buf+j) = conv.getD j 0) →
    ∃ s examined, shows s (call.args st.esp) ∧ ∀ fuel,
      loop (call.round inner) (fuel+conv.length) st =
        loop (call.round inner) fuel
          ⟨st.buf+conv.length,st.esp+1,none,st.out ++ s,examined⟩
  whole : ∀ before after, 0 ∉ before → 0 ∉ after → Complete before → Complete after →
    Stands call.format 0 (before ++ conv ++ after) 0 →
    ∀ fuel > (before ++ conv ++ after).length+33, ∀ k,
    ∃ s, shows s (call.args (argsTaken none before)) ∧
      printfOn call fuel k = some (i32 (before ++ conv ++ after).length,
        GameOfThreads.printf (call.render none 0 before ++ s ++
          call.render none (argsTaken none before+1) after) k)

variable {call}

theorem Emits.imp {conv : List UInt8} {shows shows' : List UInt8 → UInt32 → Prop}
    (h : call.Emits conv shows) (himp : ∀ s v, shows s v → shows' s v) :
    call.Emits conv shows' := by
  constructor
  · intro inner hinner st hmode hchars
    obtain ⟨s,examined,hs,hloop⟩ := h.inPlace inner hinner st hmode hchars
    exact ⟨s,examined,himp _ _ hs,hloop⟩
  · intro before after hbefore hafter hwhole hwhole' hstands fuel hfuel k
    obtain ⟨s,hs,hprintf⟩ := h.whole before after hbefore hafter hwhole hwhole' hstands fuel hfuel k
    exact ⟨s,himp _ _ hs,hprintf⟩

variable (call)

/-- A stretch that takes one argument shows what it renders. -/
theorem emits_stretch {stretch : List UInt8} {shown : UInt32 → List UInt8} (hnul : 0 ∉ stretch)
    (hwhole : Complete stretch) (hargs : argsTaken none stretch = 1)
    (hrender : ∀ esp, call.render none esp stretch = shown (call.args esp)) :
    call.Emits stretch (fun s v => s = shown v) := by
  have hmode : stretch.foldl mode none = none := hwhole
  constructor
  · rintro inner hinner ⟨buf,esp,_,out,examined⟩ rfl hchars
    refine ⟨_,(List.range' buf stretch.length).reverse ++ examined,rfl,fun fuel => ?_⟩
    rw [loop_passed call hinner hnul hchars]
    simp only [passed, hargs, hrender, hmode]
  · intro before after hbefore hafter hbefore' hafter' hstands fuel hfuel k
    have hmode' : before.foldl mode none = none := hbefore'
    have hcomplete : Complete (before ++ stretch ++ after) := by
      rw [Complete, List.foldl_append, List.foldl_append, hmode', hmode]
      exact hafter'
    refine ⟨_,rfl,?_⟩
    rw [printfOn, printf_complete call hstands (by simp [hbefore, hnul, hafter]) hcomplete hfuel,
      List.append_assoc, render_append, render_append, hmode', hmode, hargs, hrender,
      Nat.zero_add, List.append_assoc]
    rfl

section
variable {c : UInt8} {conv : Conversion}

theorem conversion_not_percent (hc : conversion c = some conv) : c ≠ percent := by
  rintro rfl
  cases hc

theorem conversion_not_sharp (hc : conversion c = some conv) : c ≠ sharp := by
  rintro rfl
  cases hc

theorem conversion_not_nul (hc : conversion c = some conv) : c ≠ 0 := by
  rintro rfl
  cases hc

/-- Behind a `%`, any number of `#` and then the character of a conversion. -/
theorem sharps_conversion (hc : conversion c = some conv) (n esp : ℕ) (alternate : Bool) :
    (List.replicate n sharp ++ [c]).foldl mode (some alternate) = none ∧
      argsTaken (some alternate) (List.replicate n sharp ++ [c]) = 1 ∧
      call.render (some alternate) esp (List.replicate n sharp ++ [c]) =
        call.text (alternate || decide (0 < n)) (call.args esp) conv := by
  induction n generalizing alternate with
  | zero =>
    simp [mode, argsTaken, taken, render, printed, hc, conversion_not_percent hc,
      conversion_not_sharp hc]
  | succ n ih =>
    obtain ⟨hmode,htaken,hrender⟩ := ih true
    rw [List.replicate_succ, List.cons_append]
    refine ⟨hmode,?_,?_⟩
    · rw [argsTaken, show mode (some alternate) sharp = some true from rfl, htaken]
      rfl
    · rw [render, show mode (some alternate) sharp = some true from rfl,
        show taken (some alternate) sharp = 0 from rfl, Nat.add_zero, hrender]
      simp [printed, sharp, percent, conversion]

theorem sharps_no_nul (hc : conversion c = some conv) (n : ℕ) :
    0 ∉ percent :: (List.replicate n sharp ++ [c]) := by
  intro hmem
  rcases List.mem_cons.mp hmem with hpercent | hmem
  · cases hpercent
  rcases List.mem_append.mp hmem with hsharp | hlast
  · cases List.eq_of_mem_replicate hsharp
  · exact conversion_not_nul hc (List.mem_singleton.mp hlast).symm

/-- A conversion shows the text of its argument. -/
theorem emits_conversion (hc : conversion c = some conv) (n : ℕ) :
    call.Emits (percent :: (List.replicate n sharp ++ [c]))
      (fun s v => s = call.text (decide (0 < n)) v conv) := by
  obtain ⟨hmode,htaken,-⟩ := sharps_conversion call hc n 0 false
  refine emits_stretch call (sharps_no_nul hc n) hmode ?_ fun esp => ?_
  · rw [← htaken]
    exact Nat.zero_add _
  · have hsharps := (sharps_conversion call hc n esp false).2.2
    rw [Bool.false_or] at hsharps
    rw [← hsharps]
    rfl

end

end FormatCall

/-- Numbers print as themselves. -/
theorem numbers_print (call : FormatCall) :
    call.Emits [percent,117] (fun s v => OnlyNumeral 10 s v.toNat) ∧
    call.Emits [percent,120] (fun s v => OnlyNumeral 16 s v.toNat) ∧
    call.Emits [percent,sharp,120] (fun s v => s.length = 8 ∧ Denotes digitChar 16 s v.toNat) ∧
    call.Emits [percent,100] (fun s v => SignedNumeral s (i32 v.toNat)) ∧
    ∀ radix ≥ 2, radix ≤ 36 → ∀ v : UInt32, ∀ (buffer : ℕ → UInt8) (buf fuel : ℕ), 32 < fuel →
      ∃ buffer' s, itoa fuel v.toNat buffer buf radix = some buffer' ∧
        OnlyNumeral radix s v.toNat ∧ s.length ≤ 32 ∧ Stands buffer' buf s 0 ∧
        ∀ i, i < buf ∨ buf+s.length < i → buffer' i = buffer i := by
  refine ⟨?_,?_,?_,?_,?_⟩
  · refine (call.emits_conversion (c := 117) rfl 0).imp ?_
    rintro s v rfl
    exact digits_onlyNumeral (by omega) (by omega) _
  · refine (call.emits_conversion (c := 120) rfl 0).imp ?_
    rintro s v rfl
    exact digits_onlyNumeral (by omega) (by omega) _
  · refine (call.emits_conversion (c := 120) rfl 1).imp ?_
    rintro s v rfl
    exact hexDigits8_denotes v.toNat_lt
  · refine (call.emits_conversion (c := 100) rfl 0).imp ?_
    rintro s v rfl
    exact signedDigits_signed (i32_ge _) (i32_lt _)
  · intro radix hr hr' v buffer buf fuel hfuel
    have hlength := digits_length_le hr v.toNat_lt
    refine ⟨_,_,itoa_eq hr hr' v.toNat_lt hfuel buffer buf,digits_onlyNumeral hr hr' _,hlength,
      stands_written_from _ 0 buffer buf,fun i hi => written_outside _ _ ?_⟩
    rw [List.length_append, List.length_singleton]
    omega

/-- The largest value, in the radix with the most digits. -/
theorem numbers_print_largest :
    ∃ buffer' s, itoa 33 (4294967295 : UInt32).toNat (fun _ => 7) 1 2 = some buffer' ∧
      OnlyNumeral 2 s (4294967295 : UInt32).toNat ∧ s.length ≤ 32 ∧ Stands buffer' 1 s 0 ∧
      ∀ i, i < 1 ∨ 1+s.length < i → buffer' i = 7 := by
  obtain ⟨-,-,-,-,hitoa⟩ := numbers_print (plainCall [percent,100])
  exact hitoa 2 (by omega) (by omega) 4294967295 (fun _ => 7) 1 33 (by omega)

end GameOfThreads
