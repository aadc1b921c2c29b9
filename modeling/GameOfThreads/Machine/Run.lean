import Mathlib.Data.List.Induction
import Mathlib.Logic.Function.Basic

/-! Runs of deterministic event systems. An event moves the state and reports an output.
The rules say how a property of one step becomes a property of every run, with or without
a condition on the events, and how what has happened on a run is told by its trace. -/
namespace GameOfThreads.Machine

/-- A deterministic system with states `σ`, events `α` and outputs `ο`. -/
structure System (σ α ο : Type*) where
  step : σ → α → ο × σ

/-- One recorded step of a run. -/
structure Move (σ α ο : Type*) where
  pre : σ
  event : α
  out : ο
  post : σ

namespace System
variable {σ α ο : Type*} (S : System σ α ο)

def out (s : σ) (a : α) : ο := (S.step s a).1

def next (s : σ) (a : α) : σ := (S.step s a).2

/-- The state after a list of events. -/
def run (s : σ) (l : List α) : σ := l.foldl S.next s

def move (s : σ) (a : α) : Move σ α ο := ⟨s,a,S.out s a,S.next s a⟩

/-- The steps of a run, oldest first. -/
def trace (s : σ) : List α → List (Move σ α ο)
  | [] => []
  | a :: l => S.move s a :: trace (S.next s a) l

/-- Every event of the list meets the condition in the state that it finds. -/
def Along (ok : σ → α → Prop) (s : σ) : List α → Prop
  | [] => True
  | a :: l => ok s a ∧ Along ok (S.next s a) l

@[simp] theorem run_nil (s : σ) : S.run s [] = s := rfl

@[simp] theorem run_cons (s : σ) (a : α) (l : List α) :
    S.run s (a :: l) = S.run (S.next s a) l := rfl

theorem run_append (s : σ) (l r : List α) : S.run s (l ++ r) = S.run (S.run s l) r := by
  simp [run]

theorem run_snoc (s : σ) (l : List α) (a : α) :
    S.run s (l ++ [a]) = S.next (S.run s l) a := by simp [run]

theorem trace_append (s : σ) (l r : List α) :
    S.trace s (l ++ r) = S.trace s l ++ S.trace (S.run s l) r := by
  induction l generalizing s with
  | nil => rfl
  | cons a l ih => simp [trace, ih]

theorem trace_snoc (s : σ) (l : List α) (a : α) :
    S.trace s (l ++ [a]) = S.trace s l ++ [S.move (S.run s l) a] := by
  simp [trace_append, trace]

theorem trace_getElem? (s : σ) (l : List α) (i : ℕ) :
    (S.trace s l)[i]? = l[i]?.map fun a => S.move (S.run s (l.take i)) a := by
  induction l generalizing s i with
  | nil => rfl
  | cons a l ih =>
    cases i with
    | zero => rfl
    | succ i => simp [trace, ih]

@[simp] theorem trace_length (s : σ) (l : List α) : (S.trace s l).length = l.length := by
  induction l generalizing s with
  | nil => rfl
  | cons a l ih => simp [trace, ih]

theorem along_append {ok : σ → α → Prop} (s : σ) (l r : List α) :
    S.Along ok s (l ++ r) ↔ S.Along ok s l ∧ S.Along ok (S.run s l) r := by
  induction l generalizing s with
  | nil => simp [Along]
  | cons a l ih => simp [Along, ih, and_assoc]

theorem along_snoc {ok : σ → α → Prop} (s : σ) (l : List α) (a : α) :
    S.Along ok s (l ++ [a]) ↔ S.Along ok s l ∧ ok (S.run s l) a := by
  simp [along_append, Along]

theorem along_of_forall {ok : α → Prop} {l : List α} (h : ∀ a ∈ l, ok a) (s : σ) :
    S.Along (fun _ => ok) s l := by
  induction l generalizing s with
  | nil => trivial
  | cons a l ih => exact ⟨h a (by simp), ih (fun b hb => h b (by simp [hb])) _⟩

/-- A law about every element and what is before it, with one element more. -/
theorem forall_prefix_snoc {R : List α → α → Prop} {l : List α} {a : α} :
    (∀ p b, p ++ [b] <+: l ++ [a] → R p b) ↔ (∀ p b, p ++ [b] <+: l → R p b) ∧ R l a := by
  constructor
  · intro h
    exact ⟨fun p b hp => h p b (hp.trans (List.prefix_append ..)),h l a List.prefix_rfl⟩
  · rintro ⟨h,ha⟩ p b hp
    rcases List.prefix_concat_iff.mp hp with heq | hp
    · obtain ⟨rfl,rfl⟩ : p = l ∧ b = a := by simpa using heq
      exact ha
    · exact h p b hp

theorem along_iff_prefix {ok : σ → α → Prop} (s : σ) (l : List α) :
    S.Along ok s l ↔ ∀ p a, p ++ [a] <+: l → ok (S.run s p) a := by
  induction l using List.reverseRecOn with
  | nil => simp [Along]
  | append_singleton l a ih =>
    rw [along_snoc, ih]
    exact (forall_prefix_snoc (R := fun p b => ok (S.run s p) b)).symm

variable {S}

theorem Along.legal {ok : σ → α → Prop} {legal : α → Prop} {s : σ} {l : List α}
    (h : S.Along ok s l) (hl : ∀ a ∈ l, legal a) : S.Along (fun s a => legal a ∧ ok s a) s l := by
  induction l generalizing s with
  | nil => trivial
  | cons a l ih => exact ⟨⟨hl a (by simp),h.1⟩,ih h.2 fun b hb => hl b (by simp [hb])⟩

/-- A property kept by every permitted step holds after every permitted run. -/
theorem Along.invariant {ok : σ → α → Prop} {I : σ → Prop}
    (step : ∀ s a, I s → ok s a → I (S.next s a)) {s : σ} (h₀ : I s) {l : List α}
    (hl : S.Along ok s l) : I (S.run s l) := by
  induction l generalizing s with
  | nil => exact h₀
  | cons a l ih => exact ih (step s a h₀ hl.1) hl.2

/-- It holds in every state on the way. -/
theorem Along.always {ok : σ → α → Prop} {I : σ → Prop}
    (step : ∀ s a, I s → ok s a → I (S.next s a)) {s : σ} (h₀ : I s) {l : List α}
    (hl : S.Along ok s l) : ∀ p, p <+: l → I (S.run s p) := by
  rintro p ⟨r,rfl⟩
  exact ((S.along_append s p r).mp hl).1.invariant step h₀

/-- Every state of a run in two parts is one of the first or of the second. -/
theorem always_append {I : σ → Prop} {s : σ} {l r : List α}
    (hl : ∀ p, p <+: l → I (S.run s p)) (hr : ∀ p, p <+: r → I (S.run (S.run s l) p)) :
    ∀ p, p <+: l ++ r → I (S.run s p) := by
  intro p hp
  rcases List.prefix_or_prefix_of_prefix hp (List.prefix_append l r) with h | ⟨q,rfl⟩
  · exact hl p h
  · rw [run_append]
    exact hr q ((List.prefix_append_right_inj l).mp hp)

/-- A property kept by every step holds after every run. -/
theorem invariant {I : σ → Prop} (step : ∀ s a, I s → I (S.next s a)) {s : σ} (h₀ : I s)
    (l : List α) : I (S.run s l) := by
  induction l generalizing s with
  | nil => exact h₀
  | cons a l ih => exact ih (step s a h₀)

/-- A relation between what has happened and the state, kept by every permitted step,
holds after every permitted run. -/
theorem Along.history {ok : σ → α → Prop} {R : List (Move σ α ο) → σ → Prop} {s : σ}
    (step : ∀ h t a, R h t → ok t a → R (h ++ [S.move t a]) (S.next t a)) (h₀ : R [] s)
    {l : List α} (hl : S.Along ok s l) : R (S.trace s l) (S.run s l) := by
  induction l using List.reverseRecOn with
  | nil => exact h₀
  | append_singleton l a ih =>
    obtain ⟨hp,ha⟩ := (S.along_snoc s l a).mp hl
    rw [trace_snoc, run_snoc]
    exact step _ _ _ (ih hp) ha

/-- The same without a condition on the events. -/
theorem history {R : List (Move σ α ο) → σ → Prop} {s : σ}
    (step : ∀ h t a, R h t → R (h ++ [S.move t a]) (S.next t a)) (h₀ : R [] s) (l : List α) :
    R (S.trace s l) (S.run s l) := by
  induction l using List.reverseRecOn with
  | nil => exact h₀
  | append_singleton l a ih =>
    rw [trace_snoc, run_snoc]
    exact step _ _ _ ih

/-- Where a step keeps the property exactly when its event meets the condition, a run has
the property in every state exactly when all its events meet the condition. An invariant
of the legal events helps with the step. -/
theorem Along.always_iff {ok legal : σ → α → Prop} {I J : σ → Prop}
    (keep : ∀ s a, J s → legal s a → J (S.next s a))
    (step : ∀ s a, J s → legal s a → I s → (I (S.next s a) ↔ ok s a)) {s : σ} (hJ : J s)
    (hI : I s) {l : List α} (hl : S.Along legal s l) :
    (∀ p, p <+: l → I (S.run s p)) ↔ S.Along ok s l := by
  induction l generalizing s with
  | nil => simpa [Along] using hI
  | cons a l ih =>
    obtain ⟨hlegal,hrest⟩ := hl
    have hnext := keep s a hJ hlegal
    constructor
    · intro h
      have ha : I (S.next s a) := h [a] (by simp)
      refine ⟨(step s a hJ hlegal hI).mp ha, (ih hnext ha hrest).mp ?_⟩
      intro p hp
      exact h (a :: p) (by simpa using hp)
    · rintro ⟨ha,hl⟩ p hp
      cases p with
      | nil => exact hI
      | cons b p =>
        obtain ⟨rfl,hp'⟩ := List.cons_prefix_cons.mp hp
        exact (ih hnext ((step s b hJ hlegal hI).mpr ha) hrest).mpr hl p hp'

theorem always_iff_along {ok : σ → α → Prop} {legal : α → Prop} {I J : σ → Prop}
    (keep : ∀ s a, J s → legal a → J (S.next s a))
    (step : ∀ s a, J s → legal a → I s → (I (S.next s a) ↔ ok s a)) {s : σ} (hJ : J s) (hI : I s)
    {l : List α} (hl : ∀ a ∈ l, legal a) :
    (∀ p, p <+: l → I (S.run s p)) ↔ S.Along ok s l :=
  (along_of_forall S hl s).always_iff keep step hJ hI

/-- What holds of every step holds of every recorded step. -/
theorem trace_forall {P : Move σ α ο → Prop} (step : ∀ s a, P (S.move s a)) (s : σ) (l : List α) :
    ∀ m ∈ S.trace s l, P m := by
  induction l generalizing s with
  | nil => simp [trace]
  | cons a l ih =>
    intro m hm
    rcases List.mem_cons.mp hm with rfl | hm
    · exact step s a
    · exact ih _ m hm

/-- What holds of every permitted step from the states of an invariant holds of every recorded
step of a permitted run. -/
theorem Along.trace_forall {ok : σ → α → Prop} {I : σ → Prop} {P : Move σ α ο → Prop}
    (keep : ∀ s a, I s → ok s a → I (S.next s a)) (step : ∀ s a, I s → ok s a → P (S.move s a))
    {s : σ} (h₀ : I s) {l : List α} (hl : S.Along ok s l) : ∀ m ∈ S.trace s l, P m := by
  induction l generalizing s with
  | nil => simp [trace]
  | cons a l ih =>
    intro m hm
    rcases List.mem_cons.mp hm with rfl | hm
    · exact step s a h₀ hl.1
    · exact ih (keep s a h₀ hl.1) hl.2 m hm

/-- Two systems whose steps keep a relation between their states keep it on every run that
the first one permits. -/
theorem Along.simulation {τ π : Type*} {T : System τ α π} {ok : σ → α → Prop} {R : σ → τ → Prop}
    (step : ∀ s t a, R s t → ok s a → R (S.next s a) (T.next t a)) {s : σ} {t : τ} (h₀ : R s t)
    {l : List α} (hl : S.Along ok s l) : R (S.run s l) (T.run t l) := by
  induction l generalizing s t with
  | nil => exact h₀
  | cons a l ih => exact ih (step s t a h₀ hl.1) hl.2

/-- Two systems that answer every permitted event alike from related states, and stay related,
answer every permitted run alike. -/
theorem Along.outputs_eq {τ : Type*} {T : System τ α ο} {ok : σ → α → Prop} {R : σ → τ → Prop}
    (step : ∀ s t a, R s t → ok s a → S.out s a = T.out t a ∧ R (S.next s a) (T.next t a))
    {s : σ} {t : τ} (h₀ : R s t) {l : List α} (hl : S.Along ok s l) :
    (S.trace s l).map Move.out = (T.trace t l).map Move.out := by
  induction l generalizing s t with
  | nil => rfl
  | cons a l ih =>
    obtain ⟨hout,hnext⟩ := step s t a h₀ hl.1
    simp only [trace, List.map_cons, ih hnext hl.2]
    exact congrArg (· :: _) hout

/-- They do so on every run if every event is permitted. -/
theorem outputs_eq {τ : Type*} {T : System τ α ο} {R : σ → τ → Prop}
    (step : ∀ s t a, R s t → S.out s a = T.out t a ∧ R (S.next s a) (T.next t a)) {s : σ} {t : τ}
    (h₀ : R s t) (l : List α) : (S.trace s l).map Move.out = (T.trace t l).map Move.out :=
  have hl : S.Along (fun _ _ => True) s l := S.along_of_forall (fun _ _ => trivial) s
  Along.outputs_eq (fun s t a h _ => step s t a h) h₀ hl

/-- Independent copies of a system; an event moves the copy that it is addressed to. -/
def family {ι : Type*} [DecidableEq ι] (S : System σ α ο) (addr : α → Option ι) :
    System (ι → σ) α Unit where
  step s a :=
    match addr a with
    | some i => ((),Function.update s i (S.next (s i) a))
    | none => ((),s)

section
variable {ι : Type*} [DecidableEq ι] {addr : α → Option ι} (s : ι → σ) {a : α}

theorem family_next_some {i : ι} (h : addr a = some i) :
    (S.family addr).next s a = Function.update s i (S.next (s i) a) := by
  simp [family, next, h]

theorem family_next_none (h : addr a = none) : (S.family addr).next s a = s := by
  simp [family, next, h]

/-- A copy has taken the events addressed to it, in their order, and no others. -/
theorem family_run (l : List α) (i : ι) :
    (S.family addr).run s l i = S.run (s i) (l.filter fun a => addr a = some i) := by
  induction l generalizing s with
  | nil => rfl
  | cons a l ih =>
    rw [run_cons, ih]
    by_cases ha : addr a = some i
    · rw [family_next_some s ha, Function.update_self, List.filter_cons_of_pos (by simpa using ha),
        run_cons]
    · rw [List.filter_cons_of_neg (by simpa using ha)]
      cases hto : addr a with
      | none => rw [family_next_none s hto]
      | some j =>
        have hne : i ≠ j := by
          rintro rfl
          exact ha hto
        rw [family_next_some s hto, Function.update_of_ne hne]

end

/-! ### The last step of a kind -/

/-- The last recorded step with a property: what a register last written by such steps
remembers. -/
def lastMove (P : Move σ α ο → Prop) [DecidablePred P] (h : List (Move σ α ο)) :
    Option (Move σ α ο) := (h.filter P).getLast?

section
variable {P : Move σ α ο → Prop} [DecidablePred P] {h : List (Move σ α ο)} {m : Move σ α ο}

theorem lastMove_hit (hm : P m) : lastMove P (h ++ [m]) = some m := by
  simp [lastMove, hm]

theorem lastMove_skip (hm : ¬P m) : lastMove P (h ++ [m]) = lastMove P h := by
  simp [lastMove, hm]

end

end System

/-- A loop whose body keeps a projection keeps it. -/
theorem foldl_keeps {α β γ : Type*} (f : β → γ) (g : β → α → β) (l : List α) (b : β)
    (h : ∀ b a, f (g b a) = f b) : f (l.foldl g b) = f b := by
  induction l generalizing b with
  | nil => rfl
  | cons a l ih => exact (ih (g b a)).trans (h b a)

/-- A loop over a range carries an invariant that counts its rounds. -/
theorem foldl_range_rule {β : Type*} {P : ℕ → β → Prop} {g : β → ℕ → β} {b : β} (h₀ : P 0 b)
    (n : ℕ) (step : ∀ i < n, ∀ b, P i b → P (i+1) (g b i)) : P n ((List.range n).foldl g b) := by
  induction n with
  | zero => exact h₀
  | succ n ih =>
    have hloop := ih fun i hi => step i (by omega)
    rw [List.range_succ, List.foldl_append]
    exact step n (Nat.lt_succ_self n) _ hloop

/-- A loop that assigns each entry once leaves what its own round makes of the entry. -/
theorem foldl_update {β δ : Type*} (key : β → ℕ) (g : β → δ → δ) {l : List β}
    (hl : (l.map key).Nodup) (f : ℕ → δ) (i : ℕ) :
    l.foldl (fun f b => Function.update f (key b) (g b (f (key b)))) f i =
      (l.find? fun b => key b = i).elim (f i) fun b => g b (f i) := by
  induction l generalizing f with
  | nil => rfl
  | cons b l ih =>
    obtain ⟨hb,hl⟩ := List.nodup_cons.mp hl
    rw [List.foldl_cons, ih hl, List.find?_cons]
    by_cases hkey : key b = i
    · subst hkey
      have hnone : l.find? (fun b' => key b' = key b) = none := by
        rw [List.find?_eq_none]
        intro b' hb' heq
        exact hb (of_decide_eq_true heq ▸ List.mem_map_of_mem hb')
      simp only [hnone, decide_true, Function.update_self, Option.elim]
    · simp only [hkey, decide_false, Function.update_of_ne (Ne.symm hkey)]

theorem foldl_update_self {δ : Type*} (g : ℕ → δ → δ) {l : List ℕ} (hl : l.Nodup) (f : ℕ → δ)
    (i : ℕ) : l.foldl (fun f j => Function.update f j (g j (f j))) f i =
      if i ∈ l then g i (f i) else f i := by
  have hloop := foldl_update id g ((List.map_id l).symm ▸ hl) f i
  simp only [id] at hloop
  rw [hloop]
  split_ifs with hi
  · cases hfind : l.find? fun j => decide (j = i) with
    | none => exact absurd (List.find?_eq_none.mp hfind i hi) (by simp)
    | some j =>
      have heq : j = i := by simpa using List.find?_some hfind
      exact congrArg (g · (f i)) heq
  · have hfind : (l.find? fun j => decide (j = i)) = none := by
      rw [List.find?_eq_none]
      intro j hj heq
      exact hi (of_decide_eq_true heq ▸ hj)
    rw [hfind]
    rfl

end GameOfThreads.Machine
