import Mathlib.Data.Nat.Notation
import Mathlib.Dynamics.FixedPoints.Basic
import Mathlib.Tactic.Common

/-!
# Runs of labelled step functions

A system is a partial step function `step : σ → α → Option σ`: `none` says that the action is
not enabled.

* `exec` runs a list of actions, `Reachable` forgets which they were, and `Along P` says of a run
  that every step taken in it, described by the state before the step and the action, meets `P`.
* **Invariants.** `exec_invariant` is the induction every safety proof over runs uses,
  `exec_invariant_of_along` its version for runs whose steps are restricted, and
  `exec_history_invariant` its version for invariants that mention the actions taken.
* **Conditions on steps.** `along_congr` exchanges one step condition for another that an invariant
  makes equivalent, and `along_iff` spells a condition out for every prefix of the run.
* **Progress.** `exists_exec_of_measure`: if from every state that is not done some run lessens a
  measure, some run gets done.
* **Refinement.** `exec_refines` takes the runs of one system to those of another, given what each
  step of the first is in the second; `exec_rel` runs two systems in lockstep, and `exec_map_eq`
  says that they then look the same from outside.
* **Deterministic machines** are iterated functions, and their runs compose (`iterate_trans`).
-/

namespace Transition

variable {σ α : Type*} (step : σ → α → Option σ)

/-- Run a list of actions; `none` as soon as one of them is not enabled. -/
def exec : σ → List α → Option σ
  | s, [] => some s
  | s, a :: as => (step s a).bind fun t => exec t as

/-- Every step taken along the run of `as` from `s` meets `P`. -/
def Along (P : σ → α → Prop) : σ → List α → Prop
  | _, [] => True
  | s, a :: as => P s a ∧ ∀ t, step s a = some t → Along P t as

instance Along.instDecidable (P : σ → α → Prop) [∀ s a, Decidable (P s a)] :
    ∀ s as, Decidable (Along step P s as)
  | _, [] => .isTrue trivial
  | s, a :: as =>
    match hstep : step s a with
    | none => decidable_of_iff (P s a) (by simp [Along, hstep])
    | some t =>
      haveI := Along.instDecidable P t as
      decidable_of_iff (P s a ∧ Along step P t as) (by simp [Along, hstep])

/-- The states that some run from `s` ends in. -/
def Reachable (s t : σ) : Prop := ∃ as, exec step s as = some t

variable {step}

theorem exec_cons {s u : σ} {a : α} {as : List α} :
    exec step s (a :: as) = some u ↔ ∃ t, step s a = some t ∧ exec step t as = some u := by
  simp [exec, Option.bind_eq_some_iff]

/-- A run in two parts. -/
theorem exec_append {s u : σ} {as bs : List α} :
    exec step s (as ++ bs) = some u ↔
      ∃ t, exec step s as = some t ∧ exec step t bs = some u := by
  induction as generalizing s with
  | nil => simp [exec]
  | cons a as ih =>
    simp only [List.cons_append, exec_cons, ih]
    tauto

theorem Reachable.refl (s : σ) : Reachable step s s := ⟨[], rfl⟩

theorem Reachable.tail {s t u : σ} {a : α} (h : Reachable step s t) (ha : step t a = some u) :
    Reachable step s u := by
  obtain ⟨as, has⟩ := h
  exact ⟨as ++ [a], exec_append.mpr ⟨t, has, exec_cons.mpr ⟨u, ha, rfl⟩⟩⟩

theorem Reachable.trans {s t u : σ} (h : Reachable step s t) (h' : Reachable step t u) :
    Reachable step s u := by
  obtain ⟨as, has⟩ := h
  obtain ⟨bs, hbs⟩ := h'
  exact ⟨as ++ bs, exec_append.mpr ⟨t, has, hbs⟩⟩

section Invariant

variable {I : σ → Prop}

/-- **Invariants.** What every enabled step preserves holds at the end of every run. -/
theorem exec_invariant (hstep : ∀ s a t, I s → step s a = some t → I t) {s t : σ} {as : List α}
    (hs : I s) (h : exec step s as = some t) : I t := by
  induction as generalizing s with
  | nil =>
    obtain rfl : s = t := by simpa [exec] using h
    exact hs
  | cons a as ih =>
    obtain ⟨u, hu, hrun⟩ := exec_cons.mp h
    exact ih (hstep s a u hs hu) hrun

/-- Invariants that relate the state to the actions taken so far, `h` of them before the run. -/
theorem exec_history_invariant {I : σ → List α → Prop}
    (hstep : ∀ s h a t, I s h → step s a = some t → I t (h ++ [a])) {s t : σ} {h as : List α}
    (hs : I s h) (hrun : exec step s as = some t) : I t (h ++ as) := by
  induction as generalizing s h with
  | nil =>
    obtain rfl : s = t := by simpa [exec] using hrun
    rwa [List.append_nil]
  | cons a as ih =>
    obtain ⟨u, hu, hrest⟩ := exec_cons.mp hrun
    rw [← List.singleton_append, ← List.append_assoc]
    exact ih (hstep s h a u hs hu) hrest

/-- What every step keeps holds in every state that can be reached. -/
theorem Reachable.invariant (hstep : ∀ s a t, I s → step s a = some t → I t) {s t : σ}
    (hs : I s) (h : Reachable step s t) : I t := by
  obtain ⟨as, hrun⟩ := h
  exact exec_invariant hstep hs hrun

/-- Invariants of runs whose steps all meet `P`. -/
theorem exec_invariant_of_along {P : σ → α → Prop}
    (hstep : ∀ s a t, I s → P s a → step s a = some t → I t) {s t : σ} {as : List α}
    (hs : I s) (hP : Along step P s as) (h : exec step s as = some t) : I t := by
  induction as generalizing s with
  | nil =>
    obtain rfl : s = t := by simpa [exec] using h
    exact hs
  | cons a as ih =>
    obtain ⟨u, hu, hrun⟩ := exec_cons.mp h
    exact ih (hstep s a u hs hP.1 hu) (hP.2 u hu) hrun

/-- Under an invariant of the runs that meet one step condition, another one follows. -/
theorem Along.imp_of_invariant {P Q : σ → α → Prop}
    (hstep : ∀ s a t, I s → P s a → step s a = some t → I t) (hPQ : ∀ s a, I s → P s a → Q s a)
    {s : σ} {as : List α} (hs : I s) (hP : Along step P s as) : Along step Q s as := by
  induction as generalizing s with
  | nil => trivial
  | cons a as ih =>
    refine ⟨hPQ s a hs hP.1, ?_⟩
    intro t ht
    exact ih (hstep s a t hs hP.1 ht) (hP.2 t ht)

theorem Along.imp {P Q : σ → α → Prop} (hPQ : ∀ s a, P s a → Q s a) {s : σ} {as : List α}
    (hP : Along step P s as) : Along step Q s as :=
  hP.imp_of_invariant (I := fun _ => True) (fun _ _ _ _ _ _ => trivial) (fun s a _ => hPQ s a)
    trivial

/-- Under an invariant, equivalent step conditions hold along the same runs. -/
theorem along_congr (hstep : ∀ s a t, I s → step s a = some t → I t) {P Q : σ → α → Prop}
    (hPQ : ∀ s a, I s → (P s a ↔ Q s a)) {s : σ} {as : List α} (hs : I s) :
    Along step P s as ↔ Along step Q s as := by
  constructor
  · intro h
    exact h.imp_of_invariant (fun s a t hs _ => hstep s a t hs) (fun s a hs => (hPQ s a hs).mp) hs
  · intro h
    exact h.imp_of_invariant (fun s a t hs _ => hstep s a t hs) (fun s a hs => (hPQ s a hs).mpr) hs

end Invariant

/-- `Along` spelled out: the condition holds at every action, in the state it is taken in. -/
theorem along_iff {P : σ → α → Prop} {s : σ} {as : List α} :
    Along step P s as ↔
      ∀ pre a post t, as = pre ++ a :: post → exec step s pre = some t → P t a := by
  induction as generalizing s with
  | nil => simp [Along]
  | cons b bs ih =>
    constructor
    · rintro ⟨hP, hrest⟩ pre a post t has hrun
      cases pre with
      | nil =>
        obtain ⟨rfl, -⟩ := List.cons_eq_cons.mp has
        obtain rfl : s = t := by simpa [exec] using hrun
        exact hP
      | cons c pre =>
        obtain ⟨rfl, hbs⟩ := List.cons_eq_cons.mp has
        obtain ⟨u, hu, hrun'⟩ := exec_cons.mp hrun
        exact ih.mp (hrest u hu) pre a post t hbs hrun'
    · intro h
      refine ⟨h [] b bs s rfl rfl, fun t ht => ih.mpr fun pre a post u hbs hrun => ?_⟩
      exact h (b :: pre) a post u (by rw [hbs, List.cons_append])
        (exec_cons.mpr ⟨t, ht, hrun⟩)

theorem Along.of_prefix {P : σ → α → Prop} {s : σ} {as bs : List α} (h : Along step P s bs)
    (hpre : as <+: bs) : Along step P s as := by
  obtain ⟨cs, rfl⟩ := hpre
  rw [along_iff] at h ⊢
  intro pre a post t has hrun
  exact h pre a (post ++ cs) t (by rw [has, List.append_assoc, List.cons_append]) hrun

/-- A run goes on with actions that meet the condition in every state. -/
theorem Along.append {P : σ → α → Prop} {s : σ} {as bs : List α} (h : Along step P s as)
    (hbs : ∀ b ∈ bs, ∀ t, P t b) : Along step P s (as ++ bs) := by
  induction as generalizing s with
  | nil =>
    rw [along_iff]
    intro pre b post t heq _
    exact hbs b (by rw [← List.nil_append bs, heq]; simp) t
  | cons a as ih => exact ⟨h.1, fun t ht => ih (h.2 t ht)⟩

/-- A condition on the actions alone, in a system that refuses none. -/
theorem along_const (htotal : ∀ s a, (step s a).isSome) {P : α → Prop} {s : σ} {as : List α} :
    Along step (fun _ a => P a) s as ↔ ∀ a ∈ as, P a := by
  induction as generalizing s with
  | nil => simp [Along]
  | cons a as ih =>
    obtain ⟨t, ht⟩ := Option.isSome_iff_exists.mp (htotal s a)
    simp [Along, ht, ih]

/-- **Progress.** If some run from every state that is not done lessens a measure, some run from
every state leads to one that is. -/
theorem exists_exec_of_measure {I D : σ → Prop} (μ : σ → ℕ)
    (hstep : ∀ s a t, I s → step s a = some t → I t)
    (hprogress : ∀ s, I s → D s ∨ ∃ as t, exec step s as = some t ∧ μ t < μ s) {s : σ} (hs : I s) :
    ∃ as t, exec step s as = some t ∧ D t := by
  induction hn : μ s using Nat.strong_induction_on generalizing s with
  | _ n ih =>
    rcases hprogress s hs with hdone | ⟨as, t, has, hlt⟩
    · exact ⟨[], s, rfl, hdone⟩
    · have ht : I t := exec_invariant hstep hs has
      obtain ⟨bs, u, hbs, hdone⟩ := ih (μ t) (hn ▸ hlt) ht rfl
      exact ⟨as ++ bs, u, exec_append.mpr ⟨t, has, hbs⟩, hdone⟩

/-! ### Refinement -/

/-- **Refinement.** If every step is matched by a run of another system, every run is. -/
theorem exec_refines {σ' α' : Type*} {step' : σ' → α' → Option σ'} {f : σ → σ'}
    (hstep : ∀ s a t, step s a = some t → Reachable step' (f s) (f t)) {s t : σ} {as : List α}
    (hrun : exec step s as = some t) : Reachable step' (f s) (f t) := by
  induction as generalizing s with
  | nil =>
    obtain rfl : s = t := by simpa [exec] using hrun
    exact .refl _
  | cons a as ih =>
    obtain ⟨u, hu, hrest⟩ := exec_cons.mp hrun
    exact (hstep s a u hu).trans (ih hrest)

/-- **Lockstep.** If related states answer every action alike, with related states or by
refusing it, they answer every run alike. -/
theorem exec_rel {σ' : Type*} {step' : σ' → α → Option σ'} {R : σ → σ' → Prop}
    (hstep : ∀ s u a, R s u → Option.Rel R (step s a) (step' u a)) {s : σ} {u : σ'} (hs : R s u)
    (as : List α) : Option.Rel R (exec step s as) (exec step' u as) := by
  induction as generalizing s u with
  | nil => exact .some hs
  | cons a as ih =>
    have ha := hstep s u a hs
    simp only [exec]
    rcases hsa : step s a with _ | t <;> rcases hua : step' u a with _ | v <;> rw [hsa, hua] at ha
    · exact .none
    · cases ha
    · cases ha
    · obtain ⟨ht⟩ := ha
      exact ih ht

/-- Runs in lockstep cannot be told apart by an observation that related states agree on. -/
theorem exec_map_eq {σ' β : Type*} {step' : σ' → α → Option σ'} {R : σ → σ' → Prop} {f : σ → β}
    {g : σ' → β} (hstep : ∀ s u a, R s u → Option.Rel R (step s a) (step' u a))
    (hobserve : ∀ s u, R s u → f s = g u) {s : σ} {u : σ'} (hs : R s u) (as : List α) :
    (exec step s as).map f = (exec step' u as).map g := by
  have hrel := exec_rel hstep hs as
  generalize exec step s as = t, exec step' u as = v at hrel ⊢
  cases hrel with
  | none => rfl
  | some h => exact congrArg some (hobserve _ _ h)

/-! ### Deterministic machines -/

/-- Runs compose. -/
theorem iterate_trans {f : σ → σ} {s t u : σ} {m n : ℕ} (h : f^[m] s = t) (h' : f^[n] t = u) :
    f^[m + n] s = u := by
  rw [Nat.add_comm, Function.iterate_add_apply, h, h']

end Transition
