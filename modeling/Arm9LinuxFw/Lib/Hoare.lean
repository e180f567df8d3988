import Mathlib.Data.Nat.Notation
import Mathlib.Tactic.Common

/-!
# Weakest preconditions

Programs that act on a state and may run out of fuel, `Prog σ α`; a program that does leaves the
state it got to.

* `wp x Q E` is what has to hold for `x` to return with `Q` of its result and of the state, or to be
  cut short in a state with `E`. With no such state allowed (`never`) it is total correctness, and
  an `E` that says as much as `Q` makes it a property of runs however long they are let run.
* It is computed along a program by the simp set (`wp_bind`, `wp_pure`, `wp_modify` and so on).
  What is left to the user are loops: `untilDone` repeats its body until that is done, for
  `fuel` rounds at most. `wp_untilDone` takes an invariant, and `wp_untilDone_of_variant` a variant
  that falls, for loops that are to end.
* `Frame` is a reflexive and transitive relation between states, with a predicate for states in
  the middle. `Frame.Does` and `Frame.Keeps` say of a program that it stays in a frame, to its end
  or wherever it is cut short. They compose along a program without a look at what it computes, so
  that a part of the state which does not change costs one lemma for each function.
-/

namespace Hoare

universe u

variable {σ α β γ : Type u}

/-- A program on states `σ`; `failure` is what it comes to when the fuel does not suffice. -/
abbrev Prog (σ α : Type u) := OptionT (StateM σ) α

/-- The result of a program, if it has one, and the state it leaves. -/
def exec (x : Prog σ α) (s : σ) : Option α × σ := x.run.run s

/-- The program returns from `s`, with `Q` of its result and the state it leaves, or it is cut
short in a state with `E`. -/
def wp (x : Prog σ α) (Q : α → σ → Prop) (E : σ → Prop) (s : σ) : Prop :=
  (exec x s).1.elim (E (exec x s).2) (Q · (exec x s).2)

/-- The state that no program is to be cut short in. -/
def never (_ : σ) : Prop := False

/-- A program that is never cut short returns. -/
theorem wp.returns {x : Prog σ α} {Q : α → σ → Prop} {s : σ} (h : wp x Q never s) :
    ∃ a t, exec x s = (some a, t) ∧ Q a t := by
  unfold wp at h
  rcases hx : exec x s with ⟨_ | a, t⟩
  · rw [hx] at h
    exact h.elim
  · rw [hx] at h
    exact ⟨a, t, rfl, h⟩

theorem wp.of_exec {x : Prog σ α} {Q : α → σ → Prop} {E : σ → Prop} {s t : σ} {a : α}
    (h : wp x Q E s) (hrun : exec x s = (some a, t)) : Q a t := by
  unfold wp at h
  rwa [hrun] at h

/-- What holds of a program whether or not it is cut short holds of the state it leaves. -/
theorem wp.always {x : Prog σ α} {E : σ → Prop} {s : σ} (h : wp x (fun _ => E) E s) :
    E (exec x s).2 := by
  unfold wp at h
  cases hx : (exec x s).1 with
  | none => rwa [hx] at h
  | some a => rwa [hx] at h

/-! ### Consequence -/

section Mono

variable {x : Prog σ α} {P Q : α → σ → Prop} {D E : σ → Prop} {s : σ}

/-- The rule of consequence, for both ends. -/
theorem wp.mono' (h : wp x P D s) (hPQ : ∀ a t, P a t → Q a t) (hDE : ∀ t, D t → E t) :
    wp x Q E s := by
  unfold wp at h ⊢
  cases hx : (exec x s).1 with
  | none => exact hDE _ (by rwa [hx] at h)
  | some a => exact hPQ a _ (by rwa [hx] at h)

theorem wp.mono (h : wp x P E s) (hPQ : ∀ a t, P a t → Q a t) : wp x Q E s :=
  h.mono' hPQ fun _ => id

/-- A program that returns does so with whatever it returns with if it does. -/
theorem wp.and (hP : wp x P D s) (hQ : wp x Q E s) :
    wp x (fun a t => P a t ∧ Q a t) (fun t => D t ∧ E t) s := by
  unfold wp at hP hQ ⊢
  cases hx : (exec x s).1 with
  | none => exact ⟨by rwa [hx] at hP, by rwa [hx] at hQ⟩
  | some a => exact ⟨by rwa [hx] at hP, by rwa [hx] at hQ⟩

end Mono

/-! ### Along a program -/

section Rules

variable {Q : α → σ → Prop} {R : β → σ → Prop} {E : σ → Prop} {s : σ}

@[simp]
theorem wp_pure (a : α) : wp (pure a : Prog σ α) Q E s ↔ Q a s := Iff.rfl

@[simp]
theorem wp_failure : wp (failure : Prog σ α) Q E s ↔ E s := Iff.rfl

/-- A program goes on with the result of its first part, or stops where that was cut short. -/
theorem exec_bind (x : Prog σ α) (f : α → Prog σ β) (s : σ) :
    exec (x >>= f) s =
      (exec x s).1.elim (none, (exec x s).2) fun a => exec (f a) (exec x s).2 := by
  have hrun : exec (x >>= f) s =
      (match exec x s with
        | (some a, t) => exec (f a) t
        | (none, t) => (none, t)) := by
    change (x >>= f).run.run s = _
    rw [OptionT.run_bind]
    change (StateT.run (x.run >>= _) s : Id _) = _
    rw [StateT.run_bind]
    rcases hx : exec x s with ⟨_ | a, t⟩
    · change (x.run.run s) = _ at hx
      rw [hx]
      rfl
    · change (x.run.run s) = _ at hx
      rw [hx]
      rfl
  rw [hrun]
  rcases exec x s with ⟨_ | a, t⟩
  · rfl
  · rfl

/-- The rule of sequencing. -/
@[simp]
theorem wp_bind (x : Prog σ α) (f : α → Prog σ β) :
    wp (x >>= f) R E s ↔ wp x (fun a t => wp (f a) R E t) E s := by
  simp only [wp, exec_bind]
  cases (exec x s).1 with
  | none => rfl
  | some a => rfl

@[simp]
theorem wp_map (g : α → β) (x : Prog σ α) :
    wp (g <$> x) R E s ↔ wp x (fun a t => R (g a) t) E s := by
  rw [map_eq_pure_bind, wp_bind]
  simp only [wp_pure]

@[simp]
theorem wp_get {R : σ → σ → Prop} : wp (get : Prog σ σ) R E s ↔ R s s := Iff.rfl

@[simp]
theorem wp_modify {R : PUnit → σ → Prop} (f : σ → σ) :
    wp (modify f : Prog σ PUnit) R E s ↔ R ⟨⟩ (f s) := Iff.rfl

@[simp]
theorem wp_modifyGet (f : σ → α × σ) :
    wp (modifyGet f : Prog σ α) Q E s ↔ Q (f s).1 (f s).2 := Iff.rfl

theorem wp_ite (p : Prop) [Decidable p] (x y : Prog σ α) :
    wp (if p then x else y) Q E s ↔ if p then wp x Q E s else wp y Q E s := by
  split_ifs <;> rfl

end Rules

/-! ### Loops -/

/-- Repeat a body that either goes on, with another value, or is done. -/
def untilDone (body : α → Prog σ (α ⊕ β)) : ℕ → α → Prog σ β
  | 0, _ => failure
  | fuel + 1, a => body a >>= Sum.elim (untilDone body fuel) pure

section Loops

variable {body : α → Prog σ (α ⊕ β)} {Q : β → σ → Prop} {E : σ → Prop}

/-- **Loops**: what every round keeps holds when the loop is left, or cut short. -/
theorem wp_untilDone {I : α → σ → Prop} (hcut : ∀ a s, I a s → E s)
    (hbody : ∀ a s, I a s → wp (body a) (fun r t => Sum.elim (I · t) (Q · t) r) E s) (fuel : ℕ)
    {a : α} {s : σ} (hs : I a s) : wp (untilDone body fuel a) Q E s := by
  induction fuel generalizing a s with
  | zero => exact wp_failure.mpr (hcut a s hs)
  | succ fuel ih =>
    rw [untilDone, wp_bind]
    refine (hbody a s hs).mono fun r t hr => ?_
    cases r with
    | inl b => exact ih hr
    | inr b => exact (wp_pure b).mpr hr

/-- **Loops** end if every round that goes on lessens a variant, and the fuel exceeds it. -/
theorem wp_untilDone_of_variant {I : α → σ → Prop} (variant : α → σ → ℕ)
    (hbody : ∀ a s, I a s → wp (body a)
      (fun r t => Sum.elim (fun b => I b t ∧ variant b t < variant a s) (Q · t) r) E s) {fuel : ℕ}
    {a : α} {s : σ} (hs : I a s) (hfuel : variant a s < fuel) :
    wp (untilDone body fuel a) Q E s := by
  induction fuel generalizing a s with
  | zero => exact absurd hfuel (Nat.not_lt_zero _)
  | succ fuel ih =>
    rw [untilDone, wp_bind]
    refine (hbody a s hs).mono fun r t hr => ?_
    cases r with
    | inl b => exact ih hr.1 (by have hlt := hr.2; omega)
    | inr b => exact (wp_pure b).mpr hr

end Loops

/-! ### Frames -/

/-- What a program leaves as it is, or moves in one direction only; `cut` is what is left of that
when it is cut short. -/
structure Frame (σ : Type u) where
  rel : σ → σ → Prop
  cut : σ → σ → Prop
  refl : ∀ s, rel s s
  trans : ∀ {s t u}, rel s t → rel t u → rel s u
  cut_of_rel : ∀ {s t}, rel s t → cut s t
  trans_cut : ∀ {s t u}, rel s t → cut t u → cut s u

namespace Frame

/-- A frame that runs which are cut short stay inside like others. -/
def ofPreorder (rel : σ → σ → Prop) (refl : ∀ s, rel s s)
    (trans : ∀ {s t u}, rel s t → rel t u → rel s u) : Frame σ where
  rel := rel
  cut := rel
  refl := refl
  trans := trans
  cut_of_rel := id
  trans_cut := trans

/-- An observation stays the same. -/
def same (f : σ → β) : Frame σ :=
  ofPreorder (fun s t => f t = f s) (fun _ => rfl) fun h h' => h'.trans h

/-- A frame for a part of the state. -/
def comap (f : σ → β) (F : Frame β) : Frame σ where
  rel s t := F.rel (f s) (f t)
  cut s t := F.cut (f s) (f t)
  refl s := F.refl (f s)
  trans h h' := F.trans h h'
  cut_of_rel h := F.cut_of_rel h
  trans_cut h h' := F.trans_cut h h'

/-- Two frames at once. -/
def inf (F G : Frame σ) : Frame σ where
  rel s t := F.rel s t ∧ G.rel s t
  cut s t := F.cut s t ∧ G.cut s t
  refl s := ⟨F.refl s, G.refl s⟩
  trans h h' := ⟨F.trans h.1 h'.1, G.trans h.2 h'.2⟩
  cut_of_rel h := ⟨F.cut_of_rel h.1, G.cut_of_rel h.2⟩
  trans_cut h h' := ⟨F.trans_cut h.1 h'.1, G.trans_cut h.2 h'.2⟩

variable (F : Frame σ)

/-- Every run stays inside the frame, if it is cut short as far as that goes then. -/
def Keeps (x : Prog σ α) : Prop := ∀ s, wp x (fun _ t => F.rel s t) (F.cut s) s

/-- Every run ends, inside the frame. -/
def Does (x : Prog σ α) : Prop := ∀ s, wp x (fun _ t => F.rel s t) never s

variable {F}

/-- A program that stays in a frame to its end stays in it when it is cut short. -/
theorem Does.keeps {x : Prog σ α} (h : F.Does x) : F.Keeps x := fun s =>
  (h s).mono' (fun _ _ => id) fun _ => False.elim

theorem Does.inf {G : Frame σ} {x : Prog σ α} (hF : F.Does x) (hG : G.Does x) :
    (F.inf G).Does x := fun s => ((hF s).and (hG s)).mono' (fun _ _ => id) fun _ h => h.1

theorem does_pure (a : α) : F.Does (pure a : Prog σ α) := fun s => (wp_pure a).mpr (F.refl s)

theorem does_bind {x : Prog σ α} {f : α → Prog σ β} (hx : F.Does x) (hf : ∀ a, F.Does (f a)) :
    F.Does (x >>= f) := fun s =>
  (wp_bind x f).mpr ((hx s).mono fun a t ht => (hf a t).mono fun _ _ hu => F.trans ht hu)

theorem does_ite {p : Prop} [Decidable p] {x y : Prog σ α} (hx : F.Does x) (hy : F.Does y) :
    F.Does (if p then x else y) := by
  split_ifs
  · exact hx
  · exact hy

theorem keeps_pure (a : α) : F.Keeps (pure a : Prog σ α) := (does_pure a).keeps

/-- Frames compose along a program that may be cut short in either part. -/
theorem keeps_bind {x : Prog σ α} {f : α → Prog σ β} (hx : F.Keeps x) (hf : ∀ a, F.Keeps (f a)) :
    F.Keeps (x >>= f) := fun s =>
  (wp_bind x f).mpr ((hx s).mono fun a t ht =>
    (hf a t).mono' (fun _ _ hu => F.trans ht hu) fun _ hu => F.trans_cut ht hu)

theorem keeps_ite {p : Prop} [Decidable p] {x y : Prog σ α} (hx : F.Keeps x) (hy : F.Keeps y) :
    F.Keeps (if p then x else y) := by
  split_ifs
  · exact hx
  · exact hy

/-- A loop stays in a frame if its rounds do, however many it is let run. -/
theorem keeps_untilDone {body : α → Prog σ (α ⊕ β)} (hbody : ∀ a, F.Keeps (body a)) (fuel : ℕ)
    (a : α) : F.Keeps (untilDone body fuel a) := by
  intro s
  refine wp_untilDone (I := fun _ t => F.rel s t) (fun _ _ => F.cut_of_rel) (fun b t ht => ?_) fuel
    (F.refl s)
  refine (hbody b t).mono' (fun r u hu => ?_) fun _ hu => F.trans_cut ht hu
  cases r with
  | inl _ => exact F.trans ht hu
  | inr _ => exact F.trans ht hu

end Frame

end Hoare
