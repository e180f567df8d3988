import Mathlib.Data.List.Induction
import Mathlib.Tactic.Common

/-!
# Since

A past-time operator over histories, which are lists with the oldest entry first: `Since P Q h`
says that something with `P` happened and nothing with `Q` after it.

* `since_append_singleton` is its recursion over the history's end, which is what the induction
  over a run needs: the new entry has `P`, or it does not have `Q` and the rest of the history
  decides.
* `since_of_not_since` is the one use of excluded middle that contracts of notifications and
  acknowledgements make: what happened and is not to be seen has been dealt with since.
-/

namespace History

variable {α : Type*}

/-- Something with `P` happened, and nothing with `Q` after it. -/
def Since (P Q : α → Prop) (h : List α) : Prop :=
  ∃ pre a post, h = pre ++ a :: post ∧ P a ∧ ∀ x ∈ post, ¬ Q x

variable {P Q : α → Prop} {h : List α} {a : α}

/-- An entry of a history with one more entry at its end is that entry or an earlier one. -/
theorem append_singleton_eq_append_cons {pre post : List α} {x : α}
    (heq : h ++ [a] = pre ++ x :: post) :
    (h = pre ∧ a = x ∧ post = []) ∨ ∃ post', h = pre ++ x :: post' ∧ post = post' ++ [a] := by
  rcases post.eq_nil_or_concat with rfl | ⟨post', y, rfl⟩
  · obtain ⟨rfl, hlast⟩ := List.append_inj' heq rfl
    exact Or.inl ⟨rfl, List.singleton_inj.mp hlast, rfl⟩
  · rw [List.concat_eq_append, ← List.cons_append, ← List.append_assoc] at heq
    obtain ⟨rfl, hlast⟩ := List.append_inj' heq rfl
    obtain rfl := List.singleton_inj.mp hlast
    exact Or.inr ⟨post', rfl, List.concat_eq_append⟩

@[simp]
theorem not_since_nil : ¬ Since P Q [] := by
  rintro ⟨pre, a, post, h, -⟩
  simp at h

theorem since_append_singleton : Since P Q (h ++ [a]) ↔ P a ∨ ¬ Q a ∧ Since P Q h := by
  constructor
  · rintro ⟨pre, b, post, heq, hP, hQ⟩
    rcases append_singleton_eq_append_cons heq with ⟨-, rfl, -⟩ | ⟨post', rfl, rfl⟩
    · exact Or.inl hP
    · exact Or.inr ⟨hQ a (by simp), pre, b, post', rfl, hP,
        fun y hy => hQ y (List.mem_append_left _ hy)⟩
  · rintro (hP | ⟨hQ, pre, b, post, rfl, hP, hpost⟩)
    · exact ⟨h, a, [], rfl, hP, by simp⟩
    · refine ⟨pre, b, post ++ [a], by simp, hP, ?_⟩
      intro y hy
      rcases List.mem_append.mp hy with hy | hy
      · exact hpost y hy
      · obtain rfl := List.mem_singleton.mp hy
        exact hQ

/-- What comes later and is none of the other kind leaves things as they were. -/
theorem Since.append (hs : Since P Q h) {l : List α} (hl : ∀ x ∈ l, ¬ Q x) :
    Since P Q (h ++ l) := by
  obtain ⟨pre, a, post, rfl, hP, hpost⟩ := hs
  refine ⟨pre, a, post ++ l, by simp, hP, ?_⟩
  intro x hx
  rcases List.mem_append.mp hx with hx | hx
  · exact hpost x hx
  · exact hl x hx

/-- What happened and is not the latest of the two is followed by the other. -/
theorem since_of_not_since (hmem : ∃ x ∈ h, P x) (hnot : ¬ Since P Q h) : Since Q P h := by
  induction h using List.reverseRecOn with
  | nil => simp at hmem
  | append_singleton h a ih =>
    rw [since_append_singleton, not_or, not_and] at hnot
    obtain ⟨ha, hnot⟩ := hnot
    have hbefore : ∃ x ∈ h, P x := by
      obtain ⟨x, hx, hPx⟩ := hmem
      rcases List.mem_append.mp hx with hx | hx
      · exact ⟨x, hx, hPx⟩
      · rw [List.mem_singleton.mp hx] at hPx
        exact absurd hPx ha
    rw [since_append_singleton]
    by_cases hQ : Q a
    · exact Or.inl hQ
    · exact Or.inr ⟨ha, ih hbefore (hnot hQ)⟩

end History
