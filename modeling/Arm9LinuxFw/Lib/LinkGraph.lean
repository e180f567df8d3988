import Mathlib.Data.Finset.Card
import Mathlib.Logic.Relation
import Mathlib.Tactic.Common

/-!
# Chains in a link graph

A link graph gives every node at most one successor, `next : α → Option α`. Following the
links from a node either reaches a node without a link or goes on forever.

* `Chain next a l` says that the former happens and that `l` lists the nodes met; `Ends` that there
  is such a list. There is only one (`Chain.unique`).
* A finite chain meets no node twice (`Chain.nodup`), so its length is bounded by the number of
  nodes of any closed set it starts in: that is the bound on a loop which follows the links.
* Where a chain does not end, neither does the one from the successor, so a loop that has got
  into a circle never gets out.
* A chain depends on the links of its own nodes only (`Chain.congr`).
-/

namespace LinkGraph

variable {α : Type*} (next : α → Option α)

/-- `l` lists the nodes met from `a` up to the first one without a link. -/
inductive Chain : α → List α → Prop
  | last {a : α} : next a = none → Chain a [a]
  | link {a b : α} {l : List α} : next a = some b → Chain b l → Chain a (a :: l)

/-- Following the links from `a` comes to an end. -/
def Ends (a : α) : Prop := ∃ l, Chain next a l

variable {next}

/-- A node has one chain at most. -/
theorem Chain.unique {a : α} {l l' : List α} (h : Chain next a l) (h' : Chain next a l') :
    l = l' := by
  induction h generalizing l' with
  | last hn =>
    cases h' with
    | last _ => rfl
    | link hn' _ => rw [hn] at hn'; cases hn'
  | link hn _ ih =>
    cases h' with
    | last hn' => rw [hn] at hn'; cases hn'
    | link hn' h'' =>
      rw [hn] at hn'
      obtain rfl := Option.some.inj hn'
      rw [ih h'']

/-- A chain depends on the links of its nodes only. -/
theorem Chain.congr {next' : α → Option α} {a : α} {l : List α} (h : Chain next a l)
    (heq : ∀ b ∈ l, next' b = next b) : Chain next' a l := by
  induction h with
  | last hn => exact .last ((heq _ (List.mem_singleton_self _)).trans hn)
  | link hn _ ih =>
    exact .link ((heq _ (List.mem_cons_self ..)).trans hn) (ih fun b hb =>
      heq b (List.mem_cons_of_mem _ hb))

/-- The nodes of a chain are those that the links lead to. -/
theorem Chain.reach {a b : α} {l : List α} (h : Chain next a l) (hb : b ∈ l) :
    Relation.ReflTransGen (fun x y => next x = some y) a b := by
  induction h with
  | last _ =>
    obtain rfl := List.mem_singleton.mp hb
    exact .refl
  | link hn _ ih =>
    rcases List.mem_cons.mp hb with rfl | hb
    · exact .refl
    · exact .head hn (ih hb)

/-- Every node of a chain starts a chain that is no longer. -/
theorem Chain.exists_of_mem {a b : α} {l : List α} (h : Chain next a l) (hb : b ∈ l) :
    ∃ l', Chain next b l' ∧ l'.length ≤ l.length := by
  induction h with
  | last hn =>
    obtain rfl := List.mem_singleton.mp hb
    exact ⟨_, .last hn, le_rfl⟩
  | link hn hc ih =>
    rcases List.mem_cons.mp hb with rfl | hb
    · exact ⟨_, .link hn hc, le_rfl⟩
    · obtain ⟨l', hl', hlen⟩ := ih hb
      exact ⟨l', hl', hlen.trans (by simp)⟩

/-- A chain meets no node twice. -/
theorem Chain.nodup {a : α} {l : List α} (h : Chain next a l) : l.Nodup := by
  induction h with
  | last _ => exact List.nodup_singleton _
  | @link a b l hn hc ih =>
    refine List.nodup_cons.mpr ⟨fun hmem => ?_, ih⟩
    -- met again, the node would start a shorter chain than its own
    obtain ⟨l', hl', hlen⟩ := hc.exists_of_mem hmem
    have heq := (Chain.link hn hc).unique hl'
    rw [← heq, List.length_cons] at hlen
    omega

/-- A chain that stays in a finite set is no longer than the set is large. -/
theorem Chain.length_le_of_subset {a : α} {l : List α} (h : Chain next a l) (s : Finset α)
    (hs : ∀ b ∈ l, b ∈ s) : l.length ≤ s.card := by
  classical
  rw [← List.toFinset_card_of_nodup h.nodup]
  exact Finset.card_le_card fun b hb => hs b (List.mem_toFinset.mp hb)

theorem ends_of_next_eq_none {a : α} (h : next a = none) : Ends next a := ⟨_, .last h⟩

/-- A node's links end exactly when its successor's do. -/
theorem ends_iff_of_next_eq_some {a b : α} (h : next a = some b) :
    Ends next a ↔ Ends next b := by
  constructor
  · rintro ⟨l, hl⟩
    cases hl with
    | last hn => rw [h] at hn; cases hn
    | link hn hc =>
      rw [h] at hn
      obtain rfl := Option.some.inj hn
      exact ⟨_, hc⟩
  · rintro ⟨l, hl⟩
    exact ⟨_, .link h hl⟩

end LinkGraph
