import Mathlib.Data.Multiset.Sort
import Mathlib.Data.Multiset.Filter
import Muduo.Foundations.Loop

/-! # Priority queues

`PriorityQueue α` is an implementation of a priority queue over a linear order together with the
proof that it is a correct one: its contents are a multiset, `top` is a minimum and `pop` removes
the top.

* **`PriorityQueue.popBelow b q`** is the loop that takes the top out while it is below `b`;
* **`PriorityQueue.popBelow_spec`** says that it ends with the elements below `b` in increasing
  order, and leaves the others. -/

namespace Muduo

/-- A correct implementation of a priority queue. -/
structure PriorityQueue (α : Type) [LinearOrder α] where
  /-- The states of the implementation. -/
  Queue : Type
  /-- The empty queue. -/
  new : Queue
  /-- Whether the queue is empty. -/
  empty : Queue → Bool
  /-- The first element. -/
  top : Queue → Option α
  /-- Add an element. -/
  push : Queue → α → Queue
  /-- Remove the first element. -/
  pop : Queue → Option Queue
  /-- The elements. -/
  contents : Queue → Multiset α
  contents_new : contents new = 0
  empty_iff : ∀ q, empty q = true ↔ contents q = 0
  exists_top : ∀ q, contents q ≠ 0 → ∃ a, top q = some a ∧ a ∈ contents q ∧ ∀ b ∈ contents q, a ≤ b
  contents_push : ∀ q a, contents (push q a) = a ::ₘ contents q
  exists_pop : ∀ q a, contents q ≠ 0 → top q = some a →
    ∃ q', pop q = some q' ∧ contents q' = (contents q).erase a

namespace PriorityQueue

variable {α : Type} [LinearOrder α] (Q : PriorityQueue α)

/-- One round of taking the top out while it is below `b`. -/
def popBelowRound (b : α) : Q.Queue × List α → Option ((Q.Queue × List α) ⊕ (Q.Queue × List α))
  | (q, l) =>
    if Q.empty q then some (.inr (q, l))
    else (Q.top q).bind fun a =>
      if a < b then (Q.pop q).map fun q' => .inl (q', l ++ [a]) else some (.inr (q, l))

/-- Take the top out while it is below `b`: what is left and what was taken out, in order. -/
def popBelow (b : α) (q : Q.Queue) : Option (Q.Queue × List α) :=
  Loop.run (Q.popBelowRound b) (Multiset.card (Q.contents q) + 1) (q, [])

/-- The elements below `b` in increasing order. -/
def below (b : α) (q : Q.Queue) : List α := ((Q.contents q).filter (· < b)).sort

/-- What holds between two rounds: `l` was taken out in order, and is below what is left. -/
structure PopInv (b : α) (q₀ : Q.Queue) (p : Q.Queue × List α) : Prop where
  sum : (p.2 : Multiset α) + Q.contents p.1 = Q.contents q₀
  lt : ∀ a ∈ p.2, a < b
  sorted : p.2.Pairwise (· ≤ ·)
  le_left : ∀ a ∈ p.2, ∀ c ∈ Q.contents p.1, a ≤ c

variable {Q}

theorem PopInv.next {b a : α} {q₀ q q' : Q.Queue} {l : List α} (h : Q.PopInv b q₀ (q, l))
    (hmem : a ∈ Q.contents q) (hmin : ∀ c ∈ Q.contents q, a ≤ c) (hlt : a < b)
    (hq' : Q.contents q' = (Q.contents q).erase a) : Q.PopInv b q₀ (q', l ++ [a]) := by
  have hsub {c : α} (hc : c ∈ Q.contents q') : c ∈ Q.contents q := by
    rw [hq'] at hc
    exact Multiset.mem_of_mem_erase hc
  refine ⟨?_, ?_, ?_, ?_⟩
  · rw [← h.sum, hq', ← Multiset.coe_add, Multiset.add_assoc, Multiset.coe_singleton,
      Multiset.singleton_add, Multiset.cons_erase hmem]
  · intro c hc
    rcases List.mem_append.mp hc with hc | hc
    · exact h.lt c hc
    · rwa [List.mem_singleton.mp hc]
  · refine List.pairwise_append.mpr ⟨h.sorted, List.pairwise_singleton _ _, fun c hc d hd => ?_⟩
    rw [List.mem_singleton.mp hd]
    exact h.le_left c hc a hmem
  · intro c hc d hd
    rcases List.mem_append.mp hc with hc | hc
    · exact h.le_left c hc d (hsub hd)
    · rw [List.mem_singleton.mp hc]
      exact hmin d (hsub hd)

/-- The loop stops where nothing that is left is below `b`. -/
theorem PopInv.stop {b : α} {q₀ q : Q.Queue} {l : List α} (h : Q.PopInv b q₀ (q, l))
    (hleft : ∀ c ∈ Q.contents q, ¬c < b) :
    l = Q.below b q₀ ∧ Q.contents q = (Q.contents q₀).filter (¬· < b) := by
  have hl : (l : Multiset α).filter (· < b) = l := Multiset.filter_eq_self.mpr h.lt
  have hl' : (l : Multiset α).filter (¬· < b) = 0 :=
    Multiset.filter_eq_nil.mpr fun a ha hn => hn (h.lt a ha)
  have hq : (Q.contents q).filter (· < b) = 0 := Multiset.filter_eq_nil.mpr hleft
  have hq' : (Q.contents q).filter (¬· < b) = Q.contents q := Multiset.filter_eq_self.mpr hleft
  constructor
  · rw [below, ← h.sum, Multiset.filter_add, hl, hq, Multiset.add_zero, Multiset.coe_sort]
    exact (List.mergeSort_eq_self (· ≤ ·) h.sorted).symm
  · rw [← h.sum, Multiset.filter_add, hl', hq', Multiset.zero_add]

/-- A round either stops, or takes one element out. -/
theorem PopInv.round {b : α} {q₀ : Q.Queue} {p : Q.Queue × List α} (h : Q.PopInv b q₀ p) :
    (∃ r, Q.popBelowRound b p = some (.inr r) ∧ r.2 = Q.below b q₀ ∧
      Q.contents r.1 = (Q.contents q₀).filter (¬· < b)) ∨
    ∃ p', Q.popBelowRound b p = some (.inl p') ∧ Q.PopInv b q₀ p' ∧
      Multiset.card (Q.contents p'.1) < Multiset.card (Q.contents p.1) := by
  obtain ⟨q, l⟩ := p
  by_cases he : Q.empty q = true
  · left
    refine ⟨(q, l), by rw [popBelowRound, if_pos he], h.stop fun c hc => ?_⟩
    rw [(Q.empty_iff q).mp he] at hc
    exact absurd hc (Multiset.notMem_zero c)
  · have hne : Q.contents q ≠ 0 := fun h0 => he ((Q.empty_iff q).mpr h0)
    obtain ⟨a, htop, hmem, hmin⟩ := Q.exists_top q hne
    by_cases hlt : a < b
    · right
      obtain ⟨q', hpop, hq'⟩ := Q.exists_pop q a hne htop
      refine ⟨(q', l ++ [a]), ?_, h.next hmem hmin hlt hq', ?_⟩
      · rw [popBelowRound, if_neg he, htop, Option.bind_some, if_pos hlt, hpop, Option.map_some]
      · rw [hq', Multiset.card_erase_of_mem hmem]
        exact Nat.pred_lt (Multiset.card_pos.mpr hne).ne'
    · left
      refine ⟨(q, l), ?_, h.stop fun c hc hcb => hlt ((hmin c hc).trans_lt hcb)⟩
      rw [popBelowRound, if_neg he, htop, Option.bind_some, if_neg hlt]

/-- **Taking out what is below `b`** ends, with the elements below `b` in increasing order. -/
theorem popBelow_spec (b : α) (q : Q.Queue) : ∃ q', Q.popBelow b q = some (q', Q.below b q) ∧
    Q.contents q' = (Q.contents q).filter (¬· < b) := by
  have hinit : Q.PopInv b q (q, []) := ⟨by simp, by simp, List.Pairwise.nil, by simp⟩
  obtain ⟨⟨q', l⟩, hrun, rfl, hq'⟩ := Loop.run_total
    (fun p : Q.Queue × List α => Multiset.card (Q.contents p.1)) (fun p hp => PopInv.round hp) hinit
    (Nat.lt_succ_self _)
  exact ⟨q', hrun, hq'⟩

end PriorityQueue

end Muduo
