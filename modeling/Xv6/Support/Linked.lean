import Mathlib.Data.List.Nodup
import Mathlib.Logic.Function.Basic

/-!
# Null-terminated linked lists

Nodes that are linked by a field `next` which is null in the last one.  `Chain next p l`
says that following the links from `p` leads through the nodes `l` to the end; `last`
walks to the last node.
-/

namespace Xv6.Support.Linked

variable {α : Type} {next next' : α → Option α} {p : Option α} {a b : α} {l m : List α}

/-- Following `next` from `p` leads through `l` to the end. -/
def Chain (next : α → Option α) : Option α → List α → Prop
  | p, [] => p = none
  | p, a :: l => p = some a ∧ Chain next (next a) l

theorem Chain.head_eq (h : Chain next p l) : p = l.head? := by
  cases l with
  | nil => exact h
  | cons a l => exact h.1

theorem Chain.congr (h : Chain next p l) (hnext : ∀ x ∈ l, next' x = next x) :
    Chain next' p l := by
  induction l generalizing p with
  | nil => exact h
  | cons a l ih =>
      refine ⟨h.1, ?_⟩
      rw [hnext a List.mem_cons_self]
      exact ih h.2 fun x hx => hnext x (List.mem_cons_of_mem a hx)

/-- A node is linked to the last one. -/
theorem Chain.snoc (h : Chain next p (l ++ [a])) (hnext : ∀ x ∈ l, next' x = next x)
    (ha : next' a = some b) (hb : next' b = none) : Chain next' p (l ++ [a] ++ [b]) := by
  induction l generalizing p with
  | nil => exact ⟨h.1, ha, hb⟩
  | cons x l ih =>
      refine ⟨h.1, ?_⟩
      rw [hnext x List.mem_cons_self]
      exact ih h.2 fun y hy => hnext y (List.mem_cons_of_mem x hy)

/-- Walk to the last node, along at most the given number of nodes. -/
def last (next : α → Option α) : ℕ → α → Option α
  | 0, _ => none
  | k + 1, a =>
      match next a with
      | none => some a
      | some b => last next k b

theorem Chain.last_eq {k : ℕ} (h : Chain next (some b) (l ++ [a])) (hk : l.length < k) :
    last next k b = some a := by
  induction l generalizing b k with
  | nil =>
      obtain ⟨k, rfl⟩ : ∃ j, k = j + 1 := ⟨k - 1, by omega⟩
      obtain ⟨hba, hnone⟩ := h
      obtain rfl := Option.some.inj hba
      have hnone' : next b = none := hnone
      rw [last, hnone']
  | cons x l ih =>
      obtain ⟨k, rfl⟩ : ∃ j, k = j + 1 := ⟨k - 1, by omega⟩
      obtain ⟨hbx, hrest⟩ := h
      obtain rfl := Option.some.inj hbx
      rw [List.length_cons] at hk
      cases hnext : next b with
      | none =>
          rw [hnext] at hrest
          have hhead := hrest.head_eq
          cases l <;> simp at hhead
      | some c =>
          rw [last, hnext]
          rw [hnext] at hrest
          exact ih hrest (by omega)

end Xv6.Support.Linked
