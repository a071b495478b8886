import Mathlib.Data.List.Nodup
import Mathlib.Logic.Function.Basic
import Xv6.Support.Cycle

/-!
# Doubly linked circles

Nodes linked by two fields `next` and `prev` into a circle that also goes through a header.
A place of the circle is a node or, as `none`, the header.  A node can be taken out of the
circle, and put back behind the header; `search` follows the links of one direction from a
place on until it finds a node or comes back to the header.
-/

namespace Xv6.Support

open Xv6.Support.Cycle

/-- The links of the header and the nodes. -/
structure Links (α : Type) where
  next : Option α → Option α
  prev : Option α → Option α

namespace Links

variable {α : Type} {c : Links α} {a : α} {l m : List α}

/-- The circle through the nodes `l`, in the order in which `next` leads through them. -/
structure Circle (c : Links α) (l : List α) : Prop where
  forward : Path c.next none (l.map some) none
  backward : Path c.prev none (l.reverse.map some) none

/-- The first node with property `p` on the way along `next`, from a place on. -/
def search (next : Option α → Option α) (p : α → Bool) : ℕ → Option α → Option α
  | 0, _ => none
  | _ + 1, none => none
  | k + 1, some a => if p a then some a else search next p k (next (some a))

theorem search_of_path {next : Option α → Option α} {p : α → Bool} {k : ℕ} {x : Option α}
    (h : Path next x (l.map some) none) (hk : l.length ≤ k) :
    search next p k (next x) = l.find? p := by
  induction l generalizing x k with
  | nil =>
      have hx : next x = none := h
      rw [hx]
      cases k <;> rfl
  | cons a l ih =>
      obtain ⟨k, rfl⟩ : ∃ j, k = j + 1 := ⟨k - 1, by rw [List.length_cons] at hk; omega⟩
      have hx : next x = some a := h.1
      rw [hx, search, List.find?_cons]
      cases p a with
      | true => rfl
      | false => exact ih h.2 (Nat.le_of_succ_le_succ hk)

/-- The last place of a path before its end. -/
theorem eq_append_last (l : List α) :
    ∃ u, none :: l.map some = u ++ [l.getLast?] := by
  rcases List.eq_nil_or_concat l with rfl | ⟨l', a, rfl⟩
  · exact ⟨[], rfl⟩
  · refine ⟨none :: l'.map some, ?_⟩
    rw [List.concat_eq_append, List.map_append, List.getLast?_append]
    rfl

theorem next_of_path {next : Option α → Option α} {x : Option α}
    (h : Path next x (l.map some) none) : next x = l.head? := by
  cases l with
  | nil => exact h
  | cons a l => exact h.1

theorem notMem_of_last {u : List (Option α)} (hl : l.Nodup)
    (hu : none :: l.map some = u ++ [l.getLast?]) : ∀ x ∈ u, x ≠ l.getLast? := by
  have hnodup : (none :: l.map some).Nodup := by
    refine List.nodup_cons.mpr ⟨by simp, hl.map fun _ _ h => Option.some.inj h⟩
  rw [hu] at hnodup
  intro x hx heq
  exact (List.nodup_append.mp hnodup).2.2 x hx x (by simp [heq]) rfl

theorem Circle.search_next (h : c.Circle l) (p : α → Bool) {k : ℕ} (hk : l.length ≤ k) :
    search c.next p k (c.next none) = l.find? p :=
  search_of_path h.forward hk

theorem Circle.search_prev (h : c.Circle l) (p : α → Bool) {k : ℕ} (hk : l.length ≤ k) :
    search c.prev p k (c.prev none) = l.reverse.find? p :=
  search_of_path h.backward (by rwa [List.length_reverse])

section

variable [DecidableEq α]

/-- Take a node out of the circle. -/
def unlink (c : Links α) (a : α) : Links α where
  next := Function.update c.next (c.prev (some a)) (c.next (some a))
  prev := Function.update c.prev (c.next (some a)) (c.prev (some a))

/-- Put a node into the circle, right behind the header. -/
def push (c : Links α) (a : α) : Links α where
  next := Function.update (Function.update c.next (some a) (c.next none)) none (some a)
  prev := Function.update (Function.update c.prev (some a) none) (c.next none) (some a)

/-- One direction, without one of the nodes. -/
theorem path_without {next : Option α → Option α} (hl : (l ++ a :: m).Nodup)
    (h : Path next none ((l ++ a :: m).map some) none) :
    Path (Function.update next l.getLast? (next (some a))) none ((l ++ m).map some) none := by
  obtain ⟨hfirst, hrest, hdisj⟩ := List.nodup_append.mp hl
  obtain ⟨u, hu⟩ := eq_append_last l
  rw [List.map_append, List.map_cons] at h
  rw [List.map_append]
  apply h.unlink hu
  · exact Function.update_self _ _ _
  · exact fun x hx => Function.update_of_ne (notMem_of_last hfirst hu x hx) _ _
  · intro y hy
    apply Function.update_of_ne
    rintro rfl
    obtain ⟨b, hb, heq⟩ := List.mem_map.mp hy
    have hlast : b ∈ l := List.mem_of_getLast? heq.symm
    exact hdisj b hlast b (List.mem_cons_of_mem a hb) rfl

/-- The direction `next`, with one more node. -/
theorem path_cons {next : Option α → Option α} (ha : a ∉ l)
    (h : Path next none (l.map some) none) :
    Path (Function.update (Function.update next (some a) (next none)) none (some a)) none
      ((a :: l).map some) none := by
  refine ⟨Function.update_self _ _ _, h.restart ?_ fun x hx => ?_⟩
  · rw [Function.update_of_ne (Option.some_ne_none a), Function.update_self]
  · obtain ⟨b, hb, rfl⟩ := List.mem_map.mp hx
    have hba : some b ≠ some a := fun heq => ha (Option.some.inj heq ▸ hb)
    rw [Function.update_of_ne (Option.some_ne_none b), Function.update_of_ne hba]

/-- The direction `prev`, with one more node. -/
theorem path_snoc {prev : Option α → Option α} (hl : l.Nodup) (ha : a ∉ l)
    (h : Path prev none (l.map some) none) :
    Path (Function.update (Function.update prev (some a) none) l.getLast? (some a)) none
      ((l ++ [a]).map some) none := by
  obtain ⟨u, hu⟩ := eq_append_last l
  have hlast : l.getLast? ≠ some a := fun heq => ha (List.mem_of_getLast? heq)
  have hother : ∀ x ∈ u, x ≠ some a := by
    rintro _ hx rfl
    have hmem : some a ∈ none :: l.map some := by
      rw [hu]
      exact List.mem_append_left _ hx
    simp [ha] at hmem
  rw [List.map_append]
  apply path_append.mpr
  refine ⟨h.retarget hu (Function.update_self _ _ _) fun x hx => ?_, ?_⟩
  · rw [Function.update_of_ne (notMem_of_last hl hu x hx), Function.update_of_ne (hother x hx)]
  · exact (Function.update_of_ne hlast.symm _ _).trans (Function.update_self _ _ _)

namespace Circle

theorem unlink (h : c.Circle (l ++ a :: m)) (hl : (l ++ a :: m).Nodup) :
    (c.unlink a).Circle (l ++ m) := by
  have hreverse : (l ++ a :: m).reverse = m.reverse ++ a :: l.reverse := by simp
  have hback := h.backward
  rw [hreverse] at hback
  have hl' : (m.reverse ++ a :: l.reverse).Nodup := by
    rw [← hreverse]
    exact List.nodup_reverse.mpr hl
  have hprev : c.prev (some a) = l.getLast? := by
    rw [List.map_append, List.map_cons] at hback
    rw [next_of_path (path_append.mp hback).2, List.head?_reverse]
  have hnext : c.next (some a) = m.reverse.getLast? := by
    have hforward := h.forward
    rw [List.map_append, List.map_cons] at hforward
    rw [next_of_path (path_append.mp hforward).2, List.getLast?_reverse]
  constructor
  · have hpath := path_without hl h.forward
    rwa [← hprev] at hpath
  · have hpath := path_without hl' hback
    rw [← hnext] at hpath
    rw [List.reverse_append]
    exact hpath

theorem push (h : c.Circle l) (hl : l.Nodup) (ha : a ∉ l) : (c.push a).Circle (a :: l) := by
  have hnext : c.next none = l.reverse.getLast? := by
    rw [next_of_path h.forward, List.getLast?_reverse]
  constructor
  · exact path_cons ha h.forward
  · have hpath := path_snoc (List.nodup_reverse.mpr hl) (by simpa using ha) h.backward
    rw [← hnext] at hpath
    rw [List.reverse_cons]
    exact hpath

/-- Nodes put into a circle one after the other. -/
theorem pushes (h : c.Circle l) (hl : (m.reverse ++ l).Nodup) :
    (m.foldl Links.push c).Circle (m.reverse ++ l) := by
  induction m generalizing c l with
  | nil => exact h
  | cons a m ih =>
      rw [List.reverse_cons, List.append_assoc] at hl ⊢
      obtain ⟨ha, hl'⟩ := List.nodup_cons.mp (List.nodup_append.mp hl).2.1
      exact ih (h.push hl' ha) hl

end Circle

end

end Links

end Xv6.Support
