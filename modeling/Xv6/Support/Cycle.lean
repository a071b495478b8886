import Mathlib.Data.List.Basic
import Mathlib.Data.List.Perm.Basic

/-!
# Linked paths and cycles

A list whose nodes are linked by a function `next`, as nodes in memory are linked
by a pointer field.  `Path next a xs b` says that following `next` from `a` leads
through the nodes `xs` to `b`; a cycle is a path from a node to itself, and it can
be entered at any of its nodes.

`walk` follows the links until it finds a node at which it is told to stop.
-/

namespace Xv6.Support.Cycle

variable {α : Type} {next next' : α → α} {a b p : α} {xs ys : List α}

/-- Following `next` from `a` leads through `xs` to `b`. -/
def Path (next : α → α) : α → List α → α → Prop
  | a, [], b => next a = b
  | a, y :: ys, b => next a = y ∧ Path next y ys b

theorem path_append : Path next a (xs ++ p :: ys) b ↔ Path next a xs p ∧ Path next p ys b := by
  induction xs generalizing a with
  | nil => exact Iff.rfl
  | cons x xs ih => simp only [List.cons_append, Path, ih, and_assoc]

theorem Path.congr (h : Path next a xs b) (hnext : ∀ x ∈ a :: xs, next' x = next x) :
    Path next' a xs b := by
  induction xs generalizing a with
  | nil => exact (hnext a (by simp)).trans h
  | cons x xs ih =>
      refine ⟨(hnext a (by simp)).trans h.1, ih h.2 fun y hy => hnext y ?_⟩
      exact List.mem_cons_of_mem _ hy

/-- The same path from another node. -/
theorem Path.restart {c : α} (h : Path next a xs b) (hc : next' c = next a)
    (hnext : ∀ x ∈ xs, next' x = next x) : Path next' c xs b := by
  cases xs with
  | nil => exact hc.trans h
  | cons x xs => exact ⟨hc.trans h.1, h.2.congr hnext⟩

/-- Only the end of the path matters for its last link. -/
theorem Path.retarget {c : α} {u : List α} (h : Path next a xs b) (hu : a :: xs = u ++ [p])
    (hp : next' p = c) (hnext : ∀ x ∈ u, next' x = next x) : Path next' a xs c := by
  induction xs generalizing a u with
  | nil =>
      cases u with
      | nil =>
          obtain rfl : a = p := by simpa using hu
          exact hp
      | cons y u => simp at hu
  | cons x xs ih =>
      cases u with
      | nil => simp at hu
      | cons y u =>
          rw [List.cons_append, List.cons.injEq] at hu
          obtain ⟨rfl, hu⟩ := hu
          refine ⟨(hnext a (by simp)).trans h.1, ih h.2 hu fun z hz => hnext z ?_⟩
          exact List.mem_cons_of_mem _ hz

/-- A path without one of its nodes. -/
theorem Path.unlink {q : α} {u : List α} (h : Path next a (xs ++ p :: ys) b)
    (hu : a :: xs = u ++ [q]) (hq : next' q = next p) (hlow : ∀ x ∈ u, next' x = next x)
    (hhigh : ∀ y ∈ ys, next' y = next y) : Path next' a (xs ++ ys) b := by
  obtain ⟨hfirst, hlast⟩ := path_append.mp h
  cases ys with
  | nil =>
      rw [List.append_nil]
      exact hfirst.retarget hu (hq.trans hlast) hlow
  | cons y ys =>
      refine path_append.mpr ⟨hfirst.retarget hu (hq.trans hlast.1) hlow, ?_⟩
      exact hlast.2.congr hhigh

/-- The path from a node on. -/
theorem Path.suffix {u v : List α} (h : Path next a xs b) (hsplit : a :: xs = u ++ p :: v) :
    Path next p v b := by
  cases u with
  | nil =>
      rw [List.nil_append, List.cons.injEq] at hsplit
      obtain ⟨rfl, rfl⟩ := hsplit
      exact h
  | cons y u =>
      rw [List.cons_append, List.cons.injEq] at hsplit
      obtain ⟨rfl, rfl⟩ := hsplit
      exact (path_append.mp h).2

/-- Every node of a path but the first is reached from one before. -/
theorem Path.exists_prev (h : Path next a xs b) (hp : p ∈ xs ++ [b]) :
    ∃ q ∈ a :: xs, next q = p := by
  induction xs generalizing a with
  | nil =>
      obtain rfl : p = b := by simpa using hp
      exact ⟨a, by simp, h⟩
  | cons x xs ih =>
      rw [List.cons_append, List.mem_cons] at hp
      rcases hp with rfl | hp
      · exact ⟨a, by simp, h.1⟩
      · obtain ⟨q, hq, hnext⟩ := ih h.2 hp
        exact ⟨q, List.mem_cons_of_mem _ hq, hnext⟩

/-- A set that the links do not leave has all nodes of a path from a node of it. -/
theorem Path.subset {S : List α} (h : Path next a xs b) (hS : ∀ p ∈ S, next p ∈ S) (ha : a ∈ S) :
    xs ⊆ S := by
  induction xs generalizing a with
  | nil => exact List.nil_subset S
  | cons x xs ih =>
      have hx : x ∈ S := by
        rw [← h.1]
        exact hS a ha
      exact List.cons_subset.mpr ⟨hx, ih h.2 hx⟩

/-- The links do not leave a cycle. -/
theorem Path.closed (h : Path next a xs a) (hp : p ∈ a :: xs) : next p ∈ a :: xs := by
  obtain ⟨u, v, hsplit⟩ := List.append_of_mem hp
  have hpath := h.suffix hsplit
  cases v with
  | nil =>
      have hnext : next p = a := hpath
      rw [hnext]
      exact List.mem_cons_self
  | cons y v =>
      rw [hpath.1, hsplit]
      simp

/-- A cycle can be entered at any node. -/
theorem Path.rotate (h : Path next a xs a) (hp : p ∈ a :: xs) :
    ∃ ys, Path next p ys p ∧ (p :: ys).Perm (a :: xs) := by
  obtain ⟨u, v, hsplit⟩ := List.append_of_mem hp
  cases u with
  | nil =>
      rw [List.nil_append, List.cons.injEq] at hsplit
      obtain ⟨rfl, rfl⟩ := hsplit
      exact ⟨xs, h, .refl _⟩
  | cons y u =>
      rw [List.cons_append, List.cons.injEq] at hsplit
      obtain ⟨rfl, rfl⟩ := hsplit
      obtain ⟨hfirst, hlast⟩ := path_append.mp h
      refine ⟨v ++ a :: u, path_append.mpr ⟨hlast, hfirst⟩, ?_⟩
      rw [← List.cons_append, ← List.cons_append]
      exact List.perm_append_comm

/-! ## Walking -/

variable {stop : α → Prop} [DecidablePred stop]

/-- Follow the links until `stop` holds, at most the given number of times. -/
def walk (next : α → α) (stop : α → Prop) [DecidablePred stop] : ℕ → α → Option α
  | 0, _ => none
  | k + 1, p => if stop p then some p else walk next stop k (next p)

/-- A walk that stops does so whatever more it is allowed. -/
theorem walk_mono {k m : ℕ} (h : walk next stop k p = some a) (hk : k ≤ m) :
    walk next stop m p = some a := by
  induction k generalizing p m with
  | zero => cases h
  | succ k ih =>
      obtain ⟨m, rfl⟩ : ∃ j, m = j + 1 := ⟨m - 1, by omega⟩
      rw [walk] at h ⊢
      split
      · next hp => rwa [if_pos hp] at h
      · next hp =>
        rw [if_neg hp] at h
        exact ih h (by omega)

/-- The walk along a path stops at the first node that it is to stop at. -/
theorem walk_of_path {k : ℕ} (h : Path next p xs b) (hk : xs.length < k)
    (hstop : ∃ q ∈ p :: xs, stop q) :
    ∃ u q v, p :: xs = u ++ q :: v ∧ (∀ x ∈ u, ¬stop x) ∧ stop q ∧
      walk next stop k p = some q := by
  induction xs generalizing p k with
  | nil =>
      obtain ⟨k, rfl⟩ : ∃ m, k = m + 1 := ⟨k - 1, by omega⟩
      obtain ⟨q, hq, hstopq⟩ := hstop
      obtain rfl : q = p := by simpa using hq
      exact ⟨[], q, [], rfl, by simp, hstopq, if_pos hstopq⟩
  | cons x xs ih =>
      obtain ⟨k, rfl⟩ : ∃ m, k = m + 1 := ⟨k - 1, by omega⟩
      by_cases hp : stop p
      · exact ⟨[], p, x :: xs, rfl, by simp, hp, if_pos hp⟩
      · obtain ⟨q, hq, hstopq⟩ := hstop
        have hq' : q ∈ x :: xs := by
          rcases List.mem_cons.mp hq with rfl | hq
          · exact absurd hstopq hp
          · exact hq
        have hlen : xs.length < k := by
          rw [List.length_cons] at hk
          omega
        obtain ⟨u, r, v, hsplit, hfirst, hr, hwalk⟩ := ih h.2 hlen ⟨q, hq', hstopq⟩
        refine ⟨p :: u, r, v, by rw [hsplit, List.cons_append], ?_, hr, ?_⟩
        · intro y hy
          rcases List.mem_cons.mp hy with rfl | hy
          · exact hp
          · exact hfirst y hy
        · rw [walk, if_neg hp, h.1]
          exact hwalk

end Xv6.Support.Cycle
