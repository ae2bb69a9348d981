/-
A partial map under a sequence of writes: the last write to a key wins.

`overlay f ws` is f after the writes ws, in order. Results:
- `overlay_congr`: the value at a key depends on f at this key only;
- `overlay_range`: a block of writes to consecutive numbers.
-/
import Mathlib.Tactic

namespace Jos.Lib

variable {α β : Type*} [DecidableEq α]

def overlay (f : α → Option β) (ws : List (α × β)) : α → Option β :=
  ws.foldl (fun g w => Function.update g w.1 (some w.2)) f

theorem overlay_cons (f : α → Option β) (w : α × β) (ws : List (α × β)) :
    overlay f (w :: ws) = overlay (Function.update f w.1 (some w.2)) ws := rfl

theorem overlay_append (f : α → Option β) (ws ws' : List (α × β)) :
    overlay f (ws ++ ws') = overlay (overlay f ws) ws' := List.foldl_append

theorem overlay_congr {f g : α → Option β} {a : α} (h : f a = g a) (ws : List (α × β)) :
    overlay f ws a = overlay g ws a := by
  induction ws generalizing f g with
  | nil => exact h
  | cons w ws ih =>
    refine ih (f := Function.update f w.1 (some w.2)) (g := Function.update g w.1 (some w.2)) ?_
    by_cases ha : a = w.1
    · rw [ha, Function.update_self, Function.update_self]
    · rw [Function.update_of_ne ha, Function.update_of_ne ha, h]

/-- k writes from key a on -/
theorem overlay_range (f : ℕ → Option β) (a : ℕ) (v : ℕ → β) (k n : ℕ) :
    overlay f ((List.range k).map fun i => (a + i, v i)) n = if a ≤ n ∧ n < a + k then some (v (n - a)) else f n := by
  induction k with
  | zero =>
    have : ¬ (a ≤ n ∧ n < a + 0) := by omega
    rw [if_neg this]
    rfl
  | succ k ih =>
    rw [List.range_succ, List.map_append, overlay_append, List.map_singleton, overlay_cons]
    change Function.update (overlay f _) (a + k) (some (v k)) n = _
    by_cases hn : n = a + k
    · subst hn
      rw [Function.update_self, if_pos (by omega), Nat.add_sub_cancel_left]
    · rw [Function.update_of_ne hn, ih]
      have : (a ≤ n ∧ n < a + k) ↔ (a ≤ n ∧ n < a + (k + 1)) := by omega
      simp only [this]

end Jos.Lib
