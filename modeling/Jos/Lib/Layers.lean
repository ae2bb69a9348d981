/-
Layers written over a map one after another: the last layer that covers a key decides its value.

A layer covers some keys and has a value for each of them; `stack f ls` is f with the layers ls put on, in order.
- `stack_of_uncovered`: a key that no layer covers keeps its value;
- `stack_last`: a covered key has the value of the last layer that covers it;
- `exists_last`: a list in which some element has a property has a last one.
-/
import Mathlib.Tactic

namespace Jos.Lib

structure Layer (α β : Type*) where
  covers : α → Bool
  val : α → β

variable {α β : Type*}

def Layer.over (l : Layer α β) (f : α → β) : α → β := fun a => if l.covers a then l.val a else f a

def stack (f : α → β) (ls : List (Layer α β)) : α → β := ls.foldl (fun g l => l.over g) f

theorem stack_cons (f : α → β) (l : Layer α β) (ls : List (Layer α β)) : stack f (l :: ls) = stack (l.over f) ls := rfl

theorem stack_append (f : α → β) (ls ls' : List (Layer α β)) : stack f (ls ++ ls') = stack (stack f ls) ls' :=
  List.foldl_append

theorem over_covered (f : α → β) {l : Layer α β} {a : α} (h : l.covers a = true) : l.over f a = l.val a := if_pos h

theorem over_uncovered (f : α → β) {l : Layer α β} {a : α} (h : l.covers a = false) : l.over f a = f a :=
  if_neg (by rw [h]; exact Bool.false_ne_true)

theorem stack_of_uncovered (f : α → β) {ls : List (Layer α β)} {a : α} (h : ∀ l ∈ ls, l.covers a = false) :
    stack f ls a = f a := by
  induction ls generalizing f with
  | nil => rfl
  | cons l ls ih =>
    rw [stack_cons, ih _ fun l' hl' => h l' (List.mem_cons_of_mem _ hl')]
    exact over_uncovered f (h l List.mem_cons_self)

theorem stack_last (f : α → β) {before after : List (Layer α β)} {l : Layer α β} {a : α} (hl : l.covers a = true)
    (h : ∀ l' ∈ after, l'.covers a = false) : stack f (before ++ l :: after) a = l.val a := by
  rw [stack_append, stack_cons, stack_of_uncovered _ h]
  exact over_covered _ hl

/-- the last element with a property -/
theorem exists_last {γ : Type*} {P : γ → Prop} {xs : List γ} (h : ∃ x ∈ xs, P x) :
    ∃ before x after, xs = before ++ x :: after ∧ P x ∧ ∀ y ∈ after, ¬ P y := by
  induction xs with
  | nil =>
    obtain ⟨x, hx, -⟩ := h
    exact absurd hx List.not_mem_nil
  | cons x xs ih =>
    by_cases hrest : ∃ y ∈ xs, P y
    · obtain ⟨before, y, after, rfl, hy, hafter⟩ := ih hrest
      exact ⟨x :: before, y, after, rfl, hy, hafter⟩
    · obtain ⟨y, hy, hP⟩ := h
      rcases List.mem_cons.1 hy with rfl | hy
      · exact ⟨[], y, xs, rfl, hP, fun z hz hPz => hrest ⟨z, hz, hPz⟩⟩
      · exact absurd ⟨y, hy, hP⟩ hrest

end Jos.Lib
