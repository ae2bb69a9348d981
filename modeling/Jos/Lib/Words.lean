/-
Words of a text: the maximal runs without a separator.

They are the non-empty pieces between the separators. Everything is read off the front of the text: a separator is in no
word (`words_cons`), and a run that a separator or the end follows is one (`words_run`).
-/
import Mathlib.Data.List.Basic

namespace Jos.Lib

variable {α : Type*} (p : α → Bool)

def words (l : List α) : List (List α) := (l.splitOnP p).filter fun w => !w.isEmpty

variable {p} {c : α} {l w r : List α}

@[simp] theorem words_nil : words p [] = [] := by
  simp [words, List.splitOnP_nil]

theorem words_append (hc : p c) (x y : List α) : words p (x ++ c :: y) = words p x ++ words p y := by
  rw [words, List.splitOnP_append_cons x y hc, List.filter_append]
  rfl

/-- a separator is in no word -/
theorem words_cons (hc : p c) (l : List α) : words p (c :: l) = words p l := by
  have h := words_append hc [] l
  rw [List.nil_append, words_nil, List.nil_append] at h
  exact h

/-- a text without a separator is one word -/
theorem words_single (hne : w ≠ []) (h : ∀ c ∈ w, p c = false) : words p w = [w] := by
  rw [words, List.splitOnP_eq_singleton h]
  simp [hne]

/-- a run at the front, up to a separator or the end -/
theorem words_run (hne : w ≠ []) (h : ∀ c ∈ w, p c = false) (hr : ∀ c l, r = c :: l → p c) :
    words p (w ++ r) = w :: words p r := by
  cases r with
  | nil => rw [List.append_nil, words_single hne h, words_nil]
  | cons c l => rw [words_append (hr c l rfl), words_single hne h, words_cons (hr c l rfl), List.singleton_append]

theorem ne_nil_of_mem_words (h : w ∈ words p l) : w ≠ [] := by
  have hfull := (List.mem_filter.1 h).2
  rintro rfl
  exact Bool.false_ne_true hfull

end Jos.Lib
