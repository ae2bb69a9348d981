/-
Runs of a machine whose steps may fail.

`step o s` is what operation o does in state s: a new state, or an error. `runAll` issues a list of operations one after
the other; `LegalRun` says that each of them is legal in the state it is issued in. Two rules package the induction:
- `runAll_inv`: if a legal operation never fails in a state of the invariant and keeps it, so does a legal run;
- `runAll_keeps`: if a legal operation that returns keeps the invariant, so does a legal run that returns.
-/
import Mathlib.Tactic

namespace Jos.Lib

variable {σ ο ε : Type*}

def runAll (step : ο → σ → Except ε σ) : List ο → σ → Except ε σ
  | [], s => .ok s
  | o :: os, s =>
    match step o s with
    | .ok s' => runAll step os s'
    | .error e => .error e

/-- every operation of the list is legal in the state it is issued in -/
def LegalRun (step : ο → σ → Except ε σ) (legal : σ → ο → Prop) : σ → List ο → Prop
  | _, [] => True
  | s, o :: os => legal s o ∧ ∀ s', step o s = .ok s' → LegalRun step legal s' os

theorem runAll_cons {step : ο → σ → Except ε σ} {s s' : σ} {o : ο} (h : step o s = .ok s') (os : List ο) :
    runAll step (o :: os) s = runAll step os s' := by
  simp [runAll, h]

theorem legalRun_of_forall {step : ο → σ → Except ε σ} {legal : σ → ο → Prop} (h : ∀ s o, legal s o) (s : σ)
    (os : List ο) : LegalRun step legal s os := by
  induction os generalizing s with
  | nil => trivial
  | cons o os ih => exact ⟨h s o, fun s' _ => ih s'⟩

theorem runAll_inv {step : ο → σ → Except ε σ} {legal : σ → ο → Prop} {I : σ → Prop}
    (hstep : ∀ s o, I s → legal s o → ∃ s', step o s = .ok s' ∧ I s') (s : σ) (os : List ο) (hs : I s)
    (hl : LegalRun step legal s os) : ∃ s', runAll step os s = .ok s' ∧ I s' := by
  induction os generalizing s with
  | nil => exact ⟨s, rfl, hs⟩
  | cons o os ih =>
    obtain ⟨s1, h1, hi⟩ := hstep s o hs hl.1
    rw [runAll_cons h1]
    exact ih s1 hi (hl.2 s1 h1)

theorem runAll_keeps {step : ο → σ → Except ε σ} {legal : σ → ο → Prop} {I : σ → Prop}
    (hstep : ∀ s o s', I s → legal s o → step o s = .ok s' → I s') (s t : σ) (os : List ο) (hs : I s)
    (hl : LegalRun step legal s os) (hrun : runAll step os s = .ok t) : I t := by
  induction os generalizing s with
  | nil =>
    obtain rfl : s = t := Except.ok.inj hrun
    exact hs
  | cons o os ih =>
    cases h1 : step o s with
    | error e =>
      rw [runAll, h1] at hrun
      cases hrun
    | ok s1 =>
      rw [runAll_cons h1] at hrun
      exact ih s1 (hstep s o s1 hs hl.1 h1) (hl.2 s1 h1) hrun

end Jos.Lib
