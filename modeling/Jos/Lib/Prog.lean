/-
Programs over a state that may fail: `StateT σ (Except ε)`.

What a program that returns says about its parts:
- `Prog.bind_ok`: a sequence returns if its first part returns and the rest returns from there;
- `Prog.except_bind_ok`: the same without a state;
- `Prog.run_bind`: a part that returns hands its result and its state on;
- `Prog.pure_ok`, `Prog.get_ok`, `Prog.set_ok`, `Prog.modify_ok`, `Prog.throw_ok`,
  `Prog.lift_ok`: the single steps.
-/
import Mathlib.Tactic

namespace Jos.Lib

/-- why a program whose loops are bounded does not return -/
inductive Stop where
  /-- out of rounds -/
  | steps
  /-- a read outside what can be read -/
  | fault
  | panic
deriving DecidableEq, Repr

variable {σ ε α β : Type}

theorem Prog.bind_ok {x : StateT σ (Except ε) α} {f : α → StateT σ (Except ε) β} {s : σ} {r : β × σ} :
    (x >>= f).run s = .ok r ↔ ∃ a t, x.run s = .ok (a, t) ∧ (f a).run t = .ok r := by
  have hrun : (x >>= f).run s = x.run s >>= fun p => (f p.1).run p.2 := StateT.run_bind x f s
  rw [hrun]
  cases x.run s with
  | error e =>
    refine ⟨?_, ?_⟩
    · intro h
      cases h
    · rintro ⟨a, t, h, -⟩
      cases h
  | ok p =>
    refine ⟨fun h => ⟨p.1, p.2, rfl, h⟩, ?_⟩
    rintro ⟨a, t, h, hr⟩
    obtain rfl : p = (a, t) := Except.ok.inj h
    exact hr

theorem Prog.except_bind_ok {x : Except ε α} {f : α → Except ε β} {b : β} :
    (x >>= f) = .ok b ↔ ∃ a, x = .ok a ∧ f a = .ok b := by
  cases x with
  | error e =>
    refine ⟨?_, ?_⟩
    · intro h
      cases h
    · rintro ⟨a, h, -⟩
      cases h
  | ok a =>
    refine ⟨fun h => ⟨a, rfl, h⟩, ?_⟩
    rintro ⟨a', h, hf⟩
    obtain rfl := Except.ok.inj h
    exact hf

theorem Prog.run_bind {x : StateT σ (Except ε) α} {f : α → StateT σ (Except ε) β} {s t : σ} {a : α}
    (h : x.run s = .ok (a, t)) : (x >>= f).run s = (f a).run t := by
  have hrun : (x >>= f).run s = x.run s >>= fun p => (f p.1).run p.2 := StateT.run_bind x f s
  rw [hrun, h]
  rfl

theorem Prog.pure_ok {a : α} {s : σ} {r : α × σ} :
    (pure a : StateT σ (Except ε) α).run s = .ok r ↔ r = (a, s) :=
  ⟨fun h => (Except.ok.inj h).symm, fun h => by rw [h]; rfl⟩

theorem Prog.get_ok {s : σ} {r : σ × σ} : (get : StateT σ (Except ε) σ).run s = .ok r ↔ r = (s, s) :=
  ⟨fun h => (Except.ok.inj h).symm, fun h => by rw [h]; rfl⟩

theorem Prog.set_ok {s t : σ} {r : PUnit × σ} : (set t : StateT σ (Except ε) PUnit).run s = .ok r ↔ r = ((), t) :=
  ⟨fun h => (Except.ok.inj h).symm, fun h => by rw [h]; rfl⟩

theorem Prog.modify_ok {s : σ} {g : σ → σ} {r : PUnit × σ} :
    (modify g : StateT σ (Except ε) PUnit).run s = .ok r ↔ r = ((), g s) :=
  ⟨fun h => (Except.ok.inj h).symm, fun h => by rw [h]; rfl⟩

theorem Prog.throw_ok {e : ε} {s : σ} {r : α × σ} : ¬ (throw e : StateT σ (Except ε) α).run s = .ok r :=
  fun h => by cases h

theorem Prog.lift_ok {x : Except ε α} {s : σ} {r : α × σ} :
    (StateT.lift x : StateT σ (Except ε) α).run s = .ok r ↔ ∃ a, x = .ok a ∧ r = (a, s) := by
  have hrun : (StateT.lift x : StateT σ (Except ε) α).run s = x.map fun a => (a, s) := by
    cases x <;> rfl
  rw [hrun]
  cases x with
  | error e =>
    refine ⟨?_, ?_⟩
    · intro h
      cases h
    · rintro ⟨a, h, -⟩
      cases h
  | ok a =>
    refine ⟨fun h => ⟨a, rfl, (Except.ok.inj h).symm⟩, ?_⟩
    rintro ⟨b, h, rfl⟩
    obtain rfl := Except.ok.inj h
    rfl

end Jos.Lib
