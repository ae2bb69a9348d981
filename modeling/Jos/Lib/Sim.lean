/-
Forward simulation between two programs over states, rule by rule.

`Sim R x y`: from related states, whenever x returns, y returns the same value in a related state. The two programs have
the same shape and differ in their states and their basic steps, so a relation that the basic steps keep is kept by the
whole: `Sim.bind`, `Sim.ite` and the rules for the single steps build the proof along the program.
-/
import Jos.Lib.Prog

namespace Jos.Lib

variable {σ τ ε α β : Type}

def Sim (R : σ → τ → Prop) (x : StateT σ (Except ε) α) (y : StateT τ (Except ε) α) : Prop :=
  ∀ s t, R s t → ∀ a s', x.run s = .ok (a, s') → ∃ t', y.run t = .ok (a, t') ∧ R s' t'

variable {R : σ → τ → Prop}

theorem Sim.pure (a : α) : Sim R (Pure.pure a : StateT σ (Except ε) α) (Pure.pure a : StateT τ (Except ε) α) := by
  intro s t h b s' hx
  obtain ⟨rfl, rfl⟩ := Prod.mk.inj (Prog.pure_ok.1 hx)
  exact ⟨t, rfl, h⟩

theorem Sim.throw {e : ε} {y : StateT τ (Except ε) α} :
    Sim R (MonadExcept.throw e : StateT σ (Except ε) α) y := by
  intro s t _ a s' hx
  exact absurd hx Prog.throw_ok

theorem Sim.bind {x : StateT σ (Except ε) α} {y : StateT τ (Except ε) α} {f : α → StateT σ (Except ε) β}
    {g : α → StateT τ (Except ε) β} (hx : Sim R x y) (hf : ∀ a, Sim R (f a) (g a)) : Sim R (x >>= f) (y >>= g) := by
  intro s t h b s' hrun
  obtain ⟨a, u, hxu, hfu⟩ := Prog.bind_ok.1 hrun
  obtain ⟨v, hyv, huv⟩ := hx s t h a u hxu
  obtain ⟨w, hgw, hw⟩ := hf a u v huv b s' hfu
  exact ⟨w, (Prog.run_bind hyv).trans hgw, hw⟩

theorem Sim.ite {p : Prop} [Decidable p] {x x' : StateT σ (Except ε) α} {y y' : StateT τ (Except ε) α}
    (hx : p → Sim R x y) (hx' : ¬ p → Sim R x' y') : Sim R (if p then x else x') (if p then y else y') := by
  by_cases hp : p
  · rw [if_pos hp, if_pos hp]
    exact hx hp
  · rw [if_neg hp, if_neg hp]
    exact hx' hp

theorem Sim.step {f : σ → σ} {g : τ → τ} (h : ∀ s t, R s t → R (f s) (g t)) :
    Sim R (modify f : StateT σ (Except ε) PUnit) (modify g : StateT τ (Except ε) PUnit) := by
  intro s t hst a s' hx
  obtain ⟨rfl, rfl⟩ := Prod.mk.inj (Prog.modify_ok.1 hx)
  exact ⟨g t, rfl, h s t hst⟩

/-- a part that reads: what it gets from the one state it gets from the other -/
theorem Sim.look {f : σ → Except ε α} {g : τ → Except ε α} (h : ∀ s t, R s t → ∀ a, f s = .ok a → g t = .ok a) :
    Sim R (do StateT.lift (f (← get))) (do StateT.lift (g (← get))) := by
  intro s t hst a s' hx
  obtain ⟨u, v, hu, hv⟩ := Prog.bind_ok.1 hx
  obtain ⟨rfl, rfl⟩ := Prod.mk.inj (Prog.get_ok.1 hu)
  obtain ⟨b, hb, hr⟩ := Prog.lift_ok.1 hv
  obtain ⟨rfl, rfl⟩ := Prod.mk.inj hr
  exact ⟨t, (Prog.run_bind (Prog.get_ok.2 rfl)).trans (Prog.lift_ok.2 ⟨a, h _ t hst a hb, rfl⟩), hst⟩

end Jos.Lib
