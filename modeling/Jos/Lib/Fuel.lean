/-
Programs whose rounds are bounded: `x n` is the program that may use n rounds.

`Returns x s a t`: with enough rounds every run from s gives a and leaves t. A sequence returns if its parts do
(`Returns.bind`), a loop if its body does (`Returns.succ_iff`), and what a program returns is what is returned by the
rest of it (`Returns.bind_iff`). It can return in one way only (`Returns.unique`).

`Fails x s e`: with enough rounds every run from s stops with e. A sequence fails if its first part does (`Fails.bind`), or
if that returns and the rest fails (`Returns.bind_fails`).
-/
import Jos.Lib.Prog

namespace Jos.Lib

variable {σ ε α β : Type}

def Returns (x : ℕ → StateT σ (Except ε) α) (s : σ) (a : α) (t : σ) : Prop :=
  ∃ N, ∀ n, N ≤ n → (x n).run s = .ok (a, t)

namespace Returns

variable {x y : ℕ → StateT σ (Except ε) α} {f : ℕ → α → StateT σ (Except ε) β} {s t u : σ} {a : α} {b : β}

/-- a part without a loop -/
theorem of_run (h : ∀ n, (x n).run s = .ok (a, t)) : Returns x s a t := ⟨0, fun n _ => h n⟩

theorem pure : Returns (fun _ => Pure.pure a : ℕ → StateT σ (Except ε) α) s a s := of_run fun _ => rfl

theorem congr (h : ∃ N, ∀ n, N ≤ n → (x n).run s = (y n).run t) : Returns x s a u ↔ Returns y t a u := by
  obtain ⟨N, hN⟩ := h
  constructor
  · rintro ⟨K, hK⟩
    refine ⟨max N K, fun n hn => ?_⟩
    rw [← hN n (le_trans (le_max_left N K) hn)]
    exact hK n (le_trans (le_max_right N K) hn)
  · rintro ⟨K, hK⟩
    refine ⟨max N K, fun n hn => ?_⟩
    rw [hN n (le_trans (le_max_left N K) hn)]
    exact hK n (le_trans (le_max_right N K) hn)

/-- one round more is as good -/
theorem succ_iff : Returns (fun n => x (n + 1)) s a t ↔ Returns x s a t := by
  constructor
  · rintro ⟨N, hN⟩
    refine ⟨N + 1, fun n hn => ?_⟩
    obtain ⟨m, rfl⟩ := Nat.exists_eq_add_of_le' hn
    exact hN (m + N) (Nat.le_add_left N m)
  · rintro ⟨N, hN⟩
    exact ⟨N, fun n hn => hN (n + 1) (le_trans hn (Nat.le_succ n))⟩

/-- after a part that returns, the rest decides -/
theorem bind_iff (hx : Returns x s a t) : Returns (fun n => x n >>= f n) s b u ↔ Returns (fun n => f n a) t b u := by
  obtain ⟨N, hN⟩ := hx
  exact congr ⟨N, fun n hn => Prog.run_bind (hN n hn)⟩

theorem bind (hx : Returns x s a t) (hf : Returns (fun n => f n a) t b u) : Returns (fun n => x n >>= f n) s b u :=
  (bind_iff hx).2 hf

theorem unique {a' : α} {t' : σ} (h : Returns x s a t) (h' : Returns x s a' t') : a = a' ∧ t = t' := by
  obtain ⟨N, hN⟩ := h
  obtain ⟨K, hK⟩ := h'
  have hrun := hN (max N K) (le_max_left N K)
  rw [hK (max N K) (le_max_right N K)] at hrun
  obtain ⟨rfl, rfl⟩ := Prod.mk.inj (Except.ok.inj hrun)
  exact ⟨rfl, rfl⟩

end Returns

def Fails (x : ℕ → StateT σ (Except ε) α) (s : σ) (e : ε) : Prop := ∃ N, ∀ n, N ≤ n → (x n).run s = .error e

section Fails

variable {x : ℕ → StateT σ (Except ε) α} {f : ℕ → α → StateT σ (Except ε) β} {s t : σ} {a : α} {e : ε}

theorem Fails.of_run (h : ∀ n, (x n).run s = .error e) : Fails x s e := ⟨0, fun n _ => h n⟩

theorem Fails.of_succ (h : Fails (fun n => x (n + 1)) s e) : Fails x s e := by
  obtain ⟨N, hN⟩ := h
  refine ⟨N + 1, ?_⟩
  intro n hn
  obtain ⟨m, rfl⟩ := Nat.exists_eq_add_of_le' hn
  exact hN (m + N) (Nat.le_add_left N m)

theorem Fails.bind (hx : Fails x s e) : Fails (fun n => x n >>= f n) s e := by
  obtain ⟨N, hN⟩ := hx
  refine ⟨N, ?_⟩
  intro n hn
  calc (x n >>= f n).run s
      = (x n).run s >>= fun p => (f n p.1).run p.2 := StateT.run_bind (x n) (f n) s
    _ = .error e := by rw [hN n hn]; rfl

theorem Returns.bind_fails (hx : Returns x s a t) (hf : Fails (fun n => f n a) t e) :
    Fails (fun n => x n >>= f n) s e := by
  obtain ⟨N, hN⟩ := hx
  obtain ⟨K, hK⟩ := hf
  refine ⟨max N K, ?_⟩
  intro n hn
  rw [Prog.run_bind (hN n (le_trans (le_max_left N K) hn))]
  exact hK n (le_trans (le_max_right N K) hn)

end Fails

end Jos.Lib
