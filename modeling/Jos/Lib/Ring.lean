/-
A ring buffer of N cells whose writer never looks at the reader.

`log` lists everything that was put in, `taken` counts what was taken out; `Ring` ties the two positions and the cells to
them: the positions are the two counters modulo N, and the last N elements of the log are in their cells. Results:
- `Ring.put`, `Ring.take`: the operations keep it, whatever the counters are;
- `ring_empty_iff`: the positions are equal exactly when nothing is pending;
- `pending_eq_drop`: `pending`, what the reader will find, is all that was put in and not taken out, as long as that is
  less than N elements;
- `length_pending`: in general it is the remainder modulo N of that number.
-/
import Mathlib.Tactic

namespace Jos.Lib

variable {α : Type*}

structure Ring (N : ℕ) (buf : ℕ → α) (r w : ℕ) (log : List α) (taken : ℕ) : Prop where
  taken_le : taken ≤ log.length
  rpos : r = taken % N
  wpos : w = log.length % N
  cell : ∀ j (h : j < log.length), log.length ≤ j + N → buf (j % N) = log[j]

/-- what the reader of the ring will find, in this order -/
def pending (N : ℕ) (log : List α) (taken : ℕ) : List α := log.drop (log.length - (log.length - taken) % N)

section Pending

variable {N : ℕ} {log : List α} {taken : ℕ}

theorem pending_suffix : pending N log taken <:+ log := List.drop_suffix ..

theorem length_pending : (pending N log taken).length = (log.length - taken) % N := by
  have h := Nat.mod_le (log.length - taken) N
  rw [pending, List.length_drop]
  omega

theorem pending_eq_drop (h : log.length - taken < N) (ht : taken ≤ log.length) : pending N log taken = log.drop taken := by
  have hs : log.length - (log.length - taken) = taken := by omega
  rw [pending, Nat.mod_eq_of_lt h, hs]

theorem pending_map {β : Type*} (f : α → β) : pending N (log.map f) taken = (pending N log taken).map f := by
  simp [pending, List.map_drop]

theorem mod_pred {N n : ℕ} (h : n % N ≠ 0) : (n - 1) % N = n % N - 1 := by
  rcases Nat.eq_zero_or_pos N with rfl | hN
  · rw [Nat.mod_zero, Nat.mod_zero]
  · have hd := Nat.div_add_mod n N
    have hlt := Nat.mod_lt n hN
    have hs : n - 1 = n % N - 1 + N * (n / N) := by omega
    rw [hs, Nat.add_mul_mod_self_left, Nat.mod_eq_of_lt (by omega)]

/-- with one more element taken out, the pending ones begin one later -/
theorem pending_succ (h : pending N log taken ≠ []) : pending N log (taken + 1) = (pending N log taken).tail := by
  have hmod : (log.length - taken) % N ≠ 0 := by
    rwa [ne_eq, ← length_pending, List.length_eq_zero_iff]
  have hle := Nat.mod_le (log.length - taken) N
  have hs : log.length - (log.length - (taken + 1)) % N = log.length - (log.length - taken) % N + 1 := by
    rw [← Nat.sub_sub, mod_pred hmod]
    omega
  rw [pending, hs, pending, List.tail_drop]

end Pending

section Ring

variable {N : ℕ} {buf : ℕ → α} {r w : ℕ} {log : List α} {taken : ℕ}

theorem ring_start (buf : ℕ → α) : Ring N buf 0 0 [] 0 :=
  ⟨le_rfl, (Nat.zero_mod N).symm, (Nat.zero_mod N).symm, fun j h => absurd h (Nat.not_lt_zero j)⟩

theorem Ring.lt (h : Ring N buf r w log taken) (hN : 0 < N) : r < N ∧ w < N := by
  rw [h.rpos, h.wpos]
  exact ⟨Nat.mod_lt _ hN, Nat.mod_lt _ hN⟩

/-- the position behind that of a counter -/
theorem succ_mod (hN : 0 < N) (n : ℕ) : (n + 1) % N = if n % N + 1 = N then 0 else n % N + 1 := by
  have hlt := Nat.mod_lt n hN
  rw [← Nat.mod_add_mod]
  split_ifs with h
  · rw [h, Nat.mod_self]
  · exact Nat.mod_eq_of_lt (by omega)

/-- two counters stand at one position when their difference is a multiple of N -/
theorem mod_eq_iff_sub {a b : ℕ} (h : a ≤ b) : a % N = b % N ↔ (b - a) % N = 0 := by
  rw [← Nat.dvd_iff_mod_eq_zero]
  exact Nat.modEq_iff_dvd' h

theorem ring_empty_iff (h : Ring N buf r w log taken) : r = w ↔ pending N log taken = [] := by
  rw [← List.length_eq_zero_iff, length_pending, h.rpos, h.wpos, mod_eq_iff_sub h.taken_le]

/-- an element is put in: one that lay in the same cell is gone -/
theorem Ring.put (h : Ring N buf r w log taken) (hN : 0 < N) (x : α) :
    Ring N (Function.update buf w x) r (if w + 1 = N then 0 else w + 1) (log ++ [x]) taken := by
  have hw := (h.lt hN).2
  have hlen : (log ++ [x]).length = log.length + 1 := by simp
  refine ⟨by rw [hlen]; exact Nat.le_succ_of_le h.taken_le, h.rpos, ?_, ?_⟩
  · rw [hlen, succ_mod hN, ← h.wpos]
  · intro j hj hjN
    rw [hlen] at hj hjN
    by_cases hjl : j = log.length
    · subst hjl
      rw [← h.wpos, Function.update_self]
      simp
    · -- the other elements of the last N lie in other cells
      have hne : j % N ≠ w := fun e => by
        rw [h.wpos, mod_eq_iff_sub (by omega)] at e
        have := Nat.le_of_dvd (by omega) (Nat.dvd_of_mod_eq_zero e)
        omega
      rw [Function.update_of_ne hne, h.cell j (by omega) (by omega), List.getElem_append_left]

/-- the reader takes out the first pending element -/
theorem Ring.take (h : Ring N buf r w log taken) (hN : 0 < N) (hne : r ≠ w) :
    pending N log taken = buf r :: pending N log (taken + 1) ∧
      Ring N buf (if r + 1 = N then 0 else r + 1) w log (taken + 1) := by
  have hpend : pending N log taken ≠ [] := fun e => hne ((ring_empty_iff h).2 e)
  have hmod : (log.length - taken) % N ≠ 0 := by
    rwa [ne_eq, ← length_pending, List.length_eq_zero_iff]
  have hle := Nat.mod_le (log.length - taken) N
  have htaken := h.taken_le
  refine ⟨?_, by omega, by rw [succ_mod hN, ← h.rpos], h.wpos, h.cell⟩
  have hidx : log.length - (log.length - taken) % N < log.length := by omega
  -- the first pending element lies a multiple of N behind the elements taken out
  have hat : (log.length - (log.length - taken) % N) % N = r := by
    have hd := Nat.div_add_mod (log.length - taken) N
    have hs : log.length - (log.length - taken) % N = taken + N * ((log.length - taken) / N) := by omega
    rw [hs, Nat.add_mul_mod_self_left, h.rpos]
  have hlt := Nat.mod_lt (log.length - taken) hN
  have hcell := h.cell _ hidx (by omega)
  rw [hat] at hcell
  rw [pending_succ hpend, hcell, pending, List.tail_drop]
  exact List.drop_eq_getElem_cons hidx

end Ring

end Jos.Lib
