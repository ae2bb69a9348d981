/-
Bump allocation over the natural numbers: blocks are placed one behind the other, and after each of them the next free
address is rounded up to the alignment a.

`Placed a e bs f`: from free address e the blocks bs, pairs (start, size), are placed in this order, and f is free then.
Results:
- `Placed.within`: every block lies between e and f;
- `Placed.aligned`: every block, and f, is aligned if e is;
- `Placed.disjoint`: each block ends before the later ones start;
- `Placed.top`: f is the end of all blocks, rounded up.
-/
import Mathlib.Tactic

namespace Jos.Lib

/-- the least multiple of a that is not below x -/
def alignUp (a x : ℕ) : ℕ := (x + (a - 1)) / a * a

def Placed (a : ℕ) : ℕ → List (ℕ × ℕ) → ℕ → Prop
  | e, [], f => e = f
  | e, b :: bs, f => b.1 = e ∧ Placed a (alignUp a (e + b.2)) bs f

/-- the end of the blocks bs, and of what lies below x -/
def topOf (x : ℕ) (bs : List (ℕ × ℕ)) : ℕ := (bs.map fun b => b.1 + b.2).foldr max x

section Align

variable {a : ℕ} (ha : 0 < a) (x : ℕ)
include ha

theorem le_alignUp : x ≤ alignUp a x := by
  have h := Nat.div_add_mod (x + (a - 1)) a
  have hlt := Nat.mod_lt (x + (a - 1)) ha
  rw [alignUp, Nat.mul_comm]
  omega

omit ha in
theorem dvd_alignUp : a ∣ alignUp a x := Nat.dvd_mul_left ..

theorem alignUp_le {y : ℕ} (h : x ≤ y) (hy : a ∣ y) : alignUp a x ≤ y := by
  obtain ⟨k, rfl⟩ := hy
  have hk : (x + (a - 1)) / a < k + 1 := by
    rw [Nat.div_lt_iff_lt_mul ha, Nat.add_mul, Nat.mul_comm k, Nat.one_mul]
    omega
  rw [alignUp, Nat.mul_comm a]
  exact Nat.mul_le_mul_right a (by omega)

theorem alignUp_of_dvd {y : ℕ} (hy : a ∣ y) : alignUp a y = y :=
  le_antisymm (alignUp_le ha y le_rfl hy) (le_alignUp ha y)

end Align

theorem topOf_cons (x : ℕ) (b : ℕ × ℕ) (bs : List (ℕ × ℕ)) : topOf x (b :: bs) = max (b.1 + b.2) (topOf x bs) := rfl

theorem topOf_max (x y : ℕ) (bs : List (ℕ × ℕ)) : topOf (max x y) bs = max y (topOf x bs) := by
  induction bs with
  | nil => exact max_comm x y
  | cons b bs ih =>
    rw [topOf_cons, topOf_cons, ih, max_left_comm]

section Placed

variable {a e f : ℕ} {bs : List (ℕ × ℕ)} (ha : 0 < a)

theorem Placed.aligned (h : Placed a e bs f) (he : a ∣ e) : (∀ b ∈ bs, a ∣ b.1) ∧ a ∣ f := by
  induction bs generalizing e with
  | nil => exact ⟨by simp, h ▸ he⟩
  | cons c bs ih =>
    obtain ⟨h1, h2⟩ := ih h.2 (dvd_alignUp _)
    refine ⟨fun b hb => ?_, h2⟩
    rcases List.mem_cons.1 hb with rfl | hb
    · exact h.1 ▸ he
    · exact h1 b hb

include ha

theorem Placed.le (h : Placed a e bs f) : e ≤ f := by
  induction bs generalizing e with
  | nil => exact le_of_eq h
  | cons b bs ih =>
    have h1 := ih h.2
    have h2 := le_alignUp ha (e + b.2)
    omega

theorem Placed.within (h : Placed a e bs f) : ∀ b ∈ bs, e ≤ b.1 ∧ b.1 + b.2 ≤ f := by
  induction bs generalizing e with
  | nil => simp
  | cons c bs ih =>
    obtain ⟨rfl, h⟩ := h
    have h1 := le_alignUp ha (c.1 + c.2)
    have h2 := h.le ha
    intro b hb
    rcases List.mem_cons.1 hb with rfl | hb
    · omega
    · have := ih h b hb
      omega

theorem Placed.disjoint (h : Placed a e bs f) : bs.Pairwise fun b c => b.1 + b.2 ≤ c.1 := by
  induction bs generalizing e with
  | nil => exact .nil
  | cons b bs ih =>
    refine List.pairwise_cons.2 ⟨fun c hc => ?_, ih h.2⟩
    have h1 := (h.2.within ha c hc).1
    have h2 := le_alignUp ha (e + b.2)
    have h3 := h.1
    omega

theorem Placed.top {x : ℕ} (h : Placed a e bs f) (hx : alignUp a x = e) : f = alignUp a (topOf x bs) := by
  induction bs generalizing e x with
  | nil => exact h.symm.trans hx.symm
  | cons b bs ih =>
    -- the rest is placed behind b, which ends behind x
    obtain ⟨rfl, h⟩ := h
    have hle := le_alignUp ha x
    have hmax : max x (b.1 + b.2) = b.1 + b.2 := max_eq_right (by omega)
    rw [ih h rfl, ← hmax, topOf_max, topOf_cons]

end Placed

end Jos.Lib
