/-
The string instructions of the x86, on a flat memory of bytes.

`moved m dst src n` is the memory m with the n bytes that it has from src on put at dst, as if they were all read before
the first is written; `filled m dst b n` has n bytes b there. A repeated instruction does such a block piece by piece.
Results:
- `moved_add`, `moved_add_down`: two pieces make a block, the lower one first where the target lies below the source or
  apart from it, the upper one first where it lies above it or apart;
- `put_off`, `put_at`, `put_append`: a row of bytes in memory;
- `rep_up`, `rep_down`: what `rep movs` does with the direction flag clear and set, for a unit of any size;
- `rep_fill`: what `rep stos` does.
-/
import Mathlib.Data.BitVec
import Mathlib.Data.List.GetD
import Mathlib.Tactic

namespace Jos.Lib

/-- memory, a byte at each address -/
abbrev Image := BitVec 32 → BitVec 8

def load32 (m : Image) (a : BitVec 32) : BitVec 32 := m (a + 3#32) ++ m (a + 2#32) ++ m (a + 1#32) ++ m a

/-- the lowest byte goes to the lowest address -/
def store32 (m : Image) (a w : BitVec 32) : Image :=
  fun x => if (x - a).toNat < 4 then (w >>> (8 * (x - a).toNat)).setWidth 8 else m x

def moved (m : Image) (dst src : BitVec 32) (n : ℕ) : Image :=
  fun x => if (x - dst).toNat < n then m (src + (x - dst)) else m x

def filled (m : Image) (dst : BitVec 32) (b : BitVec 8) (n : ℕ) : Image :=
  fun x => if (x - dst).toNat < n then b else m x

/-- memory with the bytes bs from a on -/
def put (m : Image) (a : BitVec 32) (bs : List (BitVec 8)) : Image := fun x => bs.getD (x - a).toNat (m x)

/-! ## The instructions -/

structure Cpu where
  mem : Image
  eax : BitVec 32
  ecx : BitVec 32
  esi : BitVec 32
  edi : BitVec 32
  /-- the direction flag -/
  df : Bool

namespace Cpu

def cld (c : Cpu) : Cpu := { c with df := false }
def std (c : Cpu) : Cpu := { c with df := true }

/-- the address of the next unit -/
def next (c : Cpu) (a size : BitVec 32) : BitVec 32 := if c.df then a - size else a + size

def movsb (c : Cpu) : Cpu :=
  { c with
    mem := Function.update c.mem c.edi (c.mem c.esi)
    esi := c.next c.esi 1#32
    edi := c.next c.edi 1#32 }

def movsl (c : Cpu) : Cpu :=
  { c with
    mem := store32 c.mem c.edi (load32 c.mem c.esi)
    esi := c.next c.esi 4#32
    edi := c.next c.edi 4#32 }

def stosb (c : Cpu) : Cpu :=
  { c with mem := Function.update c.mem c.edi (c.eax.setWidth 8), edi := c.next c.edi 1#32 }

def stosl (c : Cpu) : Cpu :=
  { c with mem := store32 c.mem c.edi c.eax, edi := c.next c.edi 4#32 }

def count (c : Cpu) : Cpu := { c with ecx := c.ecx - 1#32 }

/-- n rounds of `rep` -/
def rounds (op : Cpu → Cpu) : ℕ → Cpu → Cpu
  | 0, c => c
  | n + 1, c => rounds op n (op c).count

/-- `rep`: until ecx is 0 -/
def rep (op : Cpu → Cpu) (c : Cpu) : Cpu := rounds op c.ecx.toNat c

end Cpu

/-! ## Blocks in two pieces -/

section Blocks

variable {m : Image} {d s x : BitVec 32} {a b : ℕ}

/-- the distance from the second piece -/
theorem sub_piece_toNat (ha : a ≤ 2 ^ 32) :
    (x - (d + BitVec.ofNat 32 a)).toNat = ((x - d).toNat + (2 ^ 32 - a)) % 2 ^ 32 := by
  have hassoc : x - (d + BitVec.ofNat 32 a) = x - d - BitVec.ofNat 32 a := by ring
  rw [hassoc, BitVec.toNat_sub, BitVec.toNat_ofNat]
  omega

/-- a block has the same address under both pieces -/
theorem moved_piece_addr (t : BitVec 32) : s + t + (x - (d + t)) = s + (x - d) := by ring

/-- an address of the source that the block reads is as far from the target as the source is, and its own place more -/
theorem source_toNat {n : ℕ} (hx : (x - d).toNat < n) (h : (s - d).toNat + n ≤ 2 ^ 32) :
    (s + (x - d) - d).toNat = (s - d).toNat + (x - d).toNat := by
  have hassoc : s + (x - d) - d = s - d + (x - d) := by ring
  rw [hassoc, BitVec.toNat_add]
  omega

theorem moved_zero : moved m d s 0 = m := by
  funext x
  exact if_neg (Nat.not_lt_zero _)

/-- the lower piece first: no later source byte has been overwritten -/
theorem moved_add (h : (s - d).toNat + (a + b) ≤ 2 ^ 32) :
    moved (moved m d s a) (d + BitVec.ofNat 32 a) (s + BitVec.ofNat 32 a) b = moved m d s (a + b) := by
  funext x
  have hsub : (x - (d + BitVec.ofNat 32 a)).toNat = ((x - d).toNat + (2 ^ 32 - a)) % 2 ^ 32 :=
    sub_piece_toNat (by omega)
  have hlt := (x - d).isLt
  rw [moved, moved_piece_addr, hsub]
  by_cases hlow : (x - d).toNat < a
  · rw [if_neg (by omega), moved, moved, if_pos hlow, if_pos (by omega)]
  · by_cases hblock : (x - d).toNat < a + b
    · have hsrc := source_toNat hblock h
      rw [if_pos (by omega), moved, moved, if_pos hblock, if_neg (by omega)]
    · rw [if_neg (by omega), moved, moved, if_neg hlow, if_neg hblock]

/-- the upper piece first: no earlier source byte has been overwritten -/
theorem moved_add_down (h : (d - s).toNat + (a + b) ≤ 2 ^ 32) :
    moved (moved m (d + BitVec.ofNat 32 a) (s + BitVec.ofNat 32 a) b) d s a = moved m d s (a + b) := by
  funext x
  have hsub : (x - (d + BitVec.ofNat 32 a)).toNat = ((x - d).toNat + (2 ^ 32 - a)) % 2 ^ 32 :=
    sub_piece_toNat (by omega)
  have hlt := (x - d).isLt
  rw [moved]
  by_cases hlow : (x - d).toNat < a
  · -- the byte read lies below the upper piece
    have hsrc : (s + (x - d) - (d + BitVec.ofNat 32 a)).toNat =
        ((s + (x - d) - d).toNat + (2 ^ 32 - a)) % 2 ^ 32 := sub_piece_toNat (by omega)
    have hdist : (s + (x - d) - d).toNat = ((x - d).toNat + (2 ^ 32 - (d - s).toNat)) % 2 ^ 32 := by
      have hassoc : s + (x - d) - d = x - d - (d - s) := by ring
      rw [hassoc, BitVec.toNat_sub]
      omega
    have hapart : ¬ (s + (x - d) - (d + BitVec.ofNat 32 a)).toNat < b := by
      have hds := (d - s).isLt
      omega
    have hblock : (x - d).toNat < a + b := by omega
    rw [if_pos hlow, moved, if_neg hapart, moved, if_pos hblock]
  · rw [if_neg hlow, moved, moved, hsub, moved_piece_addr]
    exact if_congr (by omega) rfl rfl

theorem filled_zero (v : BitVec 8) : filled m d v 0 = m := by
  funext x
  exact if_neg (Nat.not_lt_zero _)

theorem filled_add (v : BitVec 8) (h : a + b ≤ 2 ^ 32) :
    filled (filled m d v a) (d + BitVec.ofNat 32 a) v b = filled m d v (a + b) := by
  funext x
  have hlt := (x - d).isLt
  rw [filled, sub_piece_toNat (by omega), filled, filled]
  by_cases hlow : (x - d).toNat < a
  · rw [if_neg (by omega), if_pos hlow, if_pos (by omega)]
  · rw [if_neg hlow]
    exact if_congr (by omega) rfl rfl

/-- a block of one byte -/
theorem sub_toNat_lt_one : (x - d).toNat < 1 ↔ x = d := by
  constructor
  · intro h
    have hzero : x - d = 0#32 := BitVec.eq_of_toNat_eq (Nat.lt_one_iff.1 h)
    exact sub_eq_zero.1 hzero
  · rintro rfl
    rw [sub_self]
    decide

theorem update_eq_filled (m : Image) (d : BitVec 32) (b : BitVec 8) : Function.update m d b = filled m d b 1 := by
  funext x
  rw [filled, Function.update_apply]
  exact if_congr sub_toNat_lt_one.symm rfl rfl

theorem update_eq_moved (m : Image) (d s : BitVec 32) : Function.update m d (m s) = moved m d s 1 := by
  funext x
  rw [update_eq_filled, filled, moved]
  by_cases hx : (x - d).toNat < 1
  · have heq := sub_toNat_lt_one.1 hx
    rw [if_pos hx, if_pos hx, heq, sub_self, add_zero]
  · rw [if_neg hx, if_neg hx]

end Blocks

/-! ## Rows of bytes -/

section Rows

variable {m : Image} {a x : BitVec 32} {bs cs : List (BitVec 8)}

theorem put_off (h : bs.length ≤ (x - a).toNat) : put m a bs x = m x := by
  unfold put
  rw [List.getD_eq_default _ _ h]

theorem put_ne (h : ∀ i < bs.length, x ≠ a + BitVec.ofNat 32 i) : put m a bs x = m x := by
  apply put_off
  by_contra hlt
  refine h (x - a).toNat (not_le.1 hlt) ?_
  rw [BitVec.ofNat_toNat, BitVec.setWidth_eq]
  exact (add_sub_cancel a x).symm

theorem put_at {k : ℕ} (hk : k < bs.length) (hlt : k < 2 ^ 32) : put m a bs (a + BitVec.ofNat 32 k) = bs.get ⟨k, hk⟩ := by
  have hsub : (a + BitVec.ofNat 32 k - a).toNat = k := by
    rw [add_sub_cancel_left, BitVec.toNat_ofNat, Nat.mod_eq_of_lt hlt]
  unfold put
  rw [hsub, List.getD_eq_getElem _ _ hk]
  rfl

theorem put_get {k : ℕ} {b : BitVec 8} (hb : bs[k]? = some b) (hlt : k < 2 ^ 32) :
    put m a bs (a + BitVec.ofNat 32 k) = b := by
  obtain ⟨hk, rfl⟩ := List.getElem?_eq_some_iff.1 hb
  exact put_at hk hlt

theorem put_nil (m : Image) (a : BitVec 32) : put m a [] = m := rfl

theorem put_singleton (m : Image) (a : BitVec 32) (b : BitVec 8) : put m a [b] = Function.update m a b := by
  funext x
  rw [update_eq_filled, filled]
  by_cases hx : (x - a).toNat < 1
  · have h0 := Nat.lt_one_iff.1 hx
    rw [if_pos hx, put, h0]
    rfl
  · rw [if_neg hx, put_off (not_lt.1 hx)]

/-- the first part, and the second one behind it -/
theorem put_append (hlen : bs.length + cs.length ≤ 2 ^ 32) :
    put m a (bs ++ cs) = put (put m a bs) (a + BitVec.ofNat 32 bs.length) cs := by
  funext x
  have hlt := (x - a).isLt
  have hsub : (x - (a + BitVec.ofNat 32 bs.length)).toNat = ((x - a).toNat + (2 ^ 32 - bs.length)) % 2 ^ 32 :=
    sub_piece_toNat (by omega)
  by_cases hlow : (x - a).toNat < bs.length
  · have hbehind : put (put m a bs) (a + BitVec.ofNat 32 bs.length) cs x = put m a bs x := put_off (by omega)
    rw [hbehind, put, put, List.getD_append _ _ _ _ hlow]
  · have hplace : (x - (a + BitVec.ofNat 32 bs.length)).toNat = (x - a).toNat - bs.length := by omega
    rw [put, List.getD_append_right _ _ _ _ (not_lt.1 hlow), put, hplace, put_off (not_lt.1 hlow)]

/-- the first byte, and the rest -/
theorem put_cons (b : BitVec 8) (hlen : bs.length < 2 ^ 32) :
    put m a (b :: bs) = put (Function.update m a b) (a + 1#32) bs := by
  have hsplit : put m a ([b] ++ bs) = put (put m a [b]) (a + 1#32) bs :=
    put_append (by rw [List.length_singleton]; omega)
  rw [List.singleton_append, put_singleton] at hsplit
  exact hsplit

/-- the rest, and the first byte over it -/
theorem put_cons_last (m : Image) (a : BitVec 32) (b : BitVec 8) (bs : List (BitVec 8)) :
    put m a (b :: bs) = Function.update (put m (a + 1#32) bs) a b := by
  funext x
  by_cases hx : x = a
  · rw [hx, Function.update_self, put, sub_self]
    rfl
  · have hne : (x - a).toNat ≠ 0 := by
      intro h0
      exact hx (sub_eq_zero.1 (BitVec.eq_of_toNat_eq h0))
    have hsub : (x - (a + 1#32)).toNat = ((x - a).toNat + (2 ^ 32 - 1)) % 2 ^ 32 := sub_piece_toNat (by decide)
    have hlt := (x - a).isLt
    have hpred : (x - a).toNat = (x - (a + 1#32)).toNat + 1 := by omega
    rw [Function.update_of_ne hx, put, put, hpred, List.getD_cons_succ]

end Rows

/-! ## What the instructions do -/

namespace Cpu

/-- op moves a unit of so many bytes -/
def Moves (op : Cpu → Cpu) (size : ℕ) : Prop :=
  ∀ c, (op c).mem = moved c.mem c.edi c.esi size ∧ (op c).df = c.df ∧
    (op c).esi = c.next c.esi (BitVec.ofNat 32 size) ∧ (op c).edi = c.next c.edi (BitVec.ofNat 32 size)

/-- op puts so many bytes b, if eax holds w -/
def Fills (op : Cpu → Cpu) (w : BitVec 32) (b : BitVec 8) (size : ℕ) : Prop :=
  ∀ c, c.eax = w → (op c).mem = filled c.mem c.edi b size ∧ (op c).df = c.df ∧ (op c).eax = w ∧
    (op c).edi = c.next c.edi (BitVec.ofNat 32 size)

section Instructions

variable {op : Cpu → Cpu} {size : ℕ} {c : Cpu}

theorem movsb_moves : Moves movsb 1 := by
  intro c
  exact ⟨update_eq_moved _ _ _, rfl, rfl, rfl⟩

theorem stosb_fills (w : BitVec 32) : Fills stosb w (w.setWidth 8) 1 := by
  rintro c rfl
  exact ⟨update_eq_filled _ _ _, rfl, rfl, rfl⟩

theorem append_toNat {k : ℕ} (x : BitVec k) (b : BitVec 8) : (x ++ b).toNat = 256 * x.toNat + b.toNat := by
  rw [BitVec.toNat_append, ← Nat.shiftLeft_add_eq_or_of_lt b.isLt, Nat.shiftLeft_eq, Nat.mul_comm]

/-- the bytes of the loaded word -/
theorem load32_byte (m : Image) (a t : BitVec 32) (ht : t.toNat < 4) :
    (load32 m a >>> (8 * t.toNat)).setWidth 8 = m (a + t) := by
  have hbytes : (load32 m a).toNat = 256 * (256 * (256 * (m (a + 3#32)).toNat + (m (a + 2#32)).toNat) +
      (m (a + 1#32)).toNat) + (m a).toNat := by
    rw [load32, append_toNat, append_toNat, append_toNat]
  have h0 := (m a).isLt
  have h1 := (m (a + 1#32)).isLt
  have h2 := (m (a + 2#32)).isLt
  have h3 := (m (a + 3#32)).isLt
  apply BitVec.eq_of_toNat_eq
  rw [BitVec.toNat_setWidth, BitVec.toNat_ushiftRight, Nat.shiftRight_eq_div_pow, hbytes]
  obtain ⟨k, rfl⟩ : ∃ k : Fin 4, t = BitVec.ofNat 32 k := ⟨⟨t.toNat, ht⟩, by simp⟩
  fin_cases k
  · change _ / 2 ^ 0 % 2 ^ 8 = (m (a + 0#32)).toNat
    rw [BitVec.add_zero]
    omega
  · change _ / 2 ^ 8 % 2 ^ 8 = (m (a + 1#32)).toNat
    omega
  · change _ / 2 ^ 16 % 2 ^ 8 = (m (a + 2#32)).toNat
    omega
  · change _ / 2 ^ 24 % 2 ^ 8 = (m (a + 3#32)).toNat
    omega

theorem movsl_moves : Moves movsl 4 := by
  intro c
  refine ⟨?_, rfl, rfl, rfl⟩
  change store32 c.mem c.edi (load32 c.mem c.esi) = _
  funext x
  rw [store32, moved]
  by_cases hx : (x - c.edi).toNat < 4
  · rw [if_pos hx, if_pos hx, load32_byte _ _ _ hx]
  · rw [if_neg hx, if_neg hx]

theorem stosl_fills {w : BitVec 32} {b : BitVec 8} (hw : ∀ k < 4, (w >>> (8 * k)).setWidth 8 = b) :
    Fills stosl w b 4 := by
  rintro c rfl
  refine ⟨?_, rfl, rfl, rfl⟩
  change store32 c.mem c.edi c.eax = _
  funext x
  rw [store32, filled]
  by_cases hx : (x - c.edi).toNat < 4
  · rw [if_pos hx, if_pos hx, hw _ hx]
  · rw [if_neg hx, if_neg hx]

/-! ## Repeated -/

theorem ofNat_mul_succ (size n : ℕ) :
    BitVec.ofNat 32 (size * (n + 1)) = BitVec.ofNat 32 (size * n) + BitVec.ofNat 32 size := by
  rw [Nat.mul_succ, BitVec.ofNat_add]

/-- **DF clear**: the target is below the source or apart from it. -/
theorem rep_up (hop : Moves op size) (hdf : c.df = false) (h : (c.esi - c.edi).toNat + size * c.ecx.toNat ≤ 2 ^ 32) :
    (rep op c).mem = moved c.mem c.edi c.esi (size * c.ecx.toNat) := by
  rw [rep]
  generalize c.ecx.toNat = n at h ⊢
  induction n generalizing c with
  | zero => exact moved_zero.symm
  | succ n ih =>
    obtain ⟨hmem, hdf', hesi, hedi⟩ := hop c
    rw [next, hdf] at hesi hedi
    have hdist : (op c).esi - (op c).edi = c.esi - c.edi := by
      rw [hesi, hedi]
      change c.esi + BitVec.ofNat 32 size - (c.edi + BitVec.ofNat 32 size) = _
      ring
    rw [Nat.mul_succ] at h
    have hrest := ih (c := (op c).count) (hdf'.trans hdf) (by
      change ((op c).esi - (op c).edi).toNat + _ ≤ _
      rw [hdist]
      omega)
    rw [rounds, hrest]
    change moved (op c).mem (op c).edi (op c).esi _ = _
    rw [hmem, hesi, hedi, Nat.mul_succ, Nat.add_comm (size * n)]
    exact moved_add (by omega)

/-- **DF set**: it starts at the last unit of the blocks at d and s; the target is above the source or apart from it. -/
theorem rep_down (hop : Moves op size) (hdf : c.df = true) {d s : BitVec 32}
    (hd : c.edi + BitVec.ofNat 32 size = d + BitVec.ofNat 32 (size * c.ecx.toNat))
    (hs : c.esi + BitVec.ofNat 32 size = s + BitVec.ofNat 32 (size * c.ecx.toNat))
    (h : (d - s).toNat + size * c.ecx.toNat ≤ 2 ^ 32) :
    (rep op c).mem = moved c.mem d s (size * c.ecx.toNat) := by
  rw [rep]
  generalize c.ecx.toNat = n at hd hs h ⊢
  induction n generalizing c with
  | zero => exact moved_zero.symm
  | succ n ih =>
    obtain ⟨hmem, hdf', hesi, hedi⟩ := hop c
    rw [next, hdf] at hesi hedi
    have hlast : ∀ {x y : BitVec 32}, x + BitVec.ofNat 32 size = y + BitVec.ofNat 32 (size * (n + 1)) →
        x = y + BitVec.ofNat 32 (size * n) := by
      intro x y hxy
      rw [ofNat_mul_succ, ← add_assoc] at hxy
      exact add_right_cancel hxy
    have hd' := hlast hd
    have hs' := hlast hs
    rw [rounds, ih (c := (op c).count) (hdf'.trans hdf) ?_ ?_ ?_]
    · change moved (op c).mem d s _ = _
      rw [hmem, hd', hs', Nat.mul_succ]
      exact moved_add_down (by rw [Nat.mul_succ] at h; omega)
    · change (op c).edi + _ = _
      rw [hedi, ← hd']
      exact sub_add_cancel _ _
    · change (op c).esi + _ = _
      rw [hesi, ← hs']
      exact sub_add_cancel _ _
    · rw [Nat.mul_succ] at h
      omega

theorem rep_fill {w : BitVec 32} {b : BitVec 8} (hop : Fills op w b size) (hdf : c.df = false) (hw : c.eax = w)
    (h : size * c.ecx.toNat ≤ 2 ^ 32) : (rep op c).mem = filled c.mem c.edi b (size * c.ecx.toNat) := by
  rw [rep]
  generalize c.ecx.toNat = n at h ⊢
  induction n generalizing c with
  | zero => exact (filled_zero b).symm
  | succ n ih =>
    obtain ⟨hmem, hdf', heax, hedi⟩ := hop c hw
    rw [next, hdf] at hedi
    rw [Nat.mul_succ] at h
    rw [rounds, ih (c := (op c).count) (hdf'.trans hdf) heax (by omega)]
    change filled (op c).mem (op c).edi _ _ = _
    rw [hmem, hedi, Nat.mul_succ, Nat.add_comm (size * n)]
    exact filled_add b (by omega)

end Instructions

end Cpu

end Jos.Lib
