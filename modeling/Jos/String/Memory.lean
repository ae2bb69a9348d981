/-
memset and memmove (lib/string.c), in the build with ASM set and in the plain one behind #else.

The assembly build runs the string instructions of Lib.StringOps on a processor c, the plain one loops over bytes. The int
that the plain memset counts down may overflow, and has no result then: none (see `Word`). Results:
- `Asm.memmove_eq`, `Plain.memmove_eq`: both move the block as it was, on each of their paths;
- `memmove_snapshot`: so they do the same, wherever the blocks are and however they overlap;
- `Asm.memset_eq`, `Plain.memset_eq`: the assembly one fills n bytes, the plain one if n is positive as an int;
- `memset_agree_iff`: they agree exactly below 2^31 bytes.
-/
import Jos.Lib.StringOps
import Jos.Mmu

namespace Jos

open Jos.Lib

/-! ## The assembly build -/

namespace Asm

def memset (v c n : Word) (cpu : Cpu) : Word × Cpu :=
  if n = 0#32 then (v, cpu)
  else if v.srem 4#32 = 0#32 ∧ n % 4#32 = 0#32 then
    let c := c &&& 0xFF#32
    let c := (c <<< 24) ||| (c <<< 16) ||| (c <<< 8) ||| c
    (v, Cpu.rep Cpu.stosl (Cpu.cld { cpu with edi := v, eax := c, ecx := n / 4#32 }))
  else (v, Cpu.rep Cpu.stosb (Cpu.cld { cpu with edi := v, eax := c, ecx := n }))

def memmove (dst src n : Word) (cpu : Cpu) : Word × Cpu :=
  let s := src
  let d := dst
  if s < d ∧ s + n > d then
    let s := s + n
    let d := d + n
    let cpu :=
      if s.srem 4#32 = 0#32 ∧ d.srem 4#32 = 0#32 ∧ n % 4#32 = 0#32 then
        Cpu.rep Cpu.movsl (Cpu.std { cpu with edi := d - 4#32, esi := s - 4#32, ecx := n / 4#32 })
      else Cpu.rep Cpu.movsb (Cpu.std { cpu with edi := d - 1#32, esi := s - 1#32, ecx := n })
    -- some versions of GCC rely on DF being clear
    (dst, cpu.cld)
  else if s.srem 4#32 = 0#32 ∧ d.srem 4#32 = 0#32 ∧ n % 4#32 = 0#32 then
    (dst, Cpu.rep Cpu.movsl (Cpu.cld { cpu with edi := d, esi := s, ecx := n / 4#32 }))
  else (dst, Cpu.rep Cpu.movsb (Cpu.cld { cpu with edi := d, esi := s, ecx := n }))

end Asm

/-! ## The plain build -/

namespace Plain

/-- `--m` on an int, the one place where an overflow has no result -/
def pred (m : Word) : Option Word := if m = 0x80000000#32 then none else some (m - 1#32)

/-- `while (--m >= 0) *p++ = c`, none if it has not ended after so many rounds -/
def memsetLoop (c : Word) : ℕ → Word → Word → Image → Option Image
  | 0, _, _, _ => none
  | fuel + 1, m, p, mem => do
    let m ← pred m
    if (0#32).sle m then memsetLoop c fuel m (p + 1#32) (Function.update mem p (c.setWidth 8)) else some mem

def memset (fuel : ℕ) (v c n : Word) (mem : Image) : Option (Word × Image) := do
  return (v, ← memsetLoop c fuel n v mem)

/-- `while (n-- > 0) *--d = *--s` -/
def moveDown : ℕ → Word → Word → Image → Image
  | 0, _, _, m => m
  | n + 1, d, s, m => moveDown n (d - 1#32) (s - 1#32) (Function.update m (d - 1#32) (m (s - 1#32)))

/-- `while (n-- > 0) *d++ = *s++` -/
def moveUp : ℕ → Word → Word → Image → Image
  | 0, _, _, m => m
  | n + 1, d, s, m => moveUp n (d + 1#32) (s + 1#32) (Function.update m d (m s))

def memmove (dst src n : Word) (m : Image) : Word × Image :=
  let s := src
  let d := dst
  if s < d ∧ s + n > d then (dst, moveDown n.toNat (d + n) (s + n) m) else (dst, moveUp n.toNat d s m)

end Plain

/-! ## memmove -/

section Memmove

variable {dst src n : Word} {cpu : Cpu} {m : Image} {op : Cpu → Cpu} {size : ℕ}

theorem words_toNat (h : n % 4#32 = 0#32) : 4 * (n / 4#32).toNat = n.toNat := by
  have hmod : n.toNat % 4 = 0 := congrArg BitVec.toNat h
  rw [BitVec.toNat_udiv]
  change 4 * (n.toNat / 4) = n.toNat
  omega

/-- the forward branch: the target is not above the source, or the source ends before it -/
theorem distance_up (hs : src.toNat + n.toNat ≤ 2 ^ 32) (hd : dst.toNat + n.toNat ≤ 2 ^ 32)
    (h : ¬ (src < dst ∧ src + n > dst)) : (src - dst).toNat + n.toNat ≤ 2 ^ 32 := by
  have hlt := dst.isLt
  rw [gt_iff_lt, BitVec.lt_def, BitVec.lt_def, BitVec.toNat_add] at h
  rw [BitVec.toNat_sub]
  omega

theorem distance_down (hd : dst.toNat + n.toNat ≤ 2 ^ 32) (h : src < dst) : (dst - src).toNat + n.toNat ≤ 2 ^ 32 := by
  rw [BitVec.toNat_sub_of_le (BitVec.le_of_lt h)]
  omega

namespace Asm

/-- units that make up n bytes, upwards -/
theorem move_up (hop : Cpu.Moves op size) {e : Word} (he : size * e.toNat = n.toNat)
    (h : (src - dst).toNat + n.toNat ≤ 2 ^ 32) :
    (Cpu.rep op (Cpu.cld { cpu with edi := dst, esi := src, ecx := e })).mem = moved cpu.mem dst src n.toNat := by
  rw [← he] at h ⊢
  exact Cpu.rep_up hop rfl h

/-- units that make up n bytes, downwards from the last -/
theorem move_down (hop : Cpu.Moves op size) {e : Word} (he : size * e.toNat = n.toNat)
    (h : (dst - src).toNat + n.toNat ≤ 2 ^ 32) :
    (Cpu.rep op (Cpu.std { cpu with
      edi := dst + n - BitVec.ofNat 32 size, esi := src + n - BitVec.ofNat 32 size, ecx := e })).mem =
      moved cpu.mem dst src n.toNat := by
  have hn : n = BitVec.ofNat 32 (size * e.toNat) := by
    rw [he, BitVec.ofNat_toNat, BitVec.setWidth_eq]
  have hlast : ∀ a : Word, a + n - BitVec.ofNat 32 size + BitVec.ofNat 32 size = a + BitVec.ofNat 32 (size * e.toNat) := by
    intro a
    rw [sub_add_cancel, ← hn]
  rw [← he] at h ⊢
  exact Cpu.rep_down hop rfl (hlast dst) (hlast src) h

theorem memmove_fst : (memmove dst src n cpu).1 = dst := by
  unfold memmove
  dsimp only
  split_ifs <;> rfl

/-- **The block is moved on each of the four paths.** -/
theorem memmove_eq (hs : src.toNat + n.toNat ≤ 2 ^ 32) (hd : dst.toNat + n.toNat ≤ 2 ^ 32) :
    (memmove dst src n cpu).2.mem = moved cpu.mem dst src n.toNat := by
  have hbytes : 1 * n.toNat = n.toNat := Nat.one_mul _
  unfold memmove
  by_cases hdir : src < dst ∧ src + n > dst
  · have hdist := distance_down hd hdir.1
    rw [if_pos hdir]
    dsimp only
    split_ifs with hword
    · exact move_down Cpu.movsl_moves (words_toNat hword.2.2) hdist
    · exact move_down Cpu.movsb_moves hbytes hdist
  · have hdist := distance_up hs hd hdir
    rw [if_neg hdir]
    split_ifs with hword
    · exact move_up Cpu.movsl_moves (words_toNat hword.2.2) hdist
    · exact move_up Cpu.movsb_moves hbytes hdist

end Asm

namespace Plain

theorem moveUp_eq {k : ℕ} (h : (src - dst).toNat + k ≤ 2 ^ 32) : moveUp k dst src m = moved m dst src k := by
  induction k generalizing dst src m with
  | zero => exact moved_zero.symm
  | succ k ih =>
    have hdist : src + 1#32 - (dst + 1#32) = src - dst := by ring
    calc moveUp (k + 1) dst src m
        = moveUp k (dst + 1#32) (src + 1#32) (moved m dst src 1) := by rw [moveUp, update_eq_moved]
      _ = moved (moved m dst src 1) (dst + 1#32) (src + 1#32) k := ih (by rw [hdist]; omega)
      _ = moved m dst src (1 + k) := moved_add (by omega)
      _ = moved m dst src (k + 1) := by rw [Nat.add_comm]

theorem moveDown_eq {k : ℕ} (h : (dst - src).toNat + k ≤ 2 ^ 32) :
    moveDown k (dst + BitVec.ofNat 32 k) (src + BitVec.ofNat 32 k) m = moved m dst src k := by
  induction k generalizing m with
  | zero => exact moved_zero.symm
  | succ k ih =>
    have hpred : ∀ a : Word, a + BitVec.ofNat 32 (k + 1) - 1#32 = a + BitVec.ofNat 32 k := by
      intro a
      rw [BitVec.ofNat_add]
      ring
    calc moveDown (k + 1) (dst + BitVec.ofNat 32 (k + 1)) (src + BitVec.ofNat 32 (k + 1)) m
        = moveDown k (dst + BitVec.ofNat 32 k) (src + BitVec.ofNat 32 k)
            (moved m (dst + BitVec.ofNat 32 k) (src + BitVec.ofNat 32 k) 1) := by
          rw [moveDown, hpred, hpred, update_eq_moved]
      _ = moved (moved m (dst + BitVec.ofNat 32 k) (src + BitVec.ofNat 32 k) 1) dst src k := ih (by omega)
      _ = moved m dst src (k + 1) := moved_add_down h

theorem memmove_fst : (memmove dst src n m).1 = dst := by
  unfold memmove
  dsimp only
  split_ifs <;> rfl

theorem memmove_eq (hs : src.toNat + n.toNat ≤ 2 ^ 32) (hd : dst.toNat + n.toNat ≤ 2 ^ 32) :
    (memmove dst src n m).2 = moved m dst src n.toNat := by
  unfold memmove
  by_cases hdir : src < dst ∧ src + n > dst
  · have hrun := moveDown_eq (m := m) (distance_down hd hdir.1)
    rw [BitVec.ofNat_toNat, BitVec.setWidth_eq] at hrun
    rw [if_pos hdir]
    exact hrun
  · rw [if_neg hdir]
    exact moveUp_eq (distance_up hs hd hdir)

end Plain

end Memmove

/-! ## memset -/

section Memset

variable {v c n : Word} {cpu : Cpu} {m : Image}

/-- the byte of c in each place of the word that stosl writes -/
theorem word_byte (c : Word) {k : ℕ} (hk : k < 4) :
    (((((c &&& 0xFF#32) <<< 24) ||| ((c &&& 0xFF#32) <<< 16) ||| ((c &&& 0xFF#32) <<< 8) ||| (c &&& 0xFF#32)) >>>
      (8 * k)).setWidth 8 : Byte) = c.setWidth 8 := by
  apply BitVec.eq_of_getLsbD_eq
  intro i hi
  interval_cases k <;> interval_cases i <;> simp

theorem Asm.memset_fst : (Asm.memset v c n cpu).1 = v := by
  unfold Asm.memset
  split_ifs <;> rfl

/-- **The assembly build fills n bytes**, whatever n is. -/
theorem Asm.memset_eq : (Asm.memset v c n cpu).2.mem = filled cpu.mem v (c.setWidth 8) n.toNat := by
  unfold Asm.memset
  by_cases hn : n = 0#32
  · rw [if_pos hn, hn]
    exact (filled_zero _).symm
  · rw [if_neg hn]
    have hle := n.isLt
    split_ifs with hword
    · have hwords := words_toNat hword.2
      have hrep := Cpu.rep_fill (c := Cpu.cld { cpu with edi := v, eax := _, ecx := n / 4#32 })
        (Cpu.stosl_fills fun k hk => word_byte c hk) rfl rfl (by change 4 * (n / 4#32).toNat ≤ _; omega)
      rw [← hwords]
      exact hrep
    · have hrep := Cpu.rep_fill (c := Cpu.cld { cpu with edi := v, eax := c, ecx := n }) (Cpu.stosb_fills c) rfl rfl
        (by change 1 * n.toNat ≤ _; omega)
      rw [← Nat.one_mul n.toNat]
      exact hrep

namespace Plain

theorem zero_sle (m : Word) : (0#32).sle m ↔ m.toNat < 2 ^ 31 := by
  have hlt := m.isLt
  rw [BitVec.sle_iff_toInt_le, BitVec.toInt_zero, BitVec.toInt_eq_toNat_cond]
  split_ifs <;> omega

/-- k more bytes -/
theorem memsetLoop_eq {k : ℕ} (hk : k < 2 ^ 31) {fuel : ℕ} (hf : k < fuel) {p : Word} :
    memsetLoop c fuel (BitVec.ofNat 32 k) p m = some (filled m p (c.setWidth 8) k) := by
  induction k generalizing fuel p m with
  | zero =>
    obtain ⟨fuel, rfl⟩ := Nat.exists_eq_add_of_lt hf
    rw [filled_zero]
    rfl
  | succ k ih =>
    obtain ⟨fuel, rfl⟩ := Nat.exists_eq_add_of_lt hf
    have hne : BitVec.ofNat 32 (k + 1) ≠ 0x80000000#32 := by
      intro h
      have hnat := congrArg BitVec.toNat h
      rw [BitVec.toNat_ofNat, Nat.mod_eq_of_lt (by omega)] at hnat
      exact absurd hnat (ne_of_lt hk)
    have hpred : pred (BitVec.ofNat 32 (k + 1)) = some (BitVec.ofNat 32 k) := by
      rw [pred, if_neg hne, BitVec.ofNat_add, add_sub_cancel_right]
    have hsle : (0#32).sle (BitVec.ofNat 32 k) := by
      rw [zero_sle, BitVec.toNat_ofNat]
      omega
    calc memsetLoop c (k + 1 + fuel + 1) (BitVec.ofNat 32 (k + 1)) p m
        = memsetLoop c (k + 1 + fuel) (BitVec.ofNat 32 k) (p + 1#32) (filled m p (c.setWidth 8) 1) := by
          rw [memsetLoop, hpred, ← update_eq_filled]
          exact if_pos hsle
      _ = some (filled (filled m p (c.setWidth 8) 1) (p + 1#32) (c.setWidth 8) k) := ih (by omega) (by omega)
      _ = some (filled m p (c.setWidth 8) (1 + k)) := congrArg some (filled_add _ (by omega))
      _ = some (filled m p (c.setWidth 8) (k + 1)) := by rw [Nat.add_comm]

/-- a length that is negative as an int: no byte is written -/
theorem memset_negative (hn : 2 ^ 31 < n.toNat) {fuel : ℕ} (hf : 0 < fuel) : memset fuel v c n m = some (v, m) := by
  obtain ⟨fuel, rfl⟩ := Nat.exists_eq_succ_of_ne_zero (Nat.ne_zero_of_lt hf)
  have hne : n ≠ 0x80000000#32 := by
    rintro rfl
    exact absurd hn (lt_irrefl _)
  have hsle : ¬ (0#32).sle (n - 1#32) := by
    have hlt := n.isLt
    rw [zero_sle, BitVec.toNat_sub_of_le (by rw [BitVec.le_def]; change 1 ≤ n.toNat; omega)]
    change ¬ n.toNat - 1 < 2 ^ 31
    omega
  rw [memset, memsetLoop, pred, if_neg hne]
  change Option.bind (if (0#32).sle (n - 1#32) then _ else some m) _ = _
  rw [if_neg hsle]
  rfl

/-- the length whose first `--m` overflows -/
theorem memset_overflow {fuel : ℕ} : memset fuel v c 0x80000000#32 m = none := by
  cases fuel with
  | zero => rfl
  | succ fuel => rfl

end Plain

end Memset

/-! ## Main results -/

/-- t is the memory m with n bytes from src on at dst, as they are in m -/
structure Copies (m t : Image) (dst src : Word) (n : ℕ) : Prop where
  byte : ∀ k < n, t (dst + BitVec.ofNat 32 k) = m (src + BitVec.ofNat 32 k)
  rest : ∀ a : Word, a.toNat < dst.toNat ∨ dst.toNat + n ≤ a.toNat → t a = m a

/-- t is the memory m with the byte b at n addresses from v on -/
structure Sets (m t : Image) (v : Word) (b : Byte) (n : ℕ) : Prop where
  byte : ∀ k < n, t (v + BitVec.ofNat 32 k) = b
  rest : ∀ a : Word, a.toNat < v.toNat ∨ v.toNat + n ≤ a.toNat → t a = m a

section Blocks

variable {m : Image} {v src dst : Word} {n : ℕ}

theorem outside_block (h : v.toNat + n ≤ 2 ^ 32) {a : Word} (ha : a.toNat < v.toNat ∨ v.toNat + n ≤ a.toNat) :
    ¬ (a - v).toNat < n := by
  have hlt := a.isLt
  rw [BitVec.toNat_sub]
  omega

theorem moved_copies (h : dst.toNat + n ≤ 2 ^ 32) : Copies m (moved m dst src n) dst src n where
  byte k hk := by
    have hin : (dst + BitVec.ofNat 32 k - dst).toNat < n := by
      rw [offset_toNat (by omega)]
      exact hk
    rw [moved, if_pos hin, add_sub_cancel_left]
  rest a ha := if_neg (outside_block h ha)

theorem filled_sets (h : v.toNat + n ≤ 2 ^ 32) (b : Byte) : Sets m (filled m v b n) v b n where
  byte k hk := by
    apply if_pos
    rw [offset_toNat (by omega)]
    exact hk
  rest a ha := if_neg (outside_block h ha)

end Blocks

/-- **memmove takes a snapshot**, wherever the blocks lie and whatever their alignment; and both builds do the same. -/
theorem memmove_snapshot (dst src n : Word) (hs : src.toNat + n.toNat ≤ 2 ^ 32) (hd : dst.toNat + n.toNat ≤ 2 ^ 32)
    (cpu : Cpu) :
    Copies cpu.mem (Asm.memmove dst src n cpu).2.mem dst src n.toNat ∧
    Plain.memmove dst src n cpu.mem = ((Asm.memmove dst src n cpu).1, (Asm.memmove dst src n cpu).2.mem) := by
  have hasm : (Asm.memmove dst src n cpu).2.mem = moved cpu.mem dst src n.toNat := Asm.memmove_eq hs hd
  refine ⟨?_, Prod.ext ?_ ?_⟩
  · rw [hasm]
    exact moved_copies hd
  · rw [Asm.memmove_fst, Plain.memmove_fst]
  · exact (Plain.memmove_eq hs hd).trans hasm.symm

/-- six bytes to the next address, from the last to the first -/
theorem memmove_snapshot_overlap :
    (Asm.memmove 0x1001#32 0x1000#32 6#32 ⟨fun a => a.setWidth 8, 0#32, 0#32, 0#32, 0#32, false⟩).2.mem 0x1006#32 =
      5#8 :=
  (memmove_snapshot 0x1001#32 0x1000#32 6#32 (by decide) (by decide)
    ⟨fun a => a.setWidth 8, 0#32, 0#32, 0#32, 0#32, false⟩).1.byte 5 (by decide)

theorem Asm.memset_sets {v c n : Word} (h : v.toNat + n.toNat ≤ 2 ^ 32) (cpu : Cpu) :
    Sets cpu.mem (Asm.memset v c n cpu).2.mem v (c.setWidth 8) n.toNat := by
  rw [Asm.memset_eq]
  exact filled_sets h _

/-- the block is filled, and the plain build ends with the same -/
structure MemsetAgree (v c n : Word) (cpu : Cpu) : Prop where
  sets : Sets cpu.mem (Asm.memset v c n cpu).2.mem v (c.setWidth 8) n.toNat
  plain : ∃ rounds, ∀ fuel, rounds ≤ fuel →
    Plain.memset fuel v c n cpu.mem = some ((Asm.memset v c n cpu).1, (Asm.memset v c n cpu).2.mem)

/-- **The builds of memset agree exactly below 2^31 bytes**: the plain one counts n down as an int. -/
theorem memset_agree_iff (v c n : Word) (h : v.toNat + n.toNat ≤ 2 ^ 32) :
    (∀ cpu, MemsetAgree v c n cpu) ↔ n.toNat < 2 ^ 31 := by
  constructor
  · intro hagree
    by_contra hlong
    obtain ⟨⟨hbyte, -⟩, rounds, hplain⟩ := hagree ⟨fun _ => c.setWidth 8 + 1#8, 0#32, 0#32, 0#32, 0#32, false⟩
    have hrun := hplain (rounds + 1) (Nat.le_succ _)
    rcases eq_or_lt_of_le (not_lt.1 hlong) with heq | hlt
    · -- the first `--m` overflows
      have hn : n = 0x80000000#32 := BitVec.eq_of_toNat_eq heq.symm
      rw [hn, Plain.memset_overflow] at hrun
      cases hrun
    · -- no byte is written, and the first one was another
      rw [Plain.memset_negative hlt (Nat.succ_pos _)] at hrun
      have hmem := (Prod.mk.inj (Option.some.inj hrun)).2
      have hfirst := hbyte 0 (by omega)
      rw [← hmem] at hfirst
      have hne : ∀ b : Byte, b + 1#8 ≠ b := by decide
      exact hne _ hfirst
  · intro hn cpu
    refine ⟨Asm.memset_sets h cpu, n.toNat + 1, ?_⟩
    intro fuel hf
    have hloop := Plain.memsetLoop_eq (c := c) (m := cpu.mem) (p := v) hn hf
    rw [BitVec.ofNat_toNat, BitVec.setWidth_eq] at hloop
    rw [Plain.memset, hloop, Asm.memset_fst, Asm.memset_eq]
    rfl

/-- a page -/
theorem memset_agree_iff_page :
    MemsetAgree 0xF0110000#32 (-1#32) 0x1000#32 ⟨fun _ => 0#8, 0#32, 0#32, 0#32, 0#32, false⟩ :=
  (memset_agree_iff 0xF0110000#32 (-1#32) 0x1000#32 (by decide)).2 (by decide) _

/-- one byte more than 2^31: the plain build writes none of them -/
theorem memset_long_differs :
    (∀ fuel, 0 < fuel → Plain.memset fuel 0x10000000#32 1#32 0x80000001#32 (fun _ => 0#8) =
      some (0x10000000#32, fun _ => 0#8)) ∧
    (Asm.memset 0x10000000#32 1#32 0x80000001#32 ⟨fun _ => 0#8, 0#32, 0#32, 0#32, 0#32, false⟩).2.mem 0x10000000#32 =
      1#8 := by
  constructor
  · intro fuel hf
    exact Plain.memset_negative (by decide) hf
  · rw [Asm.memset_eq, filled]
    exact if_pos (by decide)

end Jos
