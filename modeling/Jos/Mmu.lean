/-
The 32-bit machine words of the kernel and the paging constants (inc/types.h, inc/mmu.h, inc/memlayout.h).

A linear address splits into a page directory index, a page table index and an offset. The macros are kept as the
headers write them, over `BitVec 32`; the lemmas below give each of them as a quotient or a remainder of the natural
number the word stands for, which is what the arithmetic of the later files works with:
- `pgnum_eq`, `pdx_eq`, `ptx_eq`: PGNUM, PDX and PTX as division and remainder;
- `roundup_pgsize_toNat`: ROUNDUP to a page, where it does not wrap;
- `pgnum_entry`, `pteAddr_entry`, `low_entry`: an entry built as `pa | perm | PTE_P` from a page-aligned address and
  permissions below 4096 gives both back.
-/
import Mathlib.Tactic

namespace Jos

/-- `uint32_t`, `uintptr_t`, `physaddr_t`, `pte_t`, `pde_t`, `size_t`, and `int`

A signed result that does not fit is the two's complement one, as the compiled code computes it, in every function but one:
where a loop of memset counts an int down past its least value (`Plain.pred` in String.Memory), the source gives it no
meaning and there is no result. -/
abbrev Word := BitVec 32

/-- `uint8_t`, and `char` where its sign does not matter -/
abbrev Byte := BitVec 8

/-! ## inc/types.h -/

/-- `ROUNDDOWN(a, n)` -/
def rounddown (a n : Word) : Word := a - a % n

/-- `ROUNDUP(a, n)` -/
def roundup (a n : Word) : Word := rounddown (a + n - 1#32) n

/-! ## inc/mmu.h -/

def pgsize : Word := 4096
def npdentries : ℕ := 1024
def nptentries : ℕ := 1024
/-- `PGSIZE*NPTENTRIES` -/
def ptsize : Word := 4194304

/-- page number field of address -/
def pgnum (la : Word) : ℕ := (la >>> 12).toNat
/-- page directory index -/
def pdx (la : Word) : ℕ := ((la >>> 22) &&& 0x3FF).toNat
/-- page table index -/
def ptx (la : Word) : ℕ := ((la >>> 12) &&& 0x3FF).toNat

/-- Present -/
def pteP : Word := 0x001
/-- Writeable -/
def pteW : Word := 0x002
/-- User -/
def pteU : Word := 0x004

/-- address in page table or page directory entry -/
def pteAddr (pte : Word) : Word := pte &&& ~~~0xFFF#32

/-- the test `entry & PTE_P` -/
def present (e : Word) : Prop := e &&& pteP ≠ 0

instance (e : Word) : Decidable (present e) := inferInstanceAs (Decidable (_ ≠ _))

/-! ## inc/memlayout.h -/

def kernbase : Word := 0xF0000000
def iophysmem : Word := 0x0A0000
def extphysmem : Word := 0x100000
def kstacktop : Word := kernbase
/-- `8*PGSIZE` -/
def kstksize : Word := 8 * pgsize
def mmiolim : Word := kstacktop - ptsize
def mmiobase : Word := mmiolim - ptsize
def ulim : Word := mmiobase
def uvpt : Word := ulim - ptsize
def upages : Word := uvpt - ptsize
def uenvs : Word := upages - ptsize
def utop : Word := uenvs
/-- `sizeof(struct PageInfo)` on i386 -/
def sizeofPageInfo : Word := 8

/-! ## Words as numbers -/

theorem toNat_ne_zero {w : Word} (h : w ≠ 0#32) : w.toNat ≠ 0 := BitVec.toNat_ne_iff_ne.2 h

theorem toNat_pred {w : Word} (h : w ≠ 0#32) : (w - 1#32).toNat = w.toNat - 1 := by
  have hle : 1#32 ≤ w := Nat.one_le_iff_ne_zero.2 (toNat_ne_zero h)
  exact BitVec.toNat_sub_of_le hle

theorem toNat_succ {w : Word} (h : w ≠ ~~~0#32) : (w + 1#32).toNat = w.toNat + 1 := by
  have hne : w.toNat ≠ 2 ^ 32 - 1 := BitVec.toNat_ne_iff_ne.2 h
  have hlt := w.isLt
  have hsum : w.toNat + (1#32).toNat < 2 ^ 32 := by
    change w.toNat + 1 < 2 ^ 32
    omega
  exact BitVec.toNat_add_of_lt hsum

/-- the distance of a byte from the first -/
theorem offset_toNat {a : Word} {n : ℕ} (hn : n < 2 ^ 32) : (a + BitVec.ofNat 32 n - a).toNat = n := by
  rw [BitVec.add_comm, BitVec.add_sub_cancel, BitVec.toNat_ofNat, Nat.mod_eq_of_lt hn]

theorem offset_inj {a : Word} {i j : ℕ} (hi : i < 2 ^ 32) (hj : j < 2 ^ 32)
    (h : a + BitVec.ofNat 32 i = a + BitVec.ofNat 32 j) : i = j := by
  rw [← offset_toNat (a := a) hi, h, offset_toNat hj]

/-! ## The macros as arithmetic -/

theorem pgnum_eq (la : Word) : pgnum la = la.toNat / 4096 := by
  simp [pgnum, BitVec.toNat_ushiftRight, Nat.shiftRight_eq_div_pow]

/-- a ten-bit field of an address -/
theorem field_toNat (x : Word) : (x &&& 0x3FF).toNat = x.toNat % 1024 := by
  simpa using Nat.and_two_pow_sub_one_eq_mod x.toNat 10

theorem pdx_eq (la : Word) : pdx la = la.toNat / 4194304 := by
  have := la.isLt
  rw [pdx, field_toNat, BitVec.toNat_ushiftRight, Nat.shiftRight_eq_div_pow]
  omega

theorem ptx_eq (la : Word) : ptx la = la.toNat / 4096 % 1024 := by
  rw [ptx, field_toNat, BitVec.toNat_ushiftRight, Nat.shiftRight_eq_div_pow]

theorem pdx_pgnum (la : Word) : pdx la = pgnum la / 1024 := by
  rw [pdx_eq, pgnum_eq]; omega

theorem ptx_pgnum (la : Word) : ptx la = pgnum la % 1024 := by
  rw [ptx_eq, pgnum_eq]

theorem pgnum_lt (la : Word) : pgnum la < 1048576 := by
  have := la.isLt
  rw [pgnum_eq]; omega

theorem pdx_lt (la : Word) : pdx la < 1024 := by
  have := pgnum_lt la
  rw [pdx_pgnum]; omega

theorem ptx_lt (la : Word) : ptx la < 1024 := by
  rw [ptx_pgnum]; omega

theorem roundup_pgsize_toNat {a : Word} (h : a.toNat + 4095 < 4294967296) :
    (roundup a pgsize).toNat = (a.toNat + 4095) / 4096 * 4096 := by
  have h1 : (a + pgsize - 1#32).toNat = a.toNat + 4095 := by
    simp only [pgsize]; bv_omega
  have h2 : ((a + pgsize - 1#32) % pgsize).toNat = (a.toNat + 4095) % 4096 := by
    rw [BitVec.toNat_umod, h1]; rfl
  have hle : (a + pgsize - 1#32) % pgsize ≤ a + pgsize - 1#32 := by
    rw [BitVec.le_def, h1, h2]
    exact Nat.mod_le _ _
  rw [roundup, rounddown, BitVec.toNat_sub_of_le hle, h1, h2]
  omega

/-- ROUNDUP gives a multiple of the page size, also where it wraps -/
theorem roundup_roundup (a : Word) : roundup (roundup a pgsize) pgsize = roundup a pgsize := by
  have hp : pgsize.toNat = 4096 := rfl
  have hle : (a + pgsize - 1#32) % pgsize ≤ a + pgsize - 1#32 := by
    rw [BitVec.le_def, BitVec.toNat_umod]
    exact Nat.mod_le _ _
  have hr : (roundup a pgsize).toNat = (a + pgsize - 1#32).toNat - (a + pgsize - 1#32).toNat % 4096 := by
    rw [roundup, rounddown, BitVec.toNat_sub_of_le hle, BitVec.toNat_umod, hp]
  have hlt := (a + pgsize - 1#32).isLt
  apply BitVec.eq_of_toNat_eq
  rw [roundup_pgsize_toNat (by omega)]
  omega

/-! ## Entries -/

theorem present_iff (e : Word) : present e ↔ e.toNat % 2 = 1 := by
  have h : (e &&& pteP).toNat = e.toNat % 2 := by
    simp [pteP, Nat.and_one_is_mod]
  unfold present
  rw [ne_eq, ← BitVec.toNat_inj, h]
  simp

theorem not_present_zero : ¬ present 0#32 := by decide

theorem low_toNat (e : Word) : (e &&& 0xFFF#32).toNat = e.toNat % 4096 := by
  simp [Nat.and_two_pow_sub_one_eq_mod e.toNat 12]

theorem pteAddr_eq (e : Word) : pteAddr e = (e >>> 12) <<< 12 := by
  apply BitVec.eq_of_getLsbD_eq
  intro i hi
  unfold pteAddr
  interval_cases i <;> simp

theorem pteAddr_toNat (e : Word) : (pteAddr e).toNat = e.toNat / 4096 * 4096 := by
  have := e.isLt
  rw [pteAddr_eq, BitVec.toNat_shiftLeft, BitVec.toNat_ushiftRight, Nat.shiftRight_eq_div_pow, Nat.shiftLeft_eq]
  omega

theorem pgnum_pteAddr (e : Word) : pgnum (pteAddr e) = pgnum e := by
  rw [pgnum_eq, pgnum_eq, pteAddr_toNat]; omega

/-- a page-aligned address and low bits do not overlap: `|` adds -/
theorem or_toNat {a p : Word} (ha : a.toNat % 4096 = 0) (hp : p.toNat < 4096) :
    (a ||| p).toNat = a.toNat + p.toNat := by
  have h := Nat.two_pow_add_eq_or_of_lt (i := 12) hp (a.toNat / 4096)
  have h2 : 2 ^ 12 * (a.toNat / 4096) = a.toNat := by omega
  rw [h2] at h
  rw [BitVec.toNat_or, ← h]

theorem or_lt {p q : Word} (hp : p.toNat < 4096) (hq : q.toNat < 4096) : (p ||| q).toNat < 4096 := by
  rw [BitVec.toNat_or]; exact Nat.or_lt_two_pow (n := 12) hp hq

/-- low bits do not change the page number -/
theorem pgnum_or (a : Word) {p : Word} (hp : p.toNat < 4096) : pgnum (a ||| p) = pgnum a := by
  have h0 : p >>> 12 = 0#32 := by
    apply BitVec.eq_of_toNat_eq
    rw [BitVec.toNat_ushiftRight, Nat.shiftRight_eq_div_pow]
    exact Nat.div_eq_of_lt hp
  unfold pgnum
  rw [BitVec.ushiftRight_or_distrib, h0, BitVec.or_zero]

/-- the entry `pa | perm | PTE_P` -/
def entry (pa perm : Word) : Word := pa ||| perm ||| pteP

section Entry
variable {pa perm : Word} (ha : pa.toNat % 4096 = 0) (hp : perm.toNat < 4096)
include ha hp

theorem entry_toNat : (entry pa perm).toNat = pa.toNat + (perm ||| pteP).toNat := by
  rw [entry, BitVec.or_assoc, or_toNat ha (or_lt hp (by decide))]

theorem pteAddr_entry : pteAddr (entry pa perm) = pa := by
  have h := or_lt hp (q := pteP) (by decide)
  apply BitVec.eq_of_toNat_eq
  rw [pteAddr_toNat, entry_toNat ha hp]
  omega

theorem pgnum_entry : pgnum (entry pa perm) = pgnum pa := by
  rw [← pgnum_pteAddr, pteAddr_entry ha hp]

theorem low_entry : entry pa perm &&& 0xFFF#32 = perm ||| pteP := by
  have h := or_lt hp (q := pteP) (by decide)
  apply BitVec.eq_of_toNat_eq
  rw [low_toNat, entry_toNat ha hp]
  omega

end Entry

theorem present_entry (pa perm : Word) : present (entry pa perm) := by
  unfold present entry
  have h : (pa ||| perm ||| pteP) &&& pteP = pteP := by
    apply BitVec.eq_of_getLsbD_eq
    intro i hi
    simp only [BitVec.getLsbD_and, BitVec.getLsbD_or]
    cases pteP.getLsbD i <;> simp
  rw [h]
  decide

/-- a flag below bit 12 is read off the low bits alone -/
theorem and_flag (e f : Word) (hf : 0xFFF#32 &&& f = f) : e &&& f = (e &&& 0xFFF#32) &&& f := by
  rw [BitVec.and_assoc, hf]

end Jos
