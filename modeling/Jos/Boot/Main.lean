/-
The boot loader (boot/main.c): readsect, readseg and bootmain.

Physical memory is a byte at every 32-bit address, the disk is the bytes of the IDE drives, and the kernel image starts at
sector 1 of the first drive. waitdisk is left out (the drive is ready), and a loop that does not end has the result none
for every number of rounds. readseg rounds its start down and its end up to whole sectors, so each segment is a layer over
the memory, and the last layer decides. Results:
- `readsegLoop_eq`, `loadSeg_eq`: the sectors one call writes, where its end is at most 2^32 - 512;
- `loadSeg_endless`: it never ends if its end is above that and below 2^32;
- `readseg_copies`: the bytes of the image that a call brings, and the memory it leaves alone;
- `readseg_ends_iff`: exactly which calls end, whatever the header holds;
- `loadSegs_eq`: a list of segments is a stack of layers;
- `bootLoop_eq`: bootmain's loop over the headers in memory is the loop over the list of them;
- `load_order_enough`: exactly which lists of segments are loaded right from every memory, and `load_order_tail_lost`, an
  image in which the second segment destroys the end of the first;
- `tailsKept_of_apart`: where the order is enough.
-/
import Jos.Lib.Layers
import Jos.Mmu

namespace Jos

open Jos.Lib

/-! ## Memory and disk -/

/-- physical memory, with no paging -/
abbrev Ram := Word → Byte

/-- the bytes of the two drives: `d false` is the first -/
abbrev Disk := Bool → ℕ → Byte

def sectsize : ℕ := 512

/-- byte i of the kernel image: the 2nd sector onward holds it -/
def image (d : Disk) (i : ℕ) : Byte := d false (sectsize + i)

def ld16 (m : Ram) (a : Word) : BitVec 16 := m (a + 1#32) ++ m a
def ld32 (m : Ram) (a : Word) : Word := m (a + 3#32) ++ m (a + 2#32) ++ m (a + 1#32) ++ m a

/-- the address registers 0x1F3 to 0x1F6 as readsect writes them -/
def lbaRegs (offset : Word) : List Byte :=
  [offset.setWidth 8, (offset >>> 8).setWidth 8, (offset >>> 16).setWidth 8, ((offset >>> 24) ||| 0xE0#32).setWidth 8]

/-- byte i of the sector that the registers select: bit 4 of the last is the drive, its low nibble the top of the number -/
def sector (d : Disk) (regs : List Byte) (i : ℕ) : Byte :=
  match regs with
  | [r3, r4, r5, r6] =>
    d (r6.getLsbD 4) (sectsize * (r3.toNat + 2 ^ 8 * r4.toNat + 2 ^ 16 * r5.toNat + 2 ^ 24 * (r6.toNat % 16)) + i)
  | _ => 0#8

/-- insl(0x1F0, dst, SECTSIZE/4): 512 bytes from dst on -/
def insl (m : Ram) (dst : Word) (bytes : ℕ → Byte) : Ram :=
  fun a => if (a - dst).toNat < sectsize then bytes (a - dst).toNat else m a

def readsect (d : Disk) (dst offset : Word) (m : Ram) : Ram := insl m dst (sector d (lbaRegs offset))

/-- `while (pa < end_pa)`, none if it has not ended after the given rounds -/
def readsegLoop (d : Disk) (endPa : Word) : ℕ → Word → Word → Ram → Option Ram
  | 0, _, _, _ => none
  | fuel + 1, pa, offset, m =>
    if pa < endPa then readsegLoop d endPa fuel (pa + 512#32) (offset + 1#32) (readsect d pa offset m) else some m

def readseg (d : Disk) (fuel : ℕ) (pa count offset : Word) (m : Ram) : Option Ram :=
  readsegLoop d (pa + count) fuel (pa &&& ~~~511#32) (offset / 512#32 + 1#32) m

/-! ## inc/elf.h -/

def elfMagic : Word := 0x464C457F
/-- ELFHDR, the scratch space -/
def elfhdr : Word := 0x10000

/-- the fields of struct Proghdr that the loader reads -/
structure Proghdr where
  pOffset : Word
  pPa : Word
  pMemsz : Word
deriving DecidableEq, Repr

def ldProghdr (m : Ram) (ph : Word) : Proghdr where
  pOffset := ld32 m (ph + 4#32)
  pPa := ld32 m (ph + 12#32)
  pMemsz := ld32 m (ph + 20#32)

/-! ## bootmain -/

def loadSeg (d : Disk) (fuel : ℕ) (p : Proghdr) (m : Ram) : Option Ram := readseg d fuel p.pPa p.pMemsz p.pOffset m

/-- `for (; ph < eph; ph++)`; eph is e_phnum headers after the first ph, so there are at most so many rounds -/
def bootLoop (d : Disk) (fuel : ℕ) (eph : Word) : ℕ → Word → Ram → Option Ram
  | 0, _, m => some m
  | n + 1, ph, m =>
    if ph < eph then do bootLoop d fuel eph n (ph + 32#32) (← loadSeg d fuel (ldProghdr m ph) m) else some m

inductive Outcome where
  /-- the entry point is called -/
  | entry (e : Word) (m : Ram)
  | bad (m : Ram)

def Outcome.ram : Outcome → Ram
  | .entry _ m => m
  | .bad m => m

/-- the entry point that is called -/
def Outcome.calls : Outcome → Option Word
  | .entry e _ => some e
  | .bad _ => none

def bootmain (d : Disk) (fuel : ℕ) (m : Ram) : Option Outcome := do
  let m ← readseg d fuel elfhdr 4096#32 0#32 m
  if ld32 m elfhdr ≠ elfMagic then
    return .bad m
  let ph := elfhdr + ld32 m (elfhdr + 28#32)
  let phnum := ld16 m (elfhdr + 44#32)
  let m ← bootLoop d fuel (ph + 32#32 * phnum.setWidth 32) phnum.toNat ph m
  return .entry (ld32 m (elfhdr + 24#32)) m

/-- the loop over a list of headers -/
def loadSegs (d : Disk) (fuel : ℕ) : List Proghdr → Ram → Option Ram
  | [], m => some m
  | p :: ps, m => do loadSegs d fuel ps (← loadSeg d fuel p m)

/-! ## One segment -/

namespace Proghdr

/-- the first address after the segment -/
def endPa (p : Proghdr) : ℕ := p.pPa.toNat + p.pMemsz.toNat

/-- p_pa = p_offset modulo SECTSIZE -/
def Congruent (p : Proghdr) : Prop := p.pPa.toNat % sectsize = p.pOffset.toNat % sectsize

/-- the sectors that the segment touches -/
def Touches (p : Proghdr) (a : Word) : Prop :=
  p.pPa.toNat / sectsize * sectsize ≤ a.toNat ∧ a.toNat < (p.endPa + (sectsize - 1)) / sectsize * sectsize

instance (p : Proghdr) (a : Word) : Decidable (p.Touches a) := inferInstanceAs (Decidable (_ ∧ _))

/-- which byte of the image goes to a -/
def source (p : Proghdr) (a : Word) : ℕ :=
  p.pOffset.toNat / sectsize * sectsize + (a.toNat - p.pPa.toNat / sectsize * sectsize)

/-- what one call of readseg puts over the memory -/
def layer (d : Disk) (p : Proghdr) : Layer Word Byte where
  covers := fun a => decide (p.Touches a)
  val := fun a => image d (p.source a)

end Proghdr

section Segment

variable {d : Disk} {m : Ram}

/-- the registers select the sector with that number on the first drive -/
theorem sector_lbaRegs {offset : Word} (h : offset.toNat < 2 ^ 28) (i : ℕ) :
    sector d (lbaRegs offset) i = d false (sectsize * offset.toNat + i) := by
  have hdrive : (((offset >>> 24) ||| 0xE0#32).setWidth 8 : Byte).getLsbD 4 = false := by
    have hbit : offset[28] = false := Nat.testBit_lt_two_pow h
    simp [hbit]
  have hnum : (offset.setWidth 8 : Byte).toNat + 2 ^ 8 * ((offset >>> 8).setWidth 8 : Byte).toNat +
      2 ^ 16 * ((offset >>> 16).setWidth 8 : Byte).toNat +
      2 ^ 24 * ((((offset >>> 24) ||| 0xE0#32).setWidth 8 : Byte).toNat % 16) = offset.toNat := by
    have hnib : (((offset >>> 24) ||| 0xE0#32).setWidth 8 : Byte).toNat % 16 = offset.toNat / 2 ^ 24 % 16 := by
      have hmod : ∀ x : ℕ, (x ||| 0xE0) % 16 = x % 16 := fun x => by
        rw [show (16 : ℕ) = 2 ^ 4 from rfl, Nat.or_mod_two_pow]
        simp
      rw [BitVec.toNat_setWidth, BitVec.toNat_or, BitVec.toNat_ushiftRight, Nat.shiftRight_eq_div_pow,
        Nat.mod_mod_of_dvd _ (by decide : 16 ∣ 2 ^ 8)]
      exact hmod _
    rw [hnib]
    simp only [BitVec.toNat_setWidth, BitVec.toNat_ushiftRight, Nat.shiftRight_eq_div_pow]
    omega
  rw [lbaRegs, sector, hdrive, hnum]

theorem aligned_and (a : Word) : (a &&& ~~~511#32).toNat = a.toNat / sectsize * sectsize := by
  have hshift : a &&& ~~~511#32 = (a >>> 9) <<< 9 := by
    apply BitVec.eq_of_getLsbD_eq
    intro i hi
    interval_cases i <;> simp
  have := a.isLt
  rw [hshift, BitVec.toNat_shiftLeft, BitVec.toNat_ushiftRight, Nat.shiftRight_eq_div_pow, Nat.shiftLeft_eq, sectsize]
  omega

/-- memory with the sectors from `offset` on at the addresses from pa to last -/
def sectorsAt (d : Disk) (pa offset last : ℕ) (m : Ram) : Ram :=
  fun a => if pa ≤ a.toNat ∧ a.toNat < last then d false (sectsize * offset + (a.toNat - pa)) else m a

theorem readsect_eq {pa offset : Word} (hpa : pa.toNat % sectsize = 0) (ho : offset.toNat < 2 ^ 28) :
    readsect d pa offset m = sectorsAt d pa.toNat offset.toNat (pa.toNat + sectsize) m := by
  funext a
  have hlt : (a - pa).toNat < sectsize ↔ pa.toNat ≤ a.toNat ∧ a.toNat < pa.toNat + sectsize := by
    rw [BitVec.toNat_sub]
    simp only [sectsize] at *
    omega
  rw [readsect, insl, sectorsAt]
  by_cases h : (a - pa).toNat < sectsize
  · rw [if_pos h, if_pos (hlt.1 h), sector_lbaRegs ho, BitVec.toNat_sub_of_le (hlt.1 h).1]
  · rw [if_neg h, if_neg fun h' => h (hlt.2 h')]

theorem sectorsAt_next {pa offset last : ℕ} (h : pa + sectsize ≤ last) :
    sectorsAt d (pa + sectsize) (offset + 1) last (sectorsAt d pa offset (pa + sectsize) m) =
      sectorsAt d pa offset last m := by
  funext a
  simp only [sectorsAt]
  by_cases h1 : pa + sectsize ≤ a.toNat ∧ a.toNat < last
  · have hbyte : sectsize * (offset + 1) + (a.toNat - (pa + sectsize)) = sectsize * offset + (a.toNat - pa) := by
      rw [Nat.mul_succ]
      omega
    rw [if_pos h1, if_pos ⟨by omega, h1.2⟩, hbyte]
  · rw [if_neg h1]
    exact if_congr (by omega) rfl rfl

/-- last is the end of the sector in which a segment ends -/
structure LastSector (endPa last : ℕ) : Prop where
  le : endPa ≤ last
  lt : last < endPa + sectsize
  aligned : last % sectsize = 0

/-- **The sectors that the loop writes**, from an aligned address on, where another sector follows the last. -/
theorem readsegLoop_eq {endPa : Word} {last : ℕ} (hl : LastSector endPa.toNat last) (hlast : last + sectsize ≤ 2 ^ 32)
    (fuel : ℕ) {pa offset : Word} (hpa : pa.toNat % sectsize = 0) (hle : pa.toNat ≤ last)
    (ho : sectsize * offset.toNat + endPa.toNat < pa.toNat + 2 ^ 36) :
    readsegLoop d endPa fuel pa offset m =
      if last < pa.toNat + sectsize * fuel then some (sectorsAt d pa.toNat offset.toNat last m) else none := by
  obtain ⟨hl1, hl2, hl3⟩ := hl
  induction fuel generalizing pa offset m with
  | zero => rw [readsegLoop, if_neg (by omega)]
  | succ fuel ih =>
    rw [readsegLoop]
    by_cases hlt : pa < endPa
    · have hle' : pa.toNat < endPa.toNat := hlt
      have hpa' : (pa + 512#32).toNat = pa.toNat + sectsize := by
        rw [BitVec.toNat_add]
        simp only [sectsize] at *
        simp
        omega
      have ho1 : offset.toNat < 2 ^ 28 := by
        simp only [sectsize] at *
        omega
      have ho' : (offset + 1#32).toNat = offset.toNat + 1 := BitVec.toNat_add_of_lt (Nat.lt_of_le_of_lt ho1 (by decide))
      have hnext : pa.toNat + sectsize ≤ last := by
        simp only [sectsize] at *
        omega
      rw [if_pos hlt, ih (by rw [hpa', Nat.add_mod_right, hpa]) (by rw [hpa']; exact hnext)
        (by rw [hpa', ho', Nat.mul_succ]; omega), hpa', ho', readsect_eq hpa ho1, sectorsAt_next hnext]
      exact if_congr (by rw [Nat.mul_succ]; omega) rfl rfl
    · have hge : endPa.toNat ≤ pa.toNat := not_lt.1 hlt
      have heq : pa.toNat = last := by
        simp only [sectsize] at *
        omega
      have hm : sectorsAt d pa.toNat offset.toNat last m = m := by
        funext a
        exact if_neg (by omega)
      rw [if_neg hlt, hm, if_pos (by rw [heq, Nat.mul_succ, sectsize]; omega)]

/-- the loop goes round for ever if its end is in the last sector of the address space -/
theorem readsegLoop_endless {endPa : Word} (h : 2 ^ 32 - sectsize < endPa.toNat) (fuel : ℕ) {pa offset : Word}
    (hpa : pa.toNat % sectsize = 0) : readsegLoop d endPa fuel pa offset m = none := by
  induction fuel generalizing pa offset m with
  | zero => rfl
  | succ fuel ih =>
    have hlt : pa < endPa := by
      rw [BitVec.lt_def]
      simp only [sectsize] at *
      omega
    have hnext : (pa + 512#32).toNat % sectsize = 0 := by
      rw [BitVec.toNat_add]
      simp only [sectsize] at *
      simp
      omega
    rw [readsegLoop, if_pos hlt]
    exact ih hnext

theorem readsegLoop_stop {endPa pa offset : Word} (h : ¬ pa < endPa) {fuel : ℕ} (hf : 0 < fuel) :
    readsegLoop d endPa fuel pa offset m = some m := by
  obtain ⟨fuel, rfl⟩ := Nat.exists_eq_succ_of_ne_zero (Nat.ne_zero_of_lt hf)
  rw [readsegLoop, if_neg h]

/-- the loop ends at the first address that is not below its end: no step from one below it wraps -/
theorem readsegLoop_ends {endPa : Word} (h : endPa.toNat ≤ 2 ^ 32 - sectsize) (rounds : ℕ) {pa offset : Word}
    (hpa : endPa.toNat ≤ pa.toNat + sectsize * rounds) :
    ∃ t, ∀ fuel, rounds < fuel → readsegLoop d endPa fuel pa offset m = some t := by
  induction rounds generalizing pa offset m with
  | zero =>
    have hge : ¬ pa < endPa := not_lt.2 hpa
    exact ⟨m, fun fuel hf => readsegLoop_stop hge hf⟩
  | succ rounds ih =>
    by_cases hlt : pa < endPa
    · have hpa' : (pa + 512#32).toNat = pa.toNat + sectsize := by
        rw [BitVec.lt_def] at hlt
        rw [BitVec.toNat_add]
        simp only [sectsize] at *
        simp
        omega
      have hnext : endPa.toNat ≤ (pa + 512#32).toNat + sectsize * rounds := by
        calc endPa.toNat
            ≤ pa.toNat + sectsize * (rounds + 1) := hpa
          _ = (pa + 512#32).toNat + sectsize * rounds := by rw [hpa', Nat.mul_succ]; omega
      obtain ⟨t, ht⟩ : ∃ t, ∀ fuel, rounds < fuel →
          readsegLoop d endPa fuel (pa + 512#32) (offset + 1#32) (readsect d pa offset m) = some t := ih hnext
      refine ⟨t, ?_⟩
      intro fuel hf
      cases fuel with
      | zero => exact absurd hf (Nat.not_lt_zero _)
      | succ fuel =>
        rw [readsegLoop, if_pos hlt]
        exact ht fuel (Nat.lt_of_succ_lt_succ hf)
    · exact ⟨m, fun fuel hf => readsegLoop_stop hlt (Nat.zero_lt_of_lt hf)⟩

/-- rounds that are enough for every call of readseg that ends -/
def enoughRounds : ℕ := 2 ^ 23 + 1

variable {p : Proghdr}

theorem lastSector (e : ℕ) : LastSector e ((e + (sectsize - 1)) / sectsize * sectsize) := by
  constructor <;> simp only [sectsize] <;> omega

theorem end_toNat (h : p.endPa < 2 ^ 32) : (p.pPa + p.pMemsz).toNat = p.endPa := by
  rw [BitVec.toNat_add]
  exact Nat.mod_eq_of_lt h

theorem add_one_toNat_div (o : Word) : (o / 512#32 + 1#32).toNat = o.toNat / sectsize + 1 := by
  have := o.isLt
  rw [BitVec.toNat_add, BitVec.toNat_udiv, sectsize]
  simp
  omega

/-- **One segment is one layer**, where its end is at most 2^32 - 512. -/
theorem loadSeg_eq (hend : p.endPa ≤ 2 ^ 32 - sectsize) (fuel : ℕ) :
    (∀ t, loadSeg d fuel p m = some t → t = (p.layer d).over m) ∧
    (enoughRounds ≤ fuel → loadSeg d fuel p m = some ((p.layer d).over m)) := by
  have hsum := end_toNat (lt_of_le_of_lt hend (by decide))
  have hlast := lastSector p.endPa
  have hpa := p.pPa.isLt
  have ho := p.pOffset.isLt
  have hlp : p.pPa.toNat ≤ p.endPa := Nat.le_add_right _ _
  have hover : sectorsAt d (p.pPa.toNat / sectsize * sectsize) (p.pOffset.toNat / sectsize + 1)
      ((p.endPa + (sectsize - 1)) / sectsize * sectsize) m = (p.layer d).over m := by
    funext a
    have hbyte : image d (p.source a) = d false (sectsize * (p.pOffset.toNat / sectsize + 1) +
        (a.toNat - p.pPa.toNat / sectsize * sectsize)) := by
      rw [image, Proghdr.source]
      congr 1
      rw [Nat.mul_succ, Nat.mul_comm]
      omega
    rw [sectorsAt, ← hbyte, Layer.over, Proghdr.layer]
    exact if_congr (by rw [decide_eq_true_iff]; rfl) rfl rfl
  have hrun : readsegLoop d (p.pPa + p.pMemsz) fuel (p.pPa &&& ~~~511#32) (p.pOffset / 512#32 + 1#32) m = _ :=
    readsegLoop_eq (by rw [hsum]; exact hlast) (by simp only [sectsize] at *; omega) fuel
      (by rw [aligned_and]; exact Nat.mul_mod_left _ _) (by rw [aligned_and]; simp only [sectsize] at *; omega)
      (by rw [aligned_and, add_one_toNat_div, hsum]; simp only [sectsize] at *; omega)
  rw [aligned_and, add_one_toNat_div, hover] at hrun
  rw [loadSeg, readseg, hrun]
  refine ⟨?_, fun hf => if_pos ?_⟩
  · intro t ht
    split_ifs at ht
    exact (Option.some.inj ht).symm
  · simp only [sectsize, enoughRounds] at *
    omega

theorem loadSeg_endless (h : 2 ^ 32 - sectsize < p.endPa) (hlt : p.endPa < 2 ^ 32) (fuel : ℕ) :
    loadSeg d fuel p m = none := by
  refine readsegLoop_endless ?_ fuel (by rw [aligned_and]; exact Nat.mul_mod_left _ _)
  rw [end_toNat hlt]
  exact h

/-- a segment that ends with the address space is not loaded: its end wraps to 0 -/
theorem loadSeg_top (h : p.endPa = 2 ^ 32) {fuel : ℕ} {t : Ram} (ht : loadSeg d fuel p m = some t) : t = m := by
  have hend : p.pPa + p.pMemsz = 0#32 := by
    apply BitVec.eq_of_toNat_eq
    rw [BitVec.toNat_add]
    change p.endPa % 2 ^ 32 = 0
    rw [h, Nat.mod_self]
  rw [loadSeg, readseg, hend] at ht
  cases fuel with
  | zero => cases ht
  | succ fuel =>
    rw [readsegLoop, if_neg (BitVec.not_lt_zero)] at ht
    exact (Option.some.inj ht).symm

/-- what a call that ends has done -/
theorem loadSeg_cases (hle : p.endPa ≤ 2 ^ 32) {fuel : ℕ} {t : Ram} (ht : loadSeg d fuel p m = some t) :
    (p.endPa ≤ 2 ^ 32 - sectsize ∧ t = (p.layer d).over m) ∨ (p.endPa = 2 ^ 32 ∧ t = m) := by
  by_cases hfit : p.endPa ≤ 2 ^ 32 - sectsize
  · exact Or.inl ⟨hfit, (loadSeg_eq hfit fuel).1 t ht⟩
  · rcases lt_or_eq_of_le hle with hlt | heq
    · rw [loadSeg_endless (not_le.1 hfit) hlt] at ht
      cases ht
    · exact Or.inr ⟨heq, loadSeg_top heq ht⟩

theorem loadSeg_untouched (hle : p.endPa ≤ 2 ^ 32) {fuel : ℕ} {t : Ram} (ht : loadSeg d fuel p m = some t) {a : Word}
    (ha : ¬ p.Touches a) : t a = m a := by
  rcases loadSeg_cases hle ht with ⟨-, rfl⟩ | ⟨-, rfl⟩
  · exact over_uncovered m (decide_eq_false ha)
  · rfl

end Segment

/-! ## A list of segments -/

section Segments

variable {d : Disk} {m : Ram} {p : Proghdr} {segs : List Proghdr}

theorem loadSegs_cons {fuel : ℕ} {t : Ram} :
    loadSegs d fuel (p :: segs) m = some t ↔ ∃ u, loadSeg d fuel p m = some u ∧ loadSegs d fuel segs u = some t :=
  Option.bind_eq_some_iff

theorem loadSegs_eq (h : ∀ p ∈ segs, p.endPa ≤ 2 ^ 32 - sectsize) (fuel : ℕ) :
    (∀ t, loadSegs d fuel segs m = some t → t = stack m (segs.map (Proghdr.layer d))) ∧
    (enoughRounds ≤ fuel → loadSegs d fuel segs m = some (stack m (segs.map (Proghdr.layer d)))) := by
  induction segs generalizing m with
  | nil => exact ⟨fun t ht => (Option.some.inj ht).symm, fun _ => rfl⟩
  | cons p segs ih =>
    obtain ⟨h1, h2⟩ := loadSeg_eq (d := d) (m := m) (h p List.mem_cons_self) fuel
    have hrest : ∀ q ∈ segs, q.endPa ≤ 2 ^ 32 - sectsize := fun q hq => h q (List.mem_cons_of_mem _ hq)
    rw [List.map_cons, stack_cons]
    refine ⟨fun t ht => ?_, fun hf => loadSegs_cons.2 ⟨_, h2 hf, (ih hrest).2 hf⟩⟩
    obtain ⟨u, hu, hut⟩ := loadSegs_cons.1 ht
    rw [h1 u hu] at hut
    exact (ih hrest).1 t hut

/-- a loop that ends has had no endless segment, and the highest byte of memory is what it was -/
theorem loadSegs_top (h : ∀ p ∈ segs, p.endPa ≤ 2 ^ 32) {fuel : ℕ} {t : Ram} (ht : loadSegs d fuel segs m = some t) :
    (∀ p ∈ segs, p.endPa ≤ 2 ^ 32 - sectsize ∨ p.endPa = 2 ^ 32) ∧ t (~~~0#32) = m (~~~0#32) := by
  induction segs generalizing m with
  | nil =>
    obtain rfl := Option.some.inj ht
    exact ⟨fun p hp => absurd hp List.not_mem_nil, rfl⟩
  | cons p segs ih =>
    obtain ⟨u, hu, hut⟩ := loadSegs_cons.1 ht
    obtain ⟨hrest, htop⟩ := ih (fun q hq => h q (List.mem_cons_of_mem _ hq)) hut
    have hcases := loadSeg_cases (h p List.mem_cons_self) hu
    refine ⟨?_, htop.trans ?_⟩
    · intro q hq
      rcases List.mem_cons.1 hq with rfl | hq
      · exact hcases.imp And.left And.left
      · exact hrest q hq
    · rcases hcases with ⟨hfit, rfl⟩ | ⟨-, rfl⟩
      · refine over_uncovered m (decide_eq_false fun htouch => ?_)
        have hlt := htouch.2
        rw [show (~~~0#32 : Word).toNat = 2 ^ 32 - 1 from rfl] at hlt
        simp only [sectsize] at *
        omega
      · rfl

/-- the address of byte k of a segment -/
theorem byte_toNat {k : ℕ} (hk : k < p.pMemsz.toNat) (h : p.endPa ≤ 2 ^ 32) :
    (p.pPa + BitVec.ofNat 32 k).toNat = p.pPa.toNat + k := by
  rw [Proghdr.endPa] at h
  rw [BitVec.toNat_add, BitVec.toNat_ofNat]
  omega

theorem touches_byte {k : ℕ} (hk : k < p.pMemsz.toNat) (h : p.endPa ≤ 2 ^ 32) :
    p.Touches (p.pPa + BitVec.ofNat 32 k) := by
  rw [Proghdr.Touches, byte_toNat hk h, Proghdr.endPa]
  simp only [sectsize]
  omega

theorem source_byte {k : ℕ} (hk : k < p.pMemsz.toNat) (h : p.endPa ≤ 2 ^ 32) (hc : p.Congruent) :
    p.source (p.pPa + BitVec.ofNat 32 k) = p.pOffset.toNat + k := by
  rw [Proghdr.Congruent] at hc
  rw [Proghdr.source, byte_toNat hk h]
  simp only [sectsize] at *
  omega

/-- the loop ends and every byte of every segment is the image's -/
def Loaded (d : Disk) (segs : List Proghdr) (m : Ram) : Prop :=
  ∃ fuel t, loadSegs d fuel segs m = some t ∧
    ∀ p ∈ segs, ∀ k < p.pMemsz.toNat, t (p.pPa + BitVec.ofNat 32 k) = image d (p.pOffset.toNat + k)

/-- every segment ends 512 bytes before the end of the address space; and where the sectors of a later segment, the last
that does, touch a byte of an earlier one, both have the same byte of the image for it -/
structure TailsKept (d : Disk) (segs : List Proghdr) : Prop where
  fits : ∀ p ∈ segs, p.endPa ≤ 2 ^ 32 - sectsize
  tails : ∀ before p between q after, segs = before ++ p :: (between ++ q :: after) → ∀ k < p.pMemsz.toNat,
    q.Touches (p.pPa + BitVec.ofNat 32 k) → (∀ q' ∈ after, ¬ q'.Touches (p.pPa + BitVec.ofNat 32 k)) →
    image d (q.source (p.pPa + BitVec.ofNat 32 k)) = image d (p.pOffset.toNat + k)

/-- the value at a byte of p, with the last later segment that touches it -/
theorem stack_later {before between after : List Proghdr} {q : Proghdr} {a : Word} (hq : q.Touches a)
    (h : ∀ q' ∈ after, ¬ q'.Touches a) :
    stack m ((before ++ p :: (between ++ q :: after)).map (Proghdr.layer d)) a = image d (q.source a) := by
  have hsplit : (before ++ p :: (between ++ q :: after)).map (Proghdr.layer d) =
      (before ++ p :: between).map (Proghdr.layer d) ++ q.layer d :: after.map (Proghdr.layer d) := by simp
  rw [hsplit, stack_last m (decide_eq_true hq) fun l hl => ?_]
  · rfl
  · obtain ⟨q', hq', rfl⟩ := List.mem_map.1 hl
    exact decide_eq_false (h q' hq')

theorem TailsKept.loaded (h : TailsKept d segs) (hc : ∀ p ∈ segs, p.Congruent) (m : Ram) : Loaded d segs m := by
  refine ⟨enoughRounds, _, (loadSegs_eq h.fits _).2 (le_refl _), fun p hp k hk => ?_⟩
  have hle : p.endPa ≤ 2 ^ 32 := le_trans (h.fits p hp) (Nat.sub_le _ _)
  obtain ⟨before, later, rfl⟩ := List.append_of_mem hp
  by_cases hlater : ∃ q ∈ later, q.Touches (p.pPa + BitVec.ofNat 32 k)
  · obtain ⟨between, q, after, rfl, hq, hafter⟩ := exists_last hlater
    rw [stack_later hq hafter]
    exact h.tails before p between q after rfl k hk hq hafter
  · -- the segment's own layer is the last
    have hown : ∀ l ∈ later.map (Proghdr.layer d), l.covers (p.pPa + BitVec.ofNat 32 k) = false := fun l hl => by
      obtain ⟨q, hq, rfl⟩ := List.mem_map.1 hl
      exact decide_eq_false fun htouch => hlater ⟨q, hq, htouch⟩
    rw [List.map_append, List.map_cons, stack_last m (decide_eq_true (touches_byte hk hle)) hown,
      ← source_byte hk hle (hc p hp)]
    rfl

/-- no byte but one can be right from two memories that differ in it and are not written there -/
theorem tailsKept_of_loaded (h : ∀ p ∈ segs, p.endPa ≤ 2 ^ 32) (hl : ∀ m, Loaded d segs m) : TailsKept d segs := by
  have hfits : ∀ p ∈ segs, p.endPa ≤ 2 ^ 32 - sectsize := fun p hp => by
    obtain ⟨fuel, t, ht, hbytes⟩ := hl fun _ => image d (p.pOffset.toNat + (p.pMemsz.toNat - 1)) + 1#8
    obtain ⟨hcases, htop⟩ := loadSegs_top h ht
    refine (hcases p hp).resolve_right ?_
    intro heq
    -- the last byte of a segment that ends at 2^32 is not loaded
    have hpa := p.pPa.isLt
    have hend : p.pPa.toNat + p.pMemsz.toNat = 2 ^ 32 := heq
    have hk : p.pMemsz.toNat - 1 < p.pMemsz.toNat := by omega
    have haddr : p.pPa + BitVec.ofNat 32 (p.pMemsz.toNat - 1) = ~~~0#32 := by
      apply BitVec.eq_of_toNat_eq
      rw [byte_toNat hk (le_of_eq heq), show (~~~0#32 : Word).toNat = 2 ^ 32 - 1 from rfl]
      omega
    have hbyte := hbytes p hp _ hk
    rw [haddr, htop] at hbyte
    have hne : ∀ b : Byte, b + 1#8 ≠ b := by decide
    exact hne _ hbyte
  refine ⟨hfits, fun before p between q after hsegs k hk hq hafter => ?_⟩
  obtain ⟨fuel, t, ht, hbytes⟩ := hl fun _ => 0#8
  have hp : p ∈ segs := by rw [hsegs]; simp
  rw [← hbytes p hp k hk, (loadSegs_eq hfits fuel).1 t ht, hsegs, stack_later hq hafter]

/-! ## The headers in memory -/

/-- the scratch page, which holds the first page of the image -/
def InScratch (a : Word) : Prop := elfhdr.toNat ≤ a.toNat ∧ a.toNat < elfhdr.toNat + 4096

/-- the segment is below or above the scratch page -/
def Proghdr.OffScratch (p : Proghdr) : Prop := p.endPa ≤ elfhdr.toNat ∨ elfhdr.toNat + 4096 ≤ p.pPa.toNat

/-- the headers segs are in memory from ph on -/
def Headers (m : Ram) : Word → List Proghdr → Prop
  | _, [] => True
  | ph, p :: ps => ldProghdr m ph = p ∧ Headers m (ph + 32#32) ps

/-- whole sectors off the page: neither rounding reaches it -/
theorem not_touches_scratch (h : p.OffScratch) {a : Word} (ha : InScratch a) : ¬ p.Touches a := by
  rintro ⟨h1, h2⟩
  obtain ⟨ha1, ha2⟩ := ha
  rw [show elfhdr.toNat = 65536 from rfl] at ha1 ha2
  rcases h with h | h
  · rw [show elfhdr.toNat = 65536 from rfl] at h
    simp only [sectsize] at *
    omega
  · rw [show elfhdr.toNat = 65536 from rfl] at h
    simp only [sectsize] at *
    omega

theorem ld32_scratch {t : Ram} (h : ∀ a, InScratch a → t a = m a) {a : Word} (h1 : elfhdr.toNat ≤ a.toNat)
    (h2 : a.toNat + 4 ≤ elfhdr.toNat + 4096) : ld32 t a = ld32 m a := by
  have hin : ∀ i < 4, InScratch (a + BitVec.ofNat 32 i) := fun i hi => by
    rw [InScratch, BitVec.toNat_add, BitVec.toNat_ofNat]
    rw [show elfhdr.toNat = 65536 from rfl] at *
    omega
  have h0 := h (a + 0#32) (hin 0 (by decide))
  rw [BitVec.add_zero] at h0
  rw [ld32, ld32, h0, h _ (hin 1 (by decide)), h _ (hin 2 (by decide)), h _ (hin 3 (by decide))]

theorem ldProghdr_scratch {t : Ram} (h : ∀ a, InScratch a → t a = m a) {ph : Word} (h1 : elfhdr.toNat ≤ ph.toNat)
    (h2 : ph.toNat + 32 ≤ elfhdr.toNat + 4096) : ldProghdr t ph = ldProghdr m ph := by
  have hld : ∀ c < 29, ld32 t (ph + BitVec.ofNat 32 c) = ld32 m (ph + BitVec.ofNat 32 c) := fun c hc => by
    rw [show elfhdr.toNat = 65536 from rfl] at h1 h2
    apply ld32_scratch h
    all_goals
      rw [show elfhdr.toNat = 65536 from rfl, BitVec.toNat_add, BitVec.toNat_ofNat]
      omega
  rw [ldProghdr, ldProghdr, hld 4 (by decide), hld 12 (by decide), hld 20 (by decide)]

theorem headers_scratch {t : Ram} (h : ∀ a, InScratch a → t a = m a) {ph : Word} (h1 : elfhdr.toNat ≤ ph.toNat)
    (h2 : ph.toNat + 32 * segs.length ≤ elfhdr.toNat + 4096) (hs : Headers m ph segs) : Headers t ph segs := by
  induction segs generalizing ph with
  | nil => trivial
  | cons p segs ih =>
    rw [List.length_cons] at h2
    have hnext : (ph + 32#32).toNat = ph.toNat + 32 := by
      rw [show elfhdr.toNat = 65536 from rfl] at h2
      rw [BitVec.toNat_add]
      simp
      omega
    exact ⟨(ldProghdr_scratch h h1 (by omega)).trans hs.1, ih (by omega) (by omega) hs.2⟩

/-- **bootmain's loop reads the list of headers**, because no segment writes the page they are in -/
theorem bootLoop_eq (hoff : ∀ p ∈ segs, p.OffScratch ∧ p.endPa ≤ 2 ^ 32) (fuel : ℕ) {ph eph : Word}
    (h1 : elfhdr.toNat ≤ ph.toNat) (h2 : ph.toNat + 32 * segs.length = eph.toNat)
    (h3 : eph.toNat ≤ elfhdr.toNat + 4096) (hs : Headers m ph segs) :
    bootLoop d fuel eph segs.length ph m = loadSegs d fuel segs m := by
  induction segs generalizing ph m with
  | nil => rfl
  | cons p segs ih =>
    rw [List.length_cons] at h2
    obtain ⟨hp, hrest⟩ := hs
    have hnext : (ph + 32#32).toNat = ph.toNat + 32 := by
      rw [show elfhdr.toNat = 65536 from rfl] at h3
      rw [BitVec.toNat_add]
      simp
      omega
    have hlt : ph < eph := by
      rw [BitVec.lt_def]
      omega
    obtain ⟨hpoff, hpend⟩ := hoff p List.mem_cons_self
    rw [List.length_cons, bootLoop, if_pos hlt, hp, loadSegs]
    cases hu : loadSeg d fuel p m with
    | none => rfl
    | some u =>
      have hkeep : ∀ a, InScratch a → u a = m a := fun a ha =>
        loadSeg_untouched hpend hu (not_touches_scratch hpoff ha)
      exact ih (fun q hq => hoff q (List.mem_cons_of_mem _ hq)) (by omega) (by omega)
        (headers_scratch hkeep (by omega) (by omega) hrest)

end Segments

/-! ## Main results -/

/-- **Loading in increasing order is not always enough.** Whatever headers bootmain finds in the scratch page, its loop is
the loop over the list of them; and from every memory it ends with each byte of each segment right exactly if the tails are
kept. -/
theorem load_order_enough (d : Disk) (segs : List Proghdr) (hc : ∀ p ∈ segs, p.Congruent)
    (hw : ∀ p ∈ segs, p.endPa ≤ 2 ^ 32) :
    ((∀ m, Loaded d segs m) ↔ TailsKept d segs) ∧
    ((∀ p ∈ segs, p.OffScratch) → ∀ (m : Ram) (fuel : ℕ) (ph eph : Word), elfhdr.toNat ≤ ph.toNat →
      ph.toNat + 32 * segs.length = eph.toNat → eph.toNat ≤ elfhdr.toNat + 4096 → Headers m ph segs →
      bootLoop d fuel eph segs.length ph m = loadSegs d fuel segs m) := by
  refine ⟨⟨tailsKept_of_loaded hw, fun h m => h.loaded hc m⟩, fun hoff m fuel ph eph h1 h2 h3 hs => ?_⟩
  exact bootLoop_eq (fun p hp => ⟨hoff p hp, hw p hp⟩) fuel h1 h2 h3 hs

/-- **readseg copies what it is asked for**, and whole sectors at both ends. -/
theorem readseg_copies (d : Disk) (m : Ram) {pa count offset : Word}
    (hc : pa.toNat % sectsize = offset.toNat % sectsize) (hend : pa.toNat + count.toNat ≤ 2 ^ 32 - sectsize) :
    ∃ t, (∀ fuel, enoughRounds ≤ fuel → readseg d fuel pa count offset m = some t) ∧
      (∀ k < count.toNat, t (pa + BitVec.ofNat 32 k) = image d (offset.toNat + k)) ∧
      ∀ a : Word, a.toNat < pa.toNat / sectsize * sectsize ∨
        (pa.toNat + count.toNat + (sectsize - 1)) / sectsize * sectsize ≤ a.toNat → t a = m a := by
  -- the call is that of a segment
  let p : Proghdr := { pOffset := offset, pPa := pa, pMemsz := count }
  have hle : p.endPa ≤ 2 ^ 32 := le_trans hend (Nat.sub_le _ _)
  refine ⟨(p.layer d).over m, fun fuel hf => (loadSeg_eq (p := p) hend fuel).2 hf, ?_, ?_⟩
  · intro k hk
    have htouch : (p.layer d).covers (pa + BitVec.ofNat 32 k) := decide_eq_true (touches_byte (p := p) hk hle)
    have hsource := source_byte (p := p) hk hle hc
    rw [Layer.over, if_pos htouch, ← hsource]
    rfl
  · intro a ha
    have hout : ¬ p.Touches a := by
      rintro ⟨hlo, hhi⟩
      rcases ha with ha | ha
      · exact absurd hlo (not_le.2 ha)
      · exact absurd hhi (not_lt.2 ha)
    have hcovers : ¬ (p.layer d).covers a := fun h => hout (of_decide_eq_true h)
    rw [Layer.over, if_neg hcovers]

/-- a page and a half, from a disk whose bytes tell their sector: the first byte is from sector 9 -/
theorem readseg_copies_unaligned : ∃ t : Ram,
    readseg (fun _ i => BitVec.ofNat 8 (i / sectsize)) enoughRounds 0x100080#32 0x1800#32 0x1080#32 (fun _ => 0#8) = some t ∧
    t 0x100080#32 = 9#8 ∧ t 0x101A00#32 = 0#8 := by
  have hc : (0x100080#32).toNat % sectsize = (0x1080#32).toNat % sectsize := by decide
  have hend : (0x100080#32).toNat + (0x1800#32).toNat ≤ 2 ^ 32 - sectsize := by decide
  obtain ⟨t, hrun, hcopied, hkept⟩ := readseg_copies (fun _ i => BitVec.ofNat 8 (i / sectsize)) (fun _ => 0#8) hc hend
  have hfirst := hcopied 0 (by decide)
  rw [BitVec.add_zero] at hfirst
  exact ⟨t, hrun _ (le_refl _), hfirst.trans (by decide), hkept _ (Or.inr (by decide))⟩

/-- **Which calls of readseg end.** Whatever the program header holds, the loop ends, in at most 2^23 sectors, exactly if
the end of the segment, modulo 2^32, is not in the last sector of the address space. -/
theorem readseg_ends_iff (d : Disk) (m : Ram) (pa count offset : Word) :
    ((∃ fuel t, readseg d fuel pa count offset m = some t) ↔
      (pa.toNat + count.toNat) % 2 ^ 32 ≤ 2 ^ 32 - sectsize) ∧
    ((pa.toNat + count.toNat) % 2 ^ 32 ≤ 2 ^ 32 - sectsize →
      ∃ t, ∀ fuel, enoughRounds ≤ fuel → readseg d fuel pa count offset m = some t) := by
  have hend : (pa + count).toNat = (pa.toNat + count.toNat) % 2 ^ 32 := BitVec.toNat_add _ _
  have hends : (pa.toNat + count.toNat) % 2 ^ 32 ≤ 2 ^ 32 - sectsize →
      ∃ t, ∀ fuel, enoughRounds ≤ fuel → readseg d fuel pa count offset m = some t := by
    intro hle
    rw [← hend] at hle
    have hrounds : (pa + count).toNat ≤ (pa &&& ~~~511#32).toNat + sectsize * 2 ^ 23 :=
      calc (pa + count).toNat
          ≤ sectsize * 2 ^ 23 := le_of_lt (pa + count).isLt
        _ ≤ (pa &&& ~~~511#32).toNat + sectsize * 2 ^ 23 := Nat.le_add_left _ _
    exact readsegLoop_ends hle (2 ^ 23) hrounds
  refine ⟨⟨?_, ?_⟩, hends⟩
  · rintro ⟨fuel, t, ht⟩
    by_contra hgt
    have hlast : 2 ^ 32 - sectsize < (pa + count).toNat := by
      rw [hend]
      exact not_le.1 hgt
    have hnone : readseg d fuel pa count offset m = none := by
      apply readsegLoop_endless hlast
      rw [aligned_and]
      exact Nat.mul_mod_left _ _
    rw [hnone] at ht
    cases ht
  · intro hle
    obtain ⟨t, ht⟩ := hends hle
    exact ⟨enoughRounds, t, ht _ (le_refl _)⟩

/-- one byte at the start of the last sector of the address space, as a header may ask for it -/
theorem readseg_top_sector_endless :
    ¬ ∃ fuel t, readseg (fun _ _ => 0#8) fuel 0xFFFFFE00#32 1#32 0x1000#32 (fun _ => 0#8) = some t := by
  rintro ⟨fuel, t, ht⟩
  have hnone : readseg (fun _ _ => 0#8) fuel 0xFFFFFE00#32 1#32 0x1000#32 (fun _ => 0#8) = none :=
    readsegLoop_endless (by decide) fuel (by decide)
  rw [hnone] at ht
  cases ht

/-- where the order is enough: a later segment starts in a later sector than an earlier one ends in, or the two lie as far
apart in the image as in memory -/
theorem tailsKept_of_apart {d : Disk} {segs : List Proghdr} (hc : ∀ p ∈ segs, p.Congruent)
    (hfit : ∀ p ∈ segs, p.endPa ≤ 2 ^ 32 - sectsize)
    (hapart : segs.Pairwise fun p q => (p.endPa + (sectsize - 1)) / sectsize ≤ q.pPa.toNat / sectsize ∨
      p.pPa.toNat + q.pOffset.toNat = q.pPa.toNat + p.pOffset.toNat) : TailsKept d segs := by
  refine ⟨hfit, fun before p between q after hsegs k hk hq _ => ?_⟩
  have hp : p ∈ segs := by rw [hsegs]; simp
  have hqs : q ∈ segs := by rw [hsegs]; simp
  have hle : p.endPa ≤ 2 ^ 32 := le_trans (hfit p hp) (Nat.sub_le _ _)
  have hend : p.endPa = p.pPa.toNat + p.pMemsz.toNat := rfl
  rw [hsegs] at hapart
  obtain ⟨-, hlater, -⟩ := List.pairwise_append.1 hapart
  have hpq := (List.pairwise_cons.1 hlater).1 q (by simp)
  have hcp := hc p hp
  have hcq := hc q hqs
  rw [Proghdr.Congruent] at hcp hcq
  obtain ⟨hq1, hq2⟩ := hq
  rw [byte_toNat hk hle] at hq1 hq2
  rcases hpq with hgap | hdelta
  · -- the sectors of q start after the byte
    simp only [sectsize] at *
    omega
  · rw [Proghdr.source, byte_toNat hk hle]
    congr 1
    simp only [sectsize] at *
    omega

/-- an ELF header and a table of two program headers after it -/
def headerWords (p q : Proghdr) : List Word :=
  [elfMagic, 0#32, 0#32, 0#32, 0x00030002#32, 1#32, 0x0010000C#32, 52#32, 0#32, 0#32, 0x00200034#32, 2#32, 0#32,
    1#32, p.pOffset, p.pPa ||| kernbase, p.pPa, p.pMemsz, p.pMemsz, 5#32, 0x1000#32,
    1#32, q.pOffset, q.pPa ||| kernbase, q.pPa, q.pMemsz, q.pMemsz, 6#32, 0x1000#32]

/-- a disk with such an image, 1 in its first 8192 bytes after the headers and 2 from there on -/
def twoSegDisk (p q : Proghdr) : Disk := fun drive i =>
  if drive then 0#8
  else if i - sectsize < 116 then
    ((headerWords p q).getD ((i - sectsize) / 4) 0#32 >>> (8 * (i % 4))).setWidth 8
  else if i - sectsize < 0x2000 then 1#8
  else 2#8

def textSeg : Proghdr := { pOffset := 0x1000#32, pPa := 0x100000#32, pMemsz := 0x180#32 }

/-- a data segment on the next page -/
def pageSeg : Proghdr := { pOffset := 0x2000#32, pPa := 0x101000#32, pMemsz := 0x80#32 }

/-- a data segment in the last sector of the text, from another part of the image -/
def tailSeg : Proghdr := { pOffset := 0x2180#32, pPa := 0x100180#32, pMemsz := 0x80#32 }

theorem load_order_enough_kernel :
    (∀ p ∈ [textSeg, pageSeg], p.Congruent) ∧ (∀ p ∈ [textSeg, pageSeg], p.endPa ≤ 2 ^ 32) ∧
    ((∀ m, Loaded (twoSegDisk textSeg pageSeg) [textSeg, pageSeg] m) ↔
      TailsKept (twoSegDisk textSeg pageSeg) [textSeg, pageSeg]) := by
  have hc : ∀ p ∈ [textSeg, pageSeg], p.Congruent := by unfold Proghdr.Congruent; decide
  have hw : ∀ p ∈ [textSeg, pageSeg], p.endPa ≤ 2 ^ 32 := by decide
  exact ⟨hc, hw, (load_order_enough _ _ hc hw).1⟩

/-- **The second segment destroys the first.** The ranges are disjoint, in increasing order and off the scratch page, each
address is its file offset modulo 512, and bootmain calls the entry point with byte 0 of the text replaced. -/
theorem load_order_tail_lost :
    (∀ p ∈ [textSeg, tailSeg], p.Congruent ∧ p.OffScratch) ∧ textSeg.endPa ≤ tailSeg.pPa.toNat ∧
    tailSeg.endPa ≤ 2 ^ 32 ∧
    ∃ e m, bootmain (twoSegDisk textSeg tailSeg) 10 (fun _ => 0#8) = some (.entry e m) ∧
      Headers m 0x10034#32 [textSeg, tailSeg] ∧
      m textSeg.pPa ≠ image (twoSegDisk textSeg tailSeg) textSeg.pOffset.toNat := by
  have hobs : (bootmain (twoSegDisk textSeg tailSeg) 10 fun _ => 0#8).map (fun o =>
      (o.calls, ldProghdr o.ram 0x10034#32, ldProghdr o.ram 0x10054#32, o.ram 0x100000#32)) =
      some (some 0x0010000C#32, textSeg, tailSeg, 2#8) := by decide +kernel
  obtain ⟨o, ho, hfields⟩ := Option.map_eq_some_iff.1 hobs
  obtain ⟨hcalls, hp, hq, hbyte⟩ := by simpa only [Prod.mk.injEq] using hfields
  refine ⟨by unfold Proghdr.Congruent Proghdr.OffScratch; decide, by decide, by decide, ?_⟩
  cases o with
  | bad m => cases hcalls
  | entry e m =>
    refine ⟨e, m, ho, ⟨hp, hq, trivial⟩, fun h => ?_⟩
    have himage : image (twoSegDisk textSeg tailSeg) textSeg.pOffset.toNat = 1#8 := by decide
    exact absurd (hbyte.symm.trans (h.trans himage)) (by decide)

end Jos
